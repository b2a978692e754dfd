import Ogg.Source

/-!
# Reading up to a broken place

A device has broken places, where every read fails. What a read gives are the next bytes, and
none of those behind a broken place that is still ahead; however short the reads are and however
often they are interrupted, reading goes on up to the first of

* as many bytes as were asked for,
* the end of the bytes,
* a broken place.

So what is read until enough has come depends on the bytes and the broken places alone: it fails
exactly if a broken place is reached (`Device.StopsAt`), and then the bytes before it were read and
the device stands at it.

## Main statements

* `Device.read_cases`: all that one read can come to.
* `Device.behind_readFull`: what is broken stays broken, and nothing else breaks.
* `Device.readFull_of_stopsAt`, `Device.readFull_of_clear`: reading until enough has come.
-/

namespace Ogg.Device

/-- One device is another after some bytes were read from it. -/
structure After (e d : Device) (bytes : Bytes) : Prop where
  /-- The bytes read are those that were ahead, and the others still are. -/
  ahead : d.ahead = bytes ++ e.ahead
  /-- The bytes of the device are what they were. -/
  data : e.data = d.data
  /-- The offset has moved past the bytes. -/
  offset : e.offset = d.offset + bytes.length
  /-- It can move if it could. -/
  seekable : e.seekable = d.seekable
  /-- It can say its offset if it could. -/
  tellable : e.tellable = d.tellable
  /-- No faults have come up. -/
  faults : ∀ f ∈ e.faults, f ∈ d.faults

namespace After

theorem refl (d : Device) : After d d [] := ⟨rfl, rfl, rfl, rfl, rfl, fun _ h => h⟩

theorem trans {d e f : Device} {bytes more : Bytes} (h : After e d bytes) (h' : After f e more) :
    After f d (bytes ++ more) where
  ahead := by rw [h.ahead, h'.ahead, List.append_assoc]
  data := h'.data.trans h.data
  offset := by rw [h'.offset, h.offset, List.length_append, Nat.add_assoc]
  seekable := h'.seekable.trans h.seekable
  tellable := h'.tellable.trans h.tellable
  faults := fun x hx => h.faults x (h'.faults x hx)

theorem ahead_eq_drop {d e : Device} {bytes : Bytes} (h : After e d bytes) :
    e.ahead = d.ahead.drop bytes.length := by
  rw [h.ahead, List.drop_left]

/-- The bytes read are the next ones. -/
theorem eq_take {d e : Device} {bytes : Bytes} (h : After e d bytes) : bytes = d.ahead.take bytes.length := by
  rw [h.ahead, List.take_left]

end After

/-! ### How much a read may give -/

theorem foldl_min_pos {l : List Nat} {a : Nat} (ha : 0 < a) (hl : ∀ x ∈ l, 0 < x) : 0 < l.foldl min a := by
  induction l generalizing a with
  | nil => exact ha
  | cons x l ih =>
    rw [List.foldl_cons]
    have hx := hl x List.mem_cons_self
    exact ih (by omega) fun y hy => hl y (List.mem_cons_of_mem x hy)

theorem foldl_min_le (l : List Nat) (a : Nat) : l.foldl min a ≤ a := by
  induction l generalizing a with
  | nil => exact Nat.le_refl a
  | cons x l ih => exact Nat.le_trans (ih _) (Nat.min_le_left a x)

theorem foldl_min_le_of_mem {l : List Nat} (a : Nat) {x : Nat} (hx : x ∈ l) : l.foldl min a ≤ x := by
  induction l generalizing a with
  | nil => cases hx
  | cons y l ih =>
    rcases List.mem_cons.mp hx with rfl | hx
    · exact Nat.le_trans (foldl_min_le l _) (Nat.min_le_right a x)
    · exact ih _ hx

/-- A read that does not fail may give at least one byte. -/
theorem readLimit_pos (d : Device) {n : Nat} (hn : 0 < n) : 0 < d.readLimit n := by
  refine foldl_min_pos ?_ ?_
  · split
    · exact hn
    · next hpace =>
      have : d.pace d.reads ≠ 0 := by simpa using hpace
      omega
  · intro x hx
    rw [List.mem_map] at hx
    obtain ⟨f, hf, rfl⟩ := hx
    rw [List.mem_filter, decide_eq_true_eq] at hf
    omega

theorem readLimit_le (d : Device) (n : Nat) : d.readLimit n ≤ n := by
  refine Nat.le_trans (foldl_min_le _ _) ?_
  split
  · exact Nat.le_refl n
  · exact Nat.min_le_left n _

/-- No read goes past a fault that is ahead. -/
theorem readLimit_le_of_fault {d : Device} {f : Fault} (hf : f ∈ d.faults) (hlt : d.offset < f.offset) (n : Nat) :
    d.readLimit n ≤ f.offset - d.offset := by
  refine foldl_min_le_of_mem _ ?_
  rw [List.mem_map]
  exact ⟨f, List.mem_filter.mpr ⟨hf, by simpa using hlt⟩, rfl⟩

/-! ### One read -/

/-- An offset is broken: every read there fails. -/
def Breaks (d : Device) (f : Nat) : Prop := ⟨f, .broken⟩ ∈ d.faults

/-- What becomes of a device that is read and moved about. -/
structure Kin (e d : Device) : Prop where
  /-- The bytes are what they were. -/
  data : e.data = d.data
  /-- The same places are broken. -/
  breaks : ∀ f, e.Breaks f ↔ d.Breaks f
  /-- It can move if it could. -/
  seekable : e.seekable = d.seekable
  /-- It can say its offset if it could. -/
  tellable : e.tellable = d.tellable
  /-- Reads are cut as they were to be. -/
  pace : e.pace = d.pace
  /-- Only interruptions go by. -/
  kept : (∀ f ∈ d.faults, f.kind = .broken) → e.faults = d.faults

namespace Kin

theorem refl (d : Device) : Kin d d := ⟨rfl, fun _ => Iff.rfl, rfl, rfl, rfl, fun _ => rfl⟩

theorem trans {d e f : Device} (h : Kin e d) (h' : Kin f e) : Kin f d where
  data := h'.data.trans h.data
  breaks x := (h'.breaks x).trans (h.breaks x)
  seekable := h'.seekable.trans h.seekable
  tellable := h'.tellable.trans h.tellable
  pace := h'.pace.trans h.pace
  kept hd := (h'.kept (h.kept hd ▸ hd)).trans (h.kept hd)

/-- A device that was moved. -/
theorem moved {d e : Device} (h : Kin e d) (offset : Nat) : Kin { e with offset } d :=
  ⟨h.data, h.breaks, h.seekable, h.tellable, h.pace, h.kept⟩

end Kin

/-- One device is another after some bytes were read from it, and what was broken is, and nothing
else. -/
structure Behind (e d : Device) (bytes : Bytes) : Prop extends After e d bytes, Kin e d

namespace Behind

theorem refl (d : Device) : Behind d d [] := { After.refl d, Kin.refl d with }

theorem trans {d e f : Device} {bytes more : Bytes} (h : Behind e d bytes) (h' : Behind f e more) :
    Behind f d (bytes ++ more) :=
  { h.toAfter.trans h'.toAfter, h.toKin.trans h'.toKin with }

end Behind

/-- Only the fault that is found first is taken away. -/
theorem mem_eraseP_of_find? {l : List Fault} {p : Fault → Bool} {a b : Fault} (h : l.find? p = some a) (hb : b ≠ a) :
    b ∈ l.eraseP p ↔ b ∈ l := by
  obtain ⟨hp, before, after, rfl, hbefore⟩ := List.find?_eq_some_iff_append.mp h
  have hno : ∀ x ∈ before, ¬ p x = true := fun x hx => by simpa using hbefore x hx
  rw [List.eraseP_append_right _ hno, List.eraseP_cons_of_pos hp, List.mem_append, List.mem_append, List.mem_cons]
  simp only [hb, false_or]

/-- **All that one read can come to**: it is interrupted, once; or it fails at a broken place; or it
gives the next bytes, at least one if there are any, and none from behind a broken place. -/
theorem read_cases (d : Device) {n : Nat} (hn : 0 < n) :
    (∃ e, d.read n = (.error .interrupted, e) ∧ Behind e d []) ∨
      (d.Breaks d.offset ∧ d.read n = (.error .read, d)) ∨
      ∃ bytes e, d.read n = (.ok bytes, e) ∧ Behind e d bytes ∧ bytes.length ≤ n ∧ (bytes = [] → d.ahead = []) ∧
        ¬ d.Breaks d.offset ∧ ∀ f, d.Breaks f → d.offset ≤ f → d.offset + bytes.length ≤ f := by
  unfold read
  rw [if_neg (by omega)]
  split
  · next offset hfind =>
    refine Or.inl ⟨_, rfl, ⟨rfl, rfl, rfl, rfl, rfl, fun f hf => List.mem_of_mem_eraseP hf⟩, fun f => ?_, rfl, ?_⟩
    · exact mem_eraseP_of_find? hfind fun h => by cases congrArg Fault.kind h
    · intro hbroken
      cases hbroken _ (List.mem_of_find?_eq_some hfind)
  · next offset hfind =>
    have hoffset : offset = d.offset := by simpa using List.find?_some hfind
    exact Or.inr (Or.inl ⟨hoffset ▸ List.mem_of_find?_eq_some hfind, rfl⟩)
  · next hfind =>
    rw [List.find?_eq_none] at hfind
    have hhere : ¬ d.Breaks d.offset := fun h => hfind _ h (by simp)
    refine Or.inr (Or.inr ⟨_, _, rfl,
      ⟨⟨?_, rfl, rfl, rfl, rfl, fun _ hf => hf⟩, fun _ => Iff.rfl, rfl, fun _ => rfl⟩, ?_, ?_, hhere, ?_⟩)
    · simp only [ahead, List.length_take, ← List.drop_drop]
      rw [← List.drop_eq_drop_min, List.take_append_drop]
    · exact Nat.le_trans (List.length_take_le _ _) (d.readLimit_le n)
    · intro hnil
      have := d.readLimit_pos hn
      rcases List.take_eq_nil_iff.mp hnil with hzero | hnil
      · omega
      · exact hnil
    · intro f hf hle
      have hne : f ≠ d.offset := by
        rintro rfl
        exact hhere hf
      have hlimit := readLimit_le_of_fault (f := ⟨f, .broken⟩) hf (by show d.offset < f; omega) n
      have hlength := List.length_take_le (d.readLimit n) d.ahead
      simp only at hlimit
      omega

/-- What a read gives, and what it leaves of the device. -/
theorem behind_of_read_ok {d e : Device} {n : Nat} {bytes : Bytes} (h : d.read n = (.ok bytes, e)) :
    Behind e d bytes ∧ bytes.length ≤ n := by
  rcases Nat.eq_zero_or_pos n with rfl | hn
  · rw [read, if_pos rfl] at h
    obtain ⟨hbytes, rfl⟩ := Prod.mk.inj h
    cases hbytes
    exact ⟨Behind.refl d, Nat.le_refl 0⟩
  · obtain ⟨e', hread, -⟩ | ⟨-, hread⟩ | ⟨bytes', e', hread, hbehind, hle, -⟩ := d.read_cases hn
    · cases (Prod.mk.inj (h.symm.trans hread)).1
    · cases (Prod.mk.inj (h.symm.trans hread)).1
    · obtain ⟨hbytes, rfl⟩ := Prod.mk.inj (h.symm.trans hread)
      cases hbytes
      exact ⟨hbehind, hle⟩

/-- What a read that fails leaves of the device. -/
theorem behind_of_read_error {d e : Device} {n : Nat} {x : IoError} (h : d.read n = (.error x, e)) : Behind e d [] := by
  rcases Nat.eq_zero_or_pos n with rfl | hn
  · rw [read, if_pos rfl] at h
    cases (Prod.mk.inj h).1
  · obtain ⟨e', hread, hbehind⟩ | ⟨-, hread⟩ | ⟨bytes', e', hread, -⟩ := d.read_cases hn
    · obtain ⟨-, rfl⟩ := Prod.mk.inj (h.symm.trans hread)
      exact hbehind
    · obtain ⟨-, rfl⟩ := Prod.mk.inj (h.symm.trans hread)
      exact Behind.refl e
    · cases (Prod.mk.inj (h.symm.trans hread)).1

/-- **All that a read can come to that is tried again** as often as it is interrupted. -/
theorem readSome_cases (d : Device) {n : Nat} (hn : 0 < n) :
    (d.Breaks d.offset ∧ ∃ e, d.readSome n = (.error .read, e) ∧ Behind e d []) ∨
      ∃ bytes e, d.readSome n = (.ok bytes, e) ∧ Behind e d bytes ∧ bytes.length ≤ n ∧ (bytes = [] → d.ahead = []) ∧
        ¬ d.Breaks d.offset ∧ ∀ f, d.Breaks f → d.offset ≤ f → d.offset + bytes.length ≤ f := by
  fun_induction readSome d n with
  | case1 d e hread ih =>
    obtain ⟨e', hread', hbehind⟩ | ⟨-, hread'⟩ | ⟨bytes, e', hread', -⟩ := read_cases d hn
    · obtain ⟨-, rfl⟩ := Prod.mk.inj (hread.symm.trans hread')
      have hoffset : e.offset = d.offset := hbehind.offset
      have hahead : d.ahead = e.ahead := hbehind.ahead
      obtain ⟨hbroken, e', hsome, hrest⟩ | ⟨bytes, e', hsome, hrest, hle, hnil, hhere, hnot⟩ := ih
      · exact Or.inl ⟨(hbehind.breaks _).mp (hoffset ▸ hbroken), e', hsome, hbehind.trans hrest⟩
      · refine Or.inr ⟨bytes, e', hsome, hbehind.trans hrest, hle, fun h => hahead.trans (hnil h), ?_, fun f hf hlt => ?_⟩
        · rwa [hoffset, hbehind.breaks] at hhere
        · rw [hoffset] at hnot
          exact hnot f ((hbehind.breaks f).mpr hf) hlt
    · cases (Prod.mk.inj (hread.symm.trans hread')).1
    · cases (Prod.mk.inj (hread.symm.trans hread')).1
  | case2 d hno =>
    obtain ⟨e, hread, -⟩ | ⟨hbroken, hread⟩ | h := read_cases d hn
    · exact absurd hread (hno e)
    · exact Or.inl ⟨hbroken, d, hread, Behind.refl d⟩
    · exact Or.inr h

/-! ### Reading until enough has come -/

/-- A reading of `n` bytes comes to an offset: the offset is ahead, and neither all of the bytes nor
the end come before it. -/
def Reaches (d : Device) (n f : Nat) : Prop := d.offset ≤ f ∧ f < d.offset + n ∧ f ≤ max d.offset d.data.length

/-- A reading of `n` bytes comes to a broken place, and to no other before it. -/
structure StopsAt (d : Device) (n f : Nat) : Prop where
  /-- The place is broken. -/
  broken : d.Breaks f
  /-- The reading comes to it. -/
  reached : d.Reaches n f
  /-- It is the first that is ahead. -/
  first : ∀ g, d.Breaks g → d.offset ≤ g → f ≤ g

/-- A reading that comes to broken places stops at one of them. -/
theorem exists_stopsAt {d : Device} {n f : Nat} (hbroken : d.Breaks f) (hreached : d.Reaches n f) :
    ∃ g, d.StopsAt n g := by
  induction f using Nat.strongRecOn with
  | ind f ih =>
    by_cases hbefore : ∃ g, d.Breaks g ∧ d.offset ≤ g ∧ g < f
    · obtain ⟨g, hg, hle, hlt⟩ := hbefore
      obtain ⟨-, hmany, hwithin⟩ := hreached
      exact ih g hlt hg ⟨hle, by omega, by omega⟩
    · refine ⟨f, hbroken, hreached, fun g hg hle => ?_⟩
      rcases Nat.lt_or_ge g f with hlt | hge
      · exact absurd ⟨g, hg, hle, hlt⟩ hbefore
      · exact hge

/-- When some of the bytes were read, the reading of the others stops at the same place. -/
theorem Behind.stopsAt_iff {d e : Device} {bytes : Bytes} (h : Behind e d bytes) {n : Nat} (hle : bytes.length ≤ n)
    (hnot : ∀ f, d.Breaks f → d.offset ≤ f → d.offset + bytes.length ≤ f) {f : Nat} :
    e.StopsAt (n - bytes.length) f ↔ d.StopsAt n f := by
  have hoffset : e.offset = d.offset + bytes.length := h.offset
  have hdata : e.data = d.data := h.data
  -- the bytes that were read lie before the end
  have hwithin : bytes.length ≤ d.data.length - d.offset := by
    have hlength := congrArg List.length h.ahead
    rw [ahead, List.length_drop, List.length_append] at hlength
    omega
  constructor
  · rintro ⟨hbroken, ⟨hahead, hmany, hend⟩, hfirst⟩
    rw [hdata] at hend
    refine ⟨(h.breaks f).mp hbroken, ⟨by omega, by omega, by omega⟩, fun g hg hge => ?_⟩
    exact hfirst g ((h.breaks g).mpr hg) (hoffset ▸ hnot g hg hge)
  · rintro ⟨hbroken, ⟨hahead, hmany, hend⟩, hfirst⟩
    have hbehind := hnot f hbroken hahead
    refine ⟨(h.breaks f).mpr hbroken, ⟨by omega, by omega, by rw [hdata]; omega⟩, fun g hg hge => ?_⟩
    exact hfirst g ((h.breaks g).mp hg) (by omega)

/-- **Reading until enough has come** either stops at a broken place, with the bytes before it, or
brings the next bytes, as many as were asked for or as there are. -/
theorem readOnto_cases (d : Device) (got : Bytes) (n : Nat) :
    ∃ bytes e, Behind e d bytes ∧
      ((∃ f, d.StopsAt n f ∧ d.readOnto got n = ⟨got.reverse ++ bytes, some .read, e⟩ ∧ e.offset = f) ∨
        (∀ f, ¬ d.StopsAt n f) ∧ d.readOnto got n = ⟨got.reverse ++ bytes, none, e⟩ ∧ bytes = d.ahead.take n) := by
  fun_induction readOnto d got n with
  | case1 d got =>
    refine ⟨[], d, Behind.refl d, Or.inr ⟨fun f h => ?_, ?_, List.take_zero.symm⟩⟩
    · obtain ⟨hle, hlt, -⟩ := h.reached
      omega
    · rw [List.append_nil]
  | case2 d got n hn e hread =>
    obtain ⟨-, e', hread', -⟩ | ⟨bytes, e', hread', hbehind, -, hnil, hhere, -⟩ := d.readSome_cases (Nat.pos_of_ne_zero hn)
    · cases (Prod.mk.inj (hread.symm.trans hread')).1
    obtain ⟨hbytes, rfl⟩ := Prod.mk.inj (hread.symm.trans hread')
    cases hbytes
    have hahead := hnil rfl
    refine ⟨[], e, hbehind, Or.inr ⟨fun f h => ?_, ?_, ?_⟩⟩
    · -- a broken place could only be reached where the device stands
      obtain ⟨hle, -, hend⟩ := h.reached
      have hlength : d.data.length ≤ d.offset := List.drop_eq_nil_iff.mp hahead
      obtain rfl : f = d.offset := by omega
      exact hhere h.broken
    · rw [List.append_nil]
    · rw [hahead, List.take_nil]
  | case3 d got n hn b bytes e hread ih =>
    obtain ⟨-, e', hread', -⟩ | ⟨some, e', hread', hbehind, hle, -, -, hnot⟩ := d.readSome_cases (Nat.pos_of_ne_zero hn)
    · cases (Prod.mk.inj (hread.symm.trans hread')).1
    obtain ⟨hbytes, rfl⟩ := Prod.mk.inj (hread.symm.trans hread')
    cases hbytes
    have hgot : ∀ more, ((b :: bytes).reverse ++ got).reverse ++ more = got.reverse ++ (b :: bytes ++ more) := by
      intro more
      rw [List.reverse_append, List.reverse_reverse, List.append_assoc]
    obtain ⟨more, e', hmore, ⟨f, hstops, honto, hoffset⟩ | ⟨hclear, honto, htake⟩⟩ := ih
    · refine ⟨b :: bytes ++ more, e', hbehind.trans hmore, Or.inl ⟨f, (hbehind.stopsAt_iff hle hnot).mp hstops, ?_, hoffset⟩⟩
      rw [honto, hgot]
    · refine ⟨b :: bytes ++ more, e', hbehind.trans hmore, Or.inr ⟨fun f h => ?_, ?_, ?_⟩⟩
      · exact hclear f ((hbehind.stopsAt_iff hle hnot).mpr h)
      · rw [honto, hgot]
      · rw [htake, hbehind.ahead, List.take_append, List.take_of_length_le hle]
  | case4 d got n hn x e hread =>
    obtain ⟨hbroken, e', hread', hbehind⟩ | ⟨bytes, e', hread', -⟩ := d.readSome_cases (Nat.pos_of_ne_zero hn)
    · obtain ⟨hfault, rfl⟩ := Prod.mk.inj (hread.symm.trans hread')
      cases hfault
      refine ⟨[], e, hbehind, Or.inl ⟨d.offset, ⟨hbroken, ⟨Nat.le_refl _, by omega, by omega⟩, fun _ _ hle => hle⟩, ?_,
        hbehind.offset⟩⟩
      rw [List.append_nil]
    · cases (Prod.mk.inj (hread.symm.trans hread')).1

/-- **Reading stops at a broken place** that it comes to, with the bytes before it. -/
theorem readFull_of_stopsAt {d : Device} {n f : Nat} (h : d.StopsAt n f) :
    ∃ e, d.readFull n = ⟨d.ahead.take (f - d.offset), some .read, e⟩ ∧ Behind e d (d.ahead.take (f - d.offset)) ∧
      e.offset = f := by
  obtain ⟨bytes, e, hbehind, ⟨g, hstops, honto, hoffset⟩ | ⟨hclear, -⟩⟩ := d.readOnto_cases [] n
  · obtain rfl : f = g := Nat.le_antisymm (h.first g hstops.broken hstops.reached.1) (hstops.first f h.broken h.reached.1)
    have hlength : bytes.length = f - d.offset := by
      have := hbehind.offset
      omega
    rw [← hlength, ← hbehind.eq_take]
    exact ⟨e, honto, hbehind, hoffset⟩
  · exact absurd h (hclear f)

/-- **Reading brings the next bytes** if it comes to no broken place. -/
theorem readFull_of_clear {d : Device} {n : Nat} (h : ∀ f, ¬ d.StopsAt n f) :
    ∃ e, d.readFull n = ⟨d.ahead.take n, none, e⟩ ∧ Behind e d (d.ahead.take n) := by
  obtain ⟨bytes, e, hbehind, ⟨f, hstops, -⟩ | ⟨-, honto, rfl⟩⟩ := d.readOnto_cases [] n
  · exact absurd hstops (h f)
  · exact ⟨e, honto, hbehind⟩

/-- **What is left of a device** when it was read until enough had come, or a read failed. -/
theorem behind_readFull (d : Device) (n : Nat) : Behind (d.readFull n).device d (d.readFull n).bytes := by
  obtain ⟨bytes, e, hbehind, ⟨f, -, honto, -⟩ | ⟨-, honto, -⟩⟩ := d.readOnto_cases [] n
  · rw [readFull, honto]
    exact hbehind
  · rw [readFull, honto]
    exact hbehind

end Ogg.Device
