import Ogg.Proofs.Reading.Taken

/-!
# Sources that stand at the same place

Two devices with the same bytes and the same broken places give the same when they are read from the
same place, as much as is asked for: how many bytes a single read gives, and how often it is
interrupted, does not show in that (`Device.Twin.readFull`). So two sources over such devices answer
all requests alike but single reads, and stay so; and single reads too, if no read is interrupted and
none is cut more than another (`Source.Twin.serveAll`). However they are cut, single reads give the
bytes that are ahead, as all reads do (`Source.after_serveAll`).

Reading and moving about leave the bytes and the broken places as they are (`Device.Kin`), so a
source that is moved back to where it was stands at the same place (`Source.Moved.seek_back`). A pipe
can be moved back exactly if it was not moved.

## Main statements

* `Source.Twin.serveAll`: sources at the same place give the same.
* `Source.Moved.seek_back`: a source that is moved back is at the same place.
* `Source.Moved.pipe_stuck_iff`: which pipes cannot be moved back.
-/

namespace Ogg

namespace Device

/-! ### Devices at the same place -/

/-- Reads are not interrupted, and none is cut more than another. -/
structure Uniform (d : Device) : Prop where
  /-- All faults are broken places. -/
  broken : ∀ f ∈ d.faults, f.kind = .broken
  /-- The pace is one. -/
  pace : ∀ m n, d.pace m = d.pace n

/-- Two devices with the same bytes and the same broken places that stand at the same place. If `same`
holds, single reads are alike, too. -/
structure Twin (same : Prop) (e d : Device) : Prop where
  /-- The bytes. -/
  data : e.data = d.data
  /-- The broken places. -/
  breaks : ∀ f, e.Breaks f ↔ d.Breaks f
  /-- Both can move, or none. -/
  seekable : e.seekable = d.seekable
  /-- Both can say their offset, or none. -/
  tellable : e.tellable = d.tellable
  /-- The pace. -/
  pace : e.pace = d.pace
  /-- The place. -/
  offset : e.offset = d.offset
  /-- All faults. -/
  faults : same → e.faults = d.faults
  /-- Reads are neither interrupted nor cut in different ways. -/
  uniform : same → d.Uniform

/-- A device that stands where it stood is a twin of what it was. -/
theorem Kin.twin {d e : Device} (h : Kin e d) (hoffset : e.offset = d.offset) : Twin d.Uniform e d :=
  ⟨h.data, h.breaks, h.seekable, h.tellable, h.pace, hoffset, fun hd => h.kept hd.broken, id⟩

namespace Twin

variable {same : Prop} {d e : Device}

theorem ahead (h : Twin same e d) : e.ahead = d.ahead := by
  rw [Device.ahead, h.data, h.offset, Device.ahead]

/-- Both were moved to one place. -/
theorem moved (h : Twin same e d) (offset : Nat) : Twin same { e with offset } { d with offset } :=
  ⟨h.data, h.breaks, h.seekable, h.tellable, h.pace, rfl, h.faults, fun hs => ⟨(h.uniform hs).broken, (h.uniform hs).pace⟩⟩

/-- The same was read from both. -/
theorem behind (h : Twin same e d) {e' d' : Device} {bytes : Bytes} (he : Behind e' e bytes) (hd : Behind d' d bytes) :
    Twin same e' d' where
  data := he.data.trans (h.data.trans hd.data.symm)
  breaks f := (he.breaks f).trans ((h.breaks f).trans (hd.breaks f).symm)
  seekable := he.seekable.trans (h.seekable.trans hd.seekable.symm)
  tellable := he.tellable.trans (h.tellable.trans hd.tellable.symm)
  pace := he.pace.trans (h.pace.trans hd.pace.symm)
  offset := by rw [he.offset, hd.offset, h.offset]
  faults hs := by
    have hbroken := (h.uniform hs).broken
    rw [hd.kept hbroken, he.kept (h.faults hs ▸ hbroken), h.faults hs]
  uniform hs := ⟨fun f hf => (h.uniform hs).broken f (hd.faults f hf), fun m n => by rw [hd.pace, (h.uniform hs).pace m n]⟩

/-- A reading of both comes to the same broken places. -/
theorem stopsAt_iff (h : Twin same e d) {n f : Nat} : e.StopsAt n f ↔ d.StopsAt n f := by
  have hreaches : e.Reaches n f ↔ d.Reaches n f := by rw [Reaches, h.offset, h.data, Reaches]
  constructor
  · rintro ⟨hbroken, hreached, hfirst⟩
    exact ⟨(h.breaks f).mp hbroken, hreaches.mp hreached,
      fun g hg hle => hfirst g ((h.breaks g).mpr hg) (h.offset.symm ▸ hle)⟩
  · rintro ⟨hbroken, hreached, hfirst⟩
    exact ⟨(h.breaks f).mpr hbroken, hreaches.mpr hreached,
      fun g hg hle => hfirst g ((h.breaks g).mp hg) (h.offset ▸ hle)⟩

/-- **Reading until enough has come gives the same from the same place**, and ends at the same
place. -/
theorem readFull (h : Twin same e d) (n : Nat) :
    ∃ bytes fault e' d', e.readFull n = ⟨bytes, fault, e'⟩ ∧ d.readFull n = ⟨bytes, fault, d'⟩ ∧ Twin same e' d' := by
  -- where a reading stops depends on the broken places, and on no single read
  by_cases hstops : ∃ f, d.StopsAt n f
  · obtain ⟨f, hstops⟩ := hstops
    obtain ⟨d', hread, hbehind, -⟩ := readFull_of_stopsAt hstops
    obtain ⟨e', hread', hbehind', -⟩ := readFull_of_stopsAt (h.stopsAt_iff.mpr hstops)
    rw [h.ahead, h.offset] at hread' hbehind'
    exact ⟨_, _, e', d', hread', hread, h.behind hbehind' hbehind⟩
  · have hclear : ∀ f, ¬ d.StopsAt n f := fun f hf => hstops ⟨f, hf⟩
    obtain ⟨d', hread, hbehind⟩ := readFull_of_clear hclear
    obtain ⟨e', hread', hbehind'⟩ := readFull_of_clear fun f hf => hclear f (h.stopsAt_iff.mp hf)
    rw [h.ahead] at hread' hbehind'
    exact ⟨_, _, e', d', hread', hread, h.behind hbehind' hbehind⟩

/-- **A single read gives the same**, where single reads are alike. -/
theorem read (h : Twin same e d) (hs : same) (n : Nat) :
    ∃ answer e' d', e.read n = (answer, e') ∧ d.read n = (answer, d') ∧ Twin same e' d' := by
  have hlimit : e.readLimit n = d.readLimit n := by
    rw [readLimit, h.faults hs, h.offset, h.pace, (h.uniform hs).pace e.reads d.reads, readLimit]
  have hanswer : (e.read n).1 = (d.read n).1 := by
    rw [Device.read, Device.read, h.faults hs, h.offset, h.ahead, hlimit]
    split
    · rfl
    · split
      · rfl
      · rfl
      · rfl
  rcases hread : d.read n with ⟨x | bytes, d'⟩
  · rcases hread' : e.read n with ⟨y | _, e'⟩
    · rw [hread, hread'] at hanswer
      obtain rfl : y = x := Except.error.inj hanswer
      exact ⟨_, e', d', rfl, rfl, h.behind (behind_of_read_error hread') (behind_of_read_error hread)⟩
    · rw [hread, hread'] at hanswer
      cases hanswer
  · rcases hread' : e.read n with ⟨_ | bytes', e'⟩
    · rw [hread, hread'] at hanswer
      cases hanswer
    · rw [hread, hread'] at hanswer
      obtain rfl : bytes' = bytes := Except.ok.inj hanswer
      exact ⟨_, e', d', rfl, rfl, h.behind (behind_of_read_ok hread').1 (behind_of_read_ok hread).1⟩

end Twin

end Device

namespace Source

/-! ### Sources at the same place -/

/-- Two sources of one kind that carry the same bytes and stand at the same place. If `same` holds,
single reads are alike, too. -/
inductive Twin (same : Prop) : Source → Source → Prop where
  /-- Both can be moved about. -/
  | seekable {e d : Device} (h : e.Twin same d) (sniffed : Bytes) :
    Twin same (.seekable e sniffed) (.seekable d sniffed)
  /-- Both only go forward, and have counted the same. -/
  | pipe {e d : Device} (h : e.Twin same d) (taken : Nat) (sniffed : Bytes) :
    Twin same (.pipe e taken sniffed) (.pipe d taken sniffed)

namespace Twin

variable {same : Prop} {s u : Source}

theorem device (h : Twin same u s) : u.device.Twin same s.device := by
  cases h with
  | seekable h => exact h
  | pipe h => exact h

theorem sniffed (h : Twin same u s) : u.sniffed = s.sniffed := by
  cases h with
  | seekable h => rfl
  | pipe h => rfl

theorem position (h : Twin same u s) : u.position = s.position := by
  cases h with
  | seekable h => simp only [Source.position, Device.tell, h.tellable, h.offset]
  | pipe h => rfl

theorem advance (h : Twin same u s) {e d : Device} (h' : e.Twin same d) (n : Nat) :
    Twin same (u.advance e n) (s.advance d n) := by
  cases h with
  | seekable h sniffed => exact .seekable h' sniffed
  | pipe h taken sniffed => exact .pipe h' (taken + n) sniffed

/-- Sources at the same place are moved to another, or both stay. -/
theorem seek (h : Twin same u s) (offset : Nat) :
    (∃ u' s', u.seek offset = .ok u' ∧ s.seek offset = .ok s' ∧ Twin same u' s') ∨
      ∃ e, u.seek offset = .error e ∧ s.seek offset = .error e := by
  cases h with
  | @seekable e d h sniffed =>
    have hable := h.seekable
    cases hd : d.seekable with
    | true =>
      rw [hd] at hable
      refine Or.inl ⟨_, _, ?_, ?_, .seekable (h.moved offset) sniffed⟩
      · rw [Source.seek, Device.seek, if_pos hable]
        rfl
      · rw [Source.seek, Device.seek, if_pos hd]
        rfl
    | false =>
      rw [hd] at hable
      refine Or.inr ⟨.seek, ?_, ?_⟩
      · rw [Source.seek, Device.seek, hable]
        rfl
      · rw [Source.seek, Device.seek, hd]
        rfl
  | pipe h taken sniffed =>
    by_cases hhere : offset = taken
    · exact Or.inl ⟨_, _, if_pos hhere, if_pos hhere, .pipe h taken sniffed⟩
    · exact Or.inr ⟨_, if_neg hhere, if_neg hhere⟩

/-- **Sources at the same place answer alike**, but for single reads if these are not alike, and come
to the same place. -/
theorem serve (h : Twin same u s) {r : Request} (hr : same ∨ ∀ n, r ≠ .read n) :
    ∃ bytes error u' s', u.serve r = (bytes, error, u') ∧ s.serve r = (bytes, error, s') ∧ Twin same u' s' := by
  cases r with
  | read n =>
    have hs : same := hr.resolve_right fun hno => hno n rfl
    obtain ⟨answer, e', d', hread, hread', htwin⟩ := h.device.read hs n
    simp only [Source.serve, Source.read, hread, hread']
    cases answer with
    | error x => exact ⟨_, _, _, _, rfl, rfl, h.advance htwin 0⟩
    | ok bytes => exact ⟨_, _, _, _, rfl, rfl, h.advance htwin bytes.length⟩
  | readFull n =>
    obtain ⟨bytes, fault, e', d', hread, hread', htwin⟩ := h.device.readFull n
    simp only [Source.serve, Source.readFull, hread, hread']
    exact ⟨_, _, _, _, rfl, rfl, h.advance htwin bytes.length⟩
  | seek offset =>
    obtain ⟨u', s', hu, hs, htwin⟩ | ⟨e, hu, hs⟩ := h.seek offset
    · simp only [Source.serve, hu, hs]
      exact ⟨_, _, _, _, rfl, rfl, htwin⟩
    · simp only [Source.serve, hu, hs]
      exact ⟨_, _, _, _, rfl, rfl, h⟩

/-- **Sources at the same place answer alike**, whatever they are asked for, but for single reads if
these are not alike. -/
theorem serveAll (h : Twin same u s) {requests : List Request} (hr : same ∨ ∀ n, .read n ∉ requests) :
    (u.serveAll requests).1 = (s.serveAll requests).1 := by
  induction requests generalizing u s with
  | nil => rfl
  | cons r requests ih =>
    have hfirst : same ∨ ∀ n, r ≠ .read n := hr.imp_right fun hno n heq => hno n (heq ▸ List.mem_cons_self)
    have hothers : same ∨ ∀ n, .read n ∉ requests := hr.imp_right fun hno n hmem => hno n (List.mem_cons_of_mem r hmem)
    obtain ⟨bytes, error, u', s', hu, hs, htwin⟩ := h.serve hfirst
    simp only [Source.serveAll, hu, hs]
    rw [ih htwin hothers]

end Twin

/-! ### Sources that were moved -/

/-- What becomes of a source that is read and moved about; a pipe that has read `n` bytes counts
them. -/
inductive Moved : Source → Source → Prop where
  /-- It can be moved about. -/
  | seekable {e d : Device} (h : e.Kin d) (sniffed : Bytes) : Moved (.seekable e sniffed) (.seekable d sniffed)
  /-- It only goes forward. -/
  | pipe {e d : Device} (h : e.Kin d) {n : Nat} (hoffset : e.offset = d.offset + n) (taken : Nat) (sniffed : Bytes) :
    Moved (.pipe e (taken + n) sniffed) (.pipe d taken sniffed)

theorem Moved.refl (s : Source) : Moved s s := by
  cases s with
  | seekable d sniffed => exact .seekable (Device.Kin.refl d) sniffed
  | pipe d taken sniffed => exact .pipe (n := 0) (Device.Kin.refl d) rfl taken sniffed

namespace Moved

variable {s t u : Source}

theorem seek (h : Moved t s) {offset : Nat} (hseek : t.seek offset = .ok u) : Moved u s := by
  cases h with
  | @seekable e d h sniffed =>
    rw [Source.seek, Device.seek] at hseek
    split at hseek
    · cases hseek
      have hmoved := h.moved offset
      exact .seekable hmoved sniffed
    · cases hseek
  | pipe h hoffset taken sniffed =>
    rw [Source.seek] at hseek
    split at hseek
    · cases hseek
      exact .pipe h hoffset taken sniffed
    · cases hseek

theorem readFull (h : Moved t s) (n : Nat) : Moved (t.readFull n).2.2 s := by
  cases h with
  | @seekable e d h sniffed => exact .seekable (h.trans (e.behind_readFull n).toKin) sniffed
  | @pipe e d h m hoffset taken sniffed =>
    have hbehind := e.behind_readFull n
    have hread : Moved (.pipe (e.readFull n).device (taken + (m + (e.readFull n).bytes.length)) sniffed)
        (.pipe d taken sniffed) := by
      refine .pipe (h.trans hbehind.toKin) ?_ taken sniffed
      rw [hbehind.offset, hoffset, Nat.add_assoc]
    rwa [← Nat.add_assoc] at hread

/-- **A source that is moved back to where it was is at the same place**, if it can be moved. -/
theorem seek_back (h : Moved t s) {p : Nat} (hp : s.position = .ok p) (hseek : t.seek p = .ok u) :
    Twin s.device.Uniform u s := by
  cases h with
  | @seekable e d h sniffed =>
    have hoffset : d.offset = p := by
      rw [position, Device.tell] at hp
      split at hp
      · exact Except.ok.inj hp
      · cases hp
    rw [Source.seek, Device.seek] at hseek
    split at hseek
    · cases hseek
      have htwin := (h.moved p).twin hoffset.symm
      exact .seekable htwin sniffed
    · cases hseek
  | @pipe e d h n hoffset taken sniffed =>
    obtain rfl : taken = p := Except.ok.inj hp
    rw [Source.seek] at hseek
    split at hseek
    · next hhere =>
      cases hseek
      -- it stands where it stood, so nothing was read
      obtain rfl : n = 0 := by omega
      exact .pipe (h.twin hoffset) taken sniffed
    · cases hseek

/-- **A pipe cannot be moved back exactly if it was moved.** -/
theorem pipe_stuck_iff {d : Device} {taken : Nat} {sniffed : Bytes} (h : Moved t (.pipe d taken sniffed)) :
    (∃ e, t.seek taken = .error e) ↔ t.position ≠ .ok taken := by
  cases h with
  | @pipe e d h n hoffset taken sniffed =>
    rw [Source.seek, position]
    by_cases hhere : taken = taken + n
    · rw [if_pos hhere, ← hhere]
      simp
    · rw [if_neg hhere]
      simp only [Except.error.injEq, exists_eq', ne_eq, Except.ok.injEq, true_iff]
      exact Ne.symm hhere

end Moved

/-! ### Reading on -/

/-- **What is read from a source are the bytes ahead of it**, whichever way it is read. -/
theorem after_serveAll (s : Source) {requests : List Request} (hr : ∀ offset, .seek offset ∉ requests) :
    (s.serveAll requests).2.device.After s.device ((s.serveAll requests).1.flatMap Prod.fst) := by
  induction requests generalizing s with
  | nil => exact Device.After.refl s.device
  | cons r requests ih =>
    obtain ⟨e, hadvance, hfirst⟩ := s.exists_advance_serve fun offset heq => hr offset (heq ▸ List.mem_cons_self)
    have hrest := ih (s.serve r).2.2 fun offset hmem => hr offset (List.mem_cons_of_mem r hmem)
    rw [hadvance, device_advance] at hrest
    have hboth := hfirst.trans hrest
    rwa [← hadvance] at hboth

end Source

end Ogg
