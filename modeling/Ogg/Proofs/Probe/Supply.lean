import Ogg.Probe

/-!
# What a probe does with its source

A probe asks its source where it stands, may send it back to the beginning, and reads until its
budget is used. Only then it looks at the bytes. The first part, `gather`, is all that it does
with its source; the second part has no source any more.

The first part can be had from anything that answers these calls. A `Supply` is such a thing, with
a state of any kind and answers of any kind, so that it may well keep a record of the calls
(`Supply.logged`). Sources are a supply, and what a probe does with one is what `Controller.probeFrom`
does with that supply.

## Main statements

* `Supply.readFull_logged`, `Probe.gather_logged`: keeping a record changes no answer.
* `Source.readFull_supply`: reading from the supply of sources is reading from a source.
* `Probe.Controller.fill_eq_takeIn`: reading the beginning of a source is gathering and taking in.
* `Probe.Controller.probe_eq_probeFrom`: a probe of a source is one of the supply of sources.
-/

namespace Ogg

/-- A call that is made on a source. -/
inductive Call where
  /-- It is asked where it stands. -/
  | position
  /-- It is sent to an offset. -/
  | seek (offset : Nat)
  /-- It is asked for up to `n` bytes. -/
  | read (n : Nat)
  deriving DecidableEq, Repr

/-- Anything that can be read from as a source, with states `σ`. -/
structure Supply (σ : Type) where
  /-- Where the next byte stands. -/
  position : σ → Except IoError Nat × σ
  /-- Moves to an offset. -/
  seek : σ → Nat → Except IoError Unit × σ
  /-- One read of at most `n` bytes. -/
  read : σ → Nat → Except IoError Bytes × σ
  /-- The bytes read from the beginning already. -/
  sniffed : σ → Bytes
  /-- How often reads can still be interrupted. -/
  patience : σ → Nat
  /-- Reads are not interrupted forever. -/
  patience_lt : ∀ {s t : σ} {n : Nat}, read s n = (.error .interrupted, t) → patience t < patience s

namespace Supply

variable {σ : Type} (a : Supply σ)

/-- Reads until `n` more bytes have come, the input ends or a read fails; `got` holds the bytes
read before, the latest first. An interrupted read is tried again. -/
def readOnto (s : σ) (got : Bytes) (n : Nat) : Bytes × Option IoError × σ :=
  if n = 0 then (got.reverse, none, s)
  else
    match _h : a.read s n with
    | (.error .interrupted, t) => readOnto t got n
    | (.error e, t) => (got.reverse, some e, t)
    | (.ok [], t) => (got.reverse, none, t)
    | (.ok (b :: bytes), t) => readOnto t ((b :: bytes).reverse ++ got) (n - (b :: bytes).length)
termination_by (n, a.patience s)
decreasing_by
  · exact Prod.Lex.right _ (a.patience_lt _h)
  · apply Prod.Lex.left
    simp only [List.length_cons]
    omega

/-- Reads until `n` bytes have come, the input ends or a read fails: the bytes, the error if there
was one, and the state after it. -/
def readFull (s : σ) (n : Nat) : Bytes × Option IoError × σ := a.readOnto s [] n

/-- The supply that keeps a record of the calls. -/
def logged : Supply (σ × List Call) where
  position s := ((a.position s.1).1, (a.position s.1).2, s.2 ++ [.position])
  seek s offset := ((a.seek s.1 offset).1, (a.seek s.1 offset).2, s.2 ++ [.seek offset])
  read s n := ((a.read s.1 n).1, (a.read s.1 n).2, s.2 ++ [.read n])
  sniffed s := a.sniffed s.1
  patience s := a.patience s.1
  patience_lt := by
    intro s t n h
    obtain ⟨hanswer, rfl⟩ := Prod.mk.inj h
    exact a.patience_lt (Prod.ext hanswer rfl)

/-- What one read comes to decides how it goes on. -/
theorem readOnto_eq (s : σ) (got : Bytes) {n : Nat} (hn : n ≠ 0) :
    a.readOnto s got n =
      match a.read s n with
      | (.error .interrupted, t) => a.readOnto t got n
      | (.error e, t) => (got.reverse, some e, t)
      | (.ok [], t) => (got.reverse, none, t)
      | (.ok (b :: bytes), t) => a.readOnto t ((b :: bytes).reverse ++ got) (n - (b :: bytes).length) := by
  rw [readOnto, if_neg hn]
  split <;> simp_all only

/-- A call to the supply that keeps a record is answered as without one. -/
theorem readOnto_logged (s : σ) (log : List Call) (got : Bytes) (n : Nat) :
    ∃ log', a.logged.readOnto (s, log) got n =
      ((a.readOnto s got n).1, (a.readOnto s got n).2.1, (a.readOnto s got n).2.2, log') := by
  fun_induction readOnto a s got n generalizing log with
  | case1 s got =>
    refine ⟨log, ?_⟩
    rw [readOnto, if_pos rfl]
  | case2 s got n hn t hread ih =>
    have hlogged : a.logged.read (s, log) n = (.error .interrupted, t, log ++ [.read n]) := by simp only [logged, hread]
    obtain ⟨log', hrest⟩ := ih (log ++ [.read n])
    refine ⟨log', ?_⟩
    rw [readOnto_eq _ _ _ hn, hlogged]
    exact hrest
  | case3 s got n hn e t he hread =>
    have hlogged : a.logged.read (s, log) n = (.error e, t, log ++ [.read n]) := by simp only [logged, hread]
    refine ⟨log ++ [.read n], ?_⟩
    rw [readOnto_eq _ _ _ hn, hlogged]
    cases e with
    | interrupted => exact (he rfl).elim
    | _ => rfl
  | case4 s got n hn t hread =>
    have hlogged : a.logged.read (s, log) n = (.ok [], t, log ++ [.read n]) := by simp only [logged, hread]
    refine ⟨log ++ [.read n], ?_⟩
    rw [readOnto_eq _ _ _ hn, hlogged]
  | case5 s got n hn b bytes t hread ih =>
    have hlogged : a.logged.read (s, log) n = (.ok (b :: bytes), t, log ++ [.read n]) := by simp only [logged, hread]
    obtain ⟨log', hrest⟩ := ih (log ++ [.read n])
    refine ⟨log', ?_⟩
    rw [readOnto_eq _ _ _ hn, hlogged]
    exact hrest

theorem readFull_logged (s : σ) (log : List Call) (n : Nat) :
    ∃ log', a.logged.readFull (s, log) n = ((a.readFull s n).1, (a.readFull s n).2.1, (a.readFull s n).2.2, log') :=
  a.readOnto_logged s log [] n

end Supply

/-! ### The supply of sources -/

namespace Device

theorem readOnto_of_interrupted {d e : Device} {n : Nat} (hn : n ≠ 0) (got : Bytes)
    (h : d.read n = (.error .interrupted, e)) : d.readOnto got n = e.readOnto got n := by
  have hsome : d.readSome n = e.readSome n := by
    rw [readSome]
    split <;> simp_all
  rw [readOnto, readOnto, if_neg hn, if_neg hn, hsome]

theorem readSome_of_read {d e : Device} {n : Nat} {x : Except IoError Bytes} (hx : x ≠ .error .interrupted)
    (h : d.read n = (x, e)) : d.readSome n = (x, e) := by
  rw [readSome]
  split
  · next heq =>
    rw [h] at heq
    exact absurd (Prod.mk.inj heq).1 hx
  · exact h

/-- Reading on loses nothing that came before. -/
theorem length_le_readOnto (d : Device) (got : Bytes) (n : Nat) : got.length ≤ (d.readOnto got n).bytes.length := by
  fun_induction readOnto d got n with
  | case1 => exact Nat.le_of_eq List.length_reverse.symm
  | case2 => exact Nat.le_of_eq List.length_reverse.symm
  | case3 d got n hn b bytes e hread ih =>
    rw [List.length_append] at ih
    omega
  | case4 => exact Nat.le_of_eq List.length_reverse.symm

end Device

namespace Source

theorem advance_zero (s : Source) : s.advance s.device 0 = s := by
  cases s <;> rfl

theorem advance_advance (s : Source) (d e : Device) (m n : Nat) :
    (s.advance d m).advance e n = s.advance e (m + n) := by
  cases s with
  | seekable => rfl
  | pipe device taken sniffed => simp only [advance, Nat.add_assoc]

/-- Sources, as a supply. One that cannot be moved stays as it is. -/
def supply : Supply Source where
  position s := (s.position, s)
  seek s offset :=
    match s.seek offset with
    | .ok t => (.ok (), t)
    | .error e => (.error e, s)
  read s n := s.read n
  sniffed s := s.sniffed
  patience s := s.device.faults.length
  patience_lt := by
    intro s t n h
    simp only [read] at h
    split at h
    · cases (Prod.mk.inj h).1
    · next e d hread =>
      obtain ⟨herror, rfl⟩ := Prod.mk.inj h
      cases herror
      rw [device_advance]
      exact Device.length_faults_of_interrupted hread

/-- A read from a source is a read from its device. -/
theorem read_ok {s t : Source} {n : Nat} {bytes : Bytes} (h : s.read n = (.ok bytes, t)) :
    ∃ d, s.device.read n = (.ok bytes, d) ∧ t = s.advance d bytes.length := by
  simp only [read] at h
  split at h
  · next bytes' d hread =>
    obtain ⟨hbytes, rfl⟩ := Prod.mk.inj h
    cases hbytes
    exact ⟨d, hread, rfl⟩
  · cases (Prod.mk.inj h).1

theorem read_error {s t : Source} {n : Nat} {e : IoError} (h : s.read n = (.error e, t)) :
    ∃ d, s.device.read n = (.error e, d) ∧ t = s.advance d 0 := by
  simp only [read] at h
  split at h
  · cases (Prod.mk.inj h).1
  · next e' d hread =>
    obtain ⟨herror, rfl⟩ := Prod.mk.inj h
    cases herror
    exact ⟨d, hread, rfl⟩

theorem readOnto_supply (s : Source) (got : Bytes) (n : Nat) :
    supply.readOnto s got n = ((s.device.readOnto got n).bytes, (s.device.readOnto got n).fault,
      s.advance (s.device.readOnto got n).device ((s.device.readOnto got n).bytes.length - got.length)) := by
  fun_induction Supply.readOnto supply s got n with
  | case1 s got =>
    rw [Device.readOnto, if_pos rfl]
    simp only [List.length_reverse, Nat.sub_self, advance_zero]
  | case2 s got n hn t hread ih =>
    obtain ⟨d, hdevice, rfl⟩ := read_error hread
    rw [ih, device_advance, Device.readOnto_of_interrupted hn got hdevice, advance_advance, Nat.zero_add]
  | case3 s got n hn e t he hread =>
    obtain ⟨d, hdevice, rfl⟩ := read_error hread
    have hsome := Device.readSome_of_read (fun h => he (Except.error.inj h)) hdevice
    rw [Device.readOnto, if_neg hn, hsome]
    simp only [List.length_reverse, Nat.sub_self]
  | case4 s got n hn t hread =>
    obtain ⟨d, hdevice, rfl⟩ := read_ok hread
    have hsome := Device.readSome_of_read (fun h => by cases h) hdevice
    rw [Device.readOnto, if_neg hn, hsome]
    simp only [List.length_reverse, Nat.sub_self, List.length_nil]
  | case5 s got n hn b bytes t hread ih =>
    obtain ⟨d, hdevice, rfl⟩ := read_ok hread
    have hsome := Device.readSome_of_read (fun h => by cases h) hdevice
    have hstep : s.device.readOnto got n =
        d.readOnto ((b :: bytes).reverse ++ got) (n - (b :: bytes).length) := by
      rw [Device.readOnto, if_neg hn, hsome]
    have hle := d.length_le_readOnto ((b :: bytes).reverse ++ got) (n - (b :: bytes).length)
    rw [ih, hstep, device_advance, advance_advance]
    rw [List.length_append, List.length_reverse] at hle ⊢
    congr 3
    omega

/-- **Reading from the supply of sources is reading from a source.** -/
theorem readFull_supply (s : Source) (n : Nat) : supply.readFull s n = s.readFull n := by
  rw [Supply.readFull, readOnto_supply, readFull, Device.readFull]
  rfl

end Source

namespace Probe

/-! ### Gathering and taking in -/

/-- What a probe has got from its source. -/
inductive Intake where
  /-- The source cannot say where it stands. -/
  | lost (cause : IoError)
  /-- The source stood somewhere, and cannot go back to the beginning. -/
  | stuck (origin : Nat) (cause : IoError)
  /-- The source stood right behind the bytes read before, and others were read from there on. -/
  | reused (origin : Nat) (sniffed bytes : Bytes) (fault : Option IoError)
  /-- The source stood somewhere and went back, and bytes were read from the beginning. -/
  | read (origin : Nat) (bytes : Bytes) (fault : Option IoError)
  deriving DecidableEq, Repr

/-- Whether bytes read before can be used, by a source that stands somewhere. -/
def usable (config : Config) (sniffed : Bytes) (position : Nat) : Bool :=
  config.reuseSniffed && !sniffed.isEmpty && position == sniffed.length

section Gather

variable {σ : Type} (a : Supply σ)

/-- All that a probe does with its source, when `held` bytes wait already. -/
def gather (config : Config) (held : Nat) (s : σ) : Intake × σ :=
  match a.position s with
  | (.error e, s) => (.lost e, s)
  | (.ok position, s) =>
    if usable config (a.sniffed s) position then
      let got := a.readFull s (config.effectiveBudget - (held + (a.sniffed s).length))
      (.reused position (a.sniffed s) got.1 got.2.1, got.2.2)
    else
      match a.seek s 0 with
      | (.error e, s) => (.stuck position e, s)
      | (.ok _, s) =>
        let got := a.readFull s (config.effectiveBudget - held)
        (.read position got.1 got.2.1, got.2.2)

/-- **Keeping a record changes nothing of what is gathered.** -/
theorem gather_logged (config : Config) (held : Nat) (s : σ) (log : List Call) :
    ∃ log', gather a.logged config held (s, log) =
      ((gather a config held s).1, (gather a config held s).2, log') := by
  rcases hposition : a.position s with ⟨e | p, t⟩
  · have hlogged : a.logged.position (s, log) = (.error e, t, log ++ [.position]) := by
      simp only [Supply.logged, hposition]
    refine ⟨log ++ [.position], ?_⟩
    rw [gather, gather, hposition, hlogged]
  · have hlogged : a.logged.position (s, log) = (.ok p, t, log ++ [.position]) := by
      simp only [Supply.logged, hposition]
    have hsniffed : a.logged.sniffed (t, log ++ [.position]) = a.sniffed t := rfl
    simp only [gather, hposition, hlogged, hsniffed]
    split
    · obtain ⟨log', hread⟩ := a.readFull_logged t (log ++ [.position])
        (config.effectiveBudget - (held + (a.sniffed t).length))
      rw [hread]
      exact ⟨log', rfl⟩
    · rcases hseek : a.seek t 0 with ⟨e | _, u⟩
      · have hlogged' : a.logged.seek (t, log ++ [.position]) 0 = (.error e, u, log ++ [.position] ++ [.seek 0]) := by
          simp only [Supply.logged, hseek]
        rw [hlogged']
        exact ⟨_, rfl⟩
      · have hlogged' : a.logged.seek (t, log ++ [.position]) 0 = (.ok (), u, log ++ [.position] ++ [.seek 0]) := by
          simp only [Supply.logged, hseek]
        obtain ⟨log', hread⟩ := a.readFull_logged u (log ++ [.position] ++ [.seek 0]) (config.effectiveBudget - held)
        simp only [hlogged', hread]
        exact ⟨log', rfl⟩

end Gather

namespace Controller

/-- What becomes of bytes that were read into the room made for as many as the budget allows. -/
def absorb (c : Controller) (bytes : Bytes) : Option IoError → Except Failure Bool × Controller
  | some fault =>
    let wanted := c.config.effectiveBudget - c.framer.live.length
    (.error (.io fault), { c with framer.buffer := (c.framer.buffer.reserve wanted).fill bytes })
  | none =>
    let wanted := c.config.effectiveBudget - c.framer.live.length
    let framer := (c.framer.reserve wanted).receive bytes
    let short := decide (framer.live.length < c.config.effectiveBudget)
    (.ok short, { c with framer := if short then framer.finish else framer, phase := .buffering })

/-- Takes in what was gathered. -/
def takeIn (c : Controller) : Intake → Except Failure Bool × Controller
  | .lost e => (.error (.io e), c)
  | .stuck origin e => (.error (.notSeekable e), { c with origin, phase := .notSeekable })
  | .reused origin sniffed bytes fault => absorb { c with origin, framer := c.framer.append sniffed } bytes fault
  | .read origin bytes fault => absorb { c with origin } bytes fault

/-- Probes a supply. -/
def probeFrom {σ : Type} (a : Supply σ) (c : Controller) (s : σ) : Except Failure (Option Probed) × Controller × σ :=
  let gathered := gather a c.config 0 s
  match c.reset.takeIn gathered.1 with
  | (.error e, c) => (.error e, c, gathered.2)
  | (.ok short, c) => ((c.conclude short).1, (c.conclude short).2, gathered.2)

theorem topUp_eq_absorb (c : Controller) (s : Source) :
    c.topUp s =
      (let got := s.readFull (c.config.effectiveBudget - c.framer.live.length)
       ((c.absorb got.1 got.2.1).1, (c.absorb got.1 got.2.1).2, got.2.2)) := by
  rw [topUp]
  rcases s.readFull (c.config.effectiveBudget - c.framer.live.length) with ⟨bytes, _ | fault, t⟩ <;> rfl

/-- **Reading the beginning of a source is gathering and taking in.** -/
theorem fill_eq_takeIn (c : Controller) (s : Source) :
    c.fill s =
      (let gathered := gather Source.supply c.config c.framer.live.length s
       ((c.takeIn gathered.1).1, (c.takeIn gathered.1).2, gathered.2)) := by
  have hposition : Source.supply.position s = (s.position, s) := rfl
  have hsniffed : Source.supply.sniffed s = s.sniffed := rfl
  cases hp : s.position with
  | error e =>
    simp only [fill, gather, hposition, hp]
    rfl
  | ok p =>
    simp only [fill, gather, hposition, hp, hsniffed, Source.readFull_supply]
    have husable : Controller.reuses { c with origin := p } s p = usable c.config s.sniffed p := rfl
    rw [husable]
    cases usable c.config s.sniffed p with
    | true =>
      rw [if_pos rfl, if_pos rfl, topUp_eq_absorb]
      simp only [Framer.live_append, List.length_append]
      rfl
    | false =>
      rw [if_neg Bool.false_ne_true, if_neg Bool.false_ne_true]
      cases hseek : s.seek 0 with
      | error e =>
        have hsupply : Source.supply.seek s 0 = (.error e, s) := by simp only [Source.supply, hseek]
        simp only [hsupply]
        rfl
      | ok t =>
        have hsupply : Source.supply.seek s 0 = (.ok (), t) := by simp only [Source.supply, hseek]
        simp only [hsupply, topUp_eq_absorb]
        rfl

/-- **A probe of a source is one of the supply of sources.** -/
theorem probe_eq_probeFrom (c : Controller) (s : Source) : c.probe s = probeFrom Source.supply c s := by
  have hheld : c.reset.framer.live.length = 0 := rfl
  have hconfig : c.reset.config = c.config := rfl
  rw [probe, fill_eq_takeIn, probeFrom, hheld, hconfig]
  simp only
  rcases c.reset.takeIn (gather Source.supply c.config 0 s).1 with ⟨e | short, c'⟩
  · rfl
  · rfl

/-- **Keeping a record changes nothing of a probe.** -/
theorem probeFrom_logged {σ : Type} (a : Supply σ) (c : Controller) (s : σ) (log : List Call) :
    ∃ log', probeFrom a.logged c (s, log) =
      ((probeFrom a c s).1, (probeFrom a c s).2.1, (probeFrom a c s).2.2, log') := by
  obtain ⟨log', hgather⟩ := gather_logged a c.config 0 s log
  refine ⟨log', ?_⟩
  rw [probeFrom, hgather, probeFrom]
  simp only
  rcases c.reset.takeIn (gather a c.config 0 s).1 with ⟨e | short, c'⟩
  · rfl
  · rfl

theorem probeFrom_of_logged {σ : Type} {a : Supply σ} {c c' : Controller} {s t : σ}
    {outcome : Except Failure (Option Probed)} {calls : List Call}
    (h : probeFrom a.logged c (s, []) = (outcome, c', t, calls)) : probeFrom a c s = (outcome, c', t) := by
  obtain ⟨log, hlogged⟩ := probeFrom_logged a c s []
  rw [h] at hlogged
  obtain ⟨houtcome, hrest⟩ := Prod.mk.inj hlogged
  obtain ⟨hcontroller, hstate⟩ := Prod.mk.inj hrest
  rw [houtcome, hcontroller, (Prod.mk.inj hstate).1]

end Controller

end Probe

end Ogg
