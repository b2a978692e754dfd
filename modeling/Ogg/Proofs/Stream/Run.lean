import Ogg.Proofs.Stream.Fragments

/-!
# Runs of segments

What the packets of a logical stream are can be said without following it page by page.
A run begins with a segment at which a packet can begin, goes on through segments with
lacing value 255 and from a page only to the page that continues it, and ends with the
first other segment or with the page that ends the stream. `IsRun` says so; `runs` looks
for a run at each segment, and computes them all in order.

Nothing here knows of open packets or of what was seen before.

## Main statements

* `follow_of_runsOn`, `runsOn_of_follow`: looking ahead finds the end of a run if there is one.
* `mem_runs_iff`: `runs` computes the runs.
* `pairwise_runs`: in the order in which they begin.
-/

namespace Ogg

/-- A segment of a page. -/
structure Segment where
  /-- Its lacing value. -/
  lacing : UInt8
  /-- Its bytes. -/
  data : Bytes
  deriving DecidableEq, Repr

/-- The packet ends with the segment. -/
def Segment.ends (s : Segment) : Bool := s.lacing < continueLacing

/-- The segments that lacing values cut a body into. -/
def segments : Bytes → Bytes → List Segment
  | [], _ => []
  | lacing :: rest, body => ⟨lacing, body.take lacing.toNat⟩ :: segments rest (body.drop lacing.toNat)

namespace Page

/-- The segments of a page. -/
def segments (p : Page) : List Segment := Ogg.segments p.header.lacing p.body

/-- A page goes on with the packet that a page before it leaves open: it says so, and
its number is the next one. -/
def resumes (next page : Page) : Bool := next.continued && next.sequence == page.sequence + 1

/-- A packet can begin behind the given segments of a page: behind a segment that ends
one, or at the beginning of a page that continues none. -/
def opensBehind (p : Page) (passed : List Segment) : Bool :=
  match passed.getLast? with
  | none => !p.continued
  | some s => s.ends

end Page

/-- Segments of a page, the one at place `i` of some pages, and of the pages after it run
on as one packet: its bytes from there on, and the place of the page on which it ends. -/
inductive RunsOn : Nat → Page → List Segment → List Page → Bytes → Nat → Prop where
  /-- The packet ends with the first lacing value below 255. -/
  | ends {i : Nat} {page : Page} {s : Segment} {rest : List Segment} {later : List Page} (h : s.ends = true) :
      RunsOn i page (s :: rest) later s.data i
  /-- It goes on in the next segment. -/
  | goesOn {i last : Nat} {page : Page} {s : Segment} {rest : List Segment} {later : List Page} {data : Bytes}
      (h : s.ends = false) :
      RunsOn i page rest later data last → RunsOn i page (s :: rest) later (s.data ++ data) last
  /-- It goes on in the next page, if that page resumes it. -/
  | crosses {i last : Nat} {page next : Page} {later : List Page} {data : Bytes} (h : page.eos = false)
      (h' : next.resumes page = true) :
      RunsOn (i + 1) next next.segments later data last → RunsOn i page [] (next :: later) data last
  /-- It is cut at the end of the page that ends the stream. -/
  | cut {i : Nat} {page : Page} {later : List Page} (h : page.eos = true) : RunsOn i page [] later [] i

/-- A run of segments. -/
structure Run where
  /-- The place of the page on which it begins. -/
  page : Nat
  /-- The place of its first segment on that page. -/
  segment : Nat
  /-- The place of the page on which it ends. -/
  last : Nat
  /-- The bytes of its segments. -/
  data : Bytes
  deriving DecidableEq, Repr

/-- One run begins before another. -/
def Run.Before (r r' : Run) : Prop := r.page < r'.page ∨ r.page = r'.page ∧ r.segment < r'.segment

/-- A run of some pages: it begins with a segment of one of them at which a packet can
begin, and runs on to an end. -/
inductive IsRun : List Page → Run → Prop where
  /-- The run of the segments behind those passed, on the page behind those before. -/
  | intro {before later : List Page} {page : Page} {passed rest : List Segment} {data : Bytes} {last : Nat}
      (segments : page.segments = passed ++ rest) (nonempty : rest ≠ []) (opens : page.opensBehind passed = true)
      (run : RunsOn before.length page rest later data last) :
      IsRun (before ++ page :: later) ⟨before.length, passed.length, last, data⟩

/-! ### Looking ahead -/

/-- What segments run on to, as `RunsOn` says: the place of the page on which the packet
ends, and its bytes. -/
def follow (i : Nat) (page : Page) (later : List Page) : List Segment → Option (Nat × Bytes)
  | [] =>
    if page.eos then some (i, [])
    else
      match later with
      | [] => none
      | next :: later => if next.resumes page then follow (i + 1) next later next.segments else none
  | s :: rest => if s.ends then some (i, s.data) else (follow i page later rest).map fun e => (e.1, s.data ++ e.2)
termination_by segs => (later.length, segs.length)

theorem follow_nil_of_eos {page : Page} (h : page.eos = true) (i : Nat) (later : List Page) :
    follow i page later [] = some (i, []) := by
  rw [follow.eq_def]
  exact if_pos h

theorem follow_nil_nil {page : Page} (h : page.eos = false) (i : Nat) : follow i page [] [] = none := by
  rw [follow.eq_def]
  simp [h]

theorem follow_nil_cons {page : Page} (h : page.eos = false) (i : Nat) (next : Page) (later : List Page) :
    follow i page (next :: later) [] =
      if next.resumes page then follow (i + 1) next later next.segments else none := by
  rw [follow.eq_def]
  simp [h]

theorem follow_of_ends {s : Segment} (h : s.ends = true) (i : Nat) (page : Page) (later : List Page)
    (rest : List Segment) : follow i page later (s :: rest) = some (i, s.data) := by
  rw [follow, if_pos h]

theorem follow_of_goesOn {s : Segment} (h : s.ends = false) (i : Nat) (page : Page) (later : List Page)
    (rest : List Segment) :
    follow i page later (s :: rest) = (follow i page later rest).map fun e => (e.1, s.data ++ e.2) := by
  rw [follow, if_neg (by simp [h])]

theorem follow_of_runsOn {i last : Nat} {page : Page} {segs : List Segment} {later : List Page} {data : Bytes}
    (h : RunsOn i page segs later data last) : follow i page later segs = some (last, data) := by
  induction h with
  | ends hs => exact follow_of_ends hs _ _ _ _
  | goesOn hs _ ih => rw [follow_of_goesOn hs, ih, Option.map_some]
  | crosses heos hnext _ ih => rw [follow_nil_cons heos, if_pos hnext, ih]
  | cut heos => exact follow_nil_of_eos heos _ _

theorem runsOn_of_follow {i last : Nat} {page : Page} {segs : List Segment} {later : List Page} {data : Bytes}
    (h : follow i page later segs = some (last, data)) : RunsOn i page segs later data last := by
  fun_induction follow i page later segs generalizing data with
  | case1 i page later heos =>
    cases h
    exact RunsOn.cut heos
  | case2 => cases h
  | case3 i page heos next later hnext ih => exact RunsOn.crosses (by simpa using heos) hnext (ih h)
  | case4 => cases h
  | case5 i page later s rest hs =>
    cases h
    exact RunsOn.ends hs
  | case6 i page later s rest hs ih =>
    rw [Option.map_eq_some_iff] at h
    obtain ⟨⟨last', data'⟩, hrest, heq⟩ := h
    cases heq
    exact RunsOn.goesOn (by simpa using hs) (ih hrest)

/-! ### All runs -/

/-- The runs that begin in segments of one page, the first of them at place `k` of the
page; `fresh` says whether a packet can begin with it. -/
def runsIn (i : Nat) (page : Page) (later : List Page) : Nat → Bool → List Segment → List Run
  | _, _, [] => []
  | k, fresh, s :: rest =>
    (if fresh then (follow i page later (s :: rest)).toList.map fun e => ⟨i, k, e.1, e.2⟩ else [])
      ++ runsIn i page later (k + 1) s.ends rest

/-- The runs that begin on pages, the first of them at place `i`. -/
def runs (i : Nat) : List Page → List Run
  | [] => []
  | page :: later => runsIn i page later 0 (!page.continued) page.segments ++ runs (i + 1) later

/-- Whether a packet can begin behind segments, given whether it can before them. -/
def freshBehind (fresh : Bool) (passed : List Segment) : Bool := (passed.getLast?.map Segment.ends).getD fresh

theorem freshBehind_cons (fresh : Bool) (s : Segment) (passed : List Segment) :
    freshBehind fresh (s :: passed) = freshBehind s.ends passed := by
  rw [freshBehind, freshBehind, List.getLast?_cons]
  cases passed.getLast? <;> rfl

theorem opensBehind_eq_freshBehind (p : Page) (passed : List Segment) :
    p.opensBehind passed = freshBehind (!p.continued) passed := by
  rw [Page.opensBehind, freshBehind]
  cases passed.getLast? <;> rfl

theorem mem_runsIn_iff {i k : Nat} {page : Page} {later : List Page} {fresh : Bool} {segs : List Segment} {r : Run} :
    r ∈ runsIn i page later k fresh segs ↔
      ∃ passed rest, segs = passed ++ rest ∧ rest ≠ [] ∧ freshBehind fresh passed = true ∧
        RunsOn i page rest later r.data r.last ∧ r.page = i ∧ r.segment = k + passed.length := by
  induction segs generalizing k fresh with
  | nil =>
    simp only [runsIn, List.not_mem_nil, false_iff]
    rintro ⟨passed, rest, hsegs, hne, -⟩
    exact hne (List.append_eq_nil_iff.mp hsegs.symm).2
  | cons s segs ih =>
    rw [runsIn, List.mem_append, ih]
    constructor
    · rintro (hr | ⟨passed, rest, rfl, hne, hfresh, hrun, hpage, hsegment⟩)
      · split at hr
        · next hfresh =>
          rw [List.mem_map] at hr
          obtain ⟨⟨last, data⟩, he, rfl⟩ := hr
          rw [Option.mem_toList] at he
          exact ⟨[], s :: segs, rfl, by simp, hfresh, runsOn_of_follow he, rfl, rfl⟩
        · cases hr
      · refine ⟨s :: passed, rest, rfl, hne, ?_, hrun, hpage, ?_⟩
        · rwa [freshBehind_cons]
        · rw [hsegment, List.length_cons]
          omega
    · rintro ⟨passed, rest, hsegs, hne, hfresh, hrun, hpage, hsegment⟩
      cases passed with
      | nil =>
        left
        rw [List.nil_append] at hsegs
        subst hsegs
        rw [if_pos (show fresh = true from hfresh), List.mem_map]
        refine ⟨(r.last, r.data), Option.mem_toList.mpr (follow_of_runsOn hrun), ?_⟩
        cases r
        cases hpage
        cases hsegment
        rfl
      | cons s' passed =>
        right
        rw [List.cons_append, List.cons.injEq] at hsegs
        obtain ⟨rfl, rfl⟩ := hsegs
        rw [freshBehind_cons] at hfresh
        refine ⟨passed, rest, rfl, hne, hfresh, hrun, hpage, ?_⟩
        rw [hsegment, List.length_cons]
        omega

theorem mem_runs_iff_exists {i : Nat} {pages : List Page} {r : Run} :
    r ∈ runs i pages ↔
      ∃ before page later, pages = before ++ page :: later ∧
        r ∈ runsIn (i + before.length) page later 0 (!page.continued) page.segments := by
  induction pages generalizing i with
  | nil =>
    simp only [runs, List.not_mem_nil, false_iff]
    rintro ⟨before, page, later, hpages, -⟩
    cases before <;> cases hpages
  | cons page later ih =>
    rw [runs, List.mem_append, ih]
    constructor
    · rintro (hr | ⟨before, page', later', rfl, hr⟩)
      · exact ⟨[], page, later, rfl, hr⟩
      · refine ⟨page :: before, page', later', rfl, ?_⟩
        rwa [List.length_cons, Nat.add_comm before.length, ← Nat.add_assoc]
    · rintro ⟨before, page', later', hpages, hr⟩
      cases before with
      | nil =>
        cases hpages
        exact Or.inl hr
      | cons p before =>
        rw [List.cons_append, List.cons.injEq] at hpages
        obtain ⟨rfl, rfl⟩ := hpages
        refine Or.inr ⟨before, page', later', rfl, ?_⟩
        rwa [List.length_cons, Nat.add_comm before.length, ← Nat.add_assoc] at hr

/-- **`runs` computes the runs of pages.** -/
theorem mem_runs_iff {pages : List Page} {r : Run} : r ∈ runs 0 pages ↔ IsRun pages r := by
  rw [mem_runs_iff_exists]
  constructor
  · rintro ⟨before, page, later, rfl, hr⟩
    obtain ⟨passed, rest, hsegs, hne, hfresh, hrun, hpage, hsegment⟩ := mem_runsIn_iff.mp hr
    rw [Nat.zero_add] at hrun hpage hsegment
    cases r
    cases hpage
    cases hsegment
    rw [← opensBehind_eq_freshBehind] at hfresh
    exact IsRun.intro hsegs hne hfresh hrun
  · rintro ⟨hsegs, hne, hopens, hrun⟩
    rw [opensBehind_eq_freshBehind] at hopens
    refine ⟨_, _, _, rfl, mem_runsIn_iff.mpr ⟨_, _, hsegs, hne, hopens, ?_, ?_, ?_⟩⟩
    · rwa [Nat.zero_add]
    · exact (Nat.zero_add _).symm
    · exact (Nat.zero_add _).symm

/-! ### Their order -/

theorem pairwise_runsIn (i : Nat) (page : Page) (later : List Page) (k : Nat) (fresh : Bool) (segs : List Segment) :
    (runsIn i page later k fresh segs).Pairwise Run.Before := by
  induction segs generalizing k fresh with
  | nil => exact List.Pairwise.nil
  | cons s segs ih =>
    rw [runsIn, List.pairwise_append]
    refine ⟨?_, ih (k + 1) s.ends, ?_⟩
    · split
      · cases follow i page later (s :: segs) <;> simp
      · exact List.Pairwise.nil
    · intro r hr r' hr'
      obtain ⟨passed, -, -, -, -, -, hpage', hsegment'⟩ := mem_runsIn_iff.mp hr'
      split at hr
      · rw [List.mem_map] at hr
        obtain ⟨e, -, rfl⟩ := hr
        exact Or.inr ⟨hpage'.symm, by show k < r'.segment; omega⟩
      · cases hr

/-- **The runs are in the order in which they begin.** -/
theorem pairwise_runs (i : Nat) (pages : List Page) : (runs i pages).Pairwise Run.Before := by
  induction pages generalizing i with
  | nil => exact List.Pairwise.nil
  | cons page later ih =>
    rw [runs, List.pairwise_append]
    refine ⟨pairwise_runsIn _ _ _ _ _ _, ih (i + 1), ?_⟩
    intro r hr r' hr'
    obtain ⟨-, -, -, -, -, -, hpage, -⟩ := mem_runsIn_iff.mp hr
    obtain ⟨before, _, _, -, hr'⟩ := mem_runs_iff_exists.mp hr'
    obtain ⟨-, -, -, -, -, -, hpage', -⟩ := mem_runsIn_iff.mp hr'
    left
    omega

end Ogg
