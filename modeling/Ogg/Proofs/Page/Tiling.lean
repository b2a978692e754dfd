import Ogg.Proofs.Page.Leftmost

/-!
# Bytes that are all pages

Pages tile a byte string if it is their written forms, one behind the other, and nothing
else. The leftmost walk takes such a byte string apart into those pages and no others, since
it takes each page where it begins and never looks inside it for another. So one count tells
whether a byte string is tiled: the pages that the walk finds are as long as the byte string
together.

## Main statements

* `walk_of_tiles`: the walk finds the pages that tile a byte string.
* `tiles_iff`: pages tile a byte string exactly when they are those of the walk, and long enough.
* `walk_eq_nil_iff`: the walk finds nothing exactly when no page is written anywhere.
-/

namespace Ogg.Page

/-- The number of bytes that some pages take. -/
def sizes : List Page → Nat
  | [] => 0
  | p :: pages => p.size + sizes pages

/-- Pages tile a byte string: each is in order, and their written forms make it up. -/
def Tiles (pages : List Page) (d : Bytes) : Prop :=
  (∀ p ∈ pages, p.Sound) ∧ (pages.map encode).flatten = d

theorem tiles_nil : Tiles [] [] := ⟨fun p hp => (by cases hp), rfl⟩

/-- A page in front of bytes that are tiled. -/
theorem Tiles.cons {p : Page} (hp : p.Sound) {pages : List Page} {d : Bytes} (h : Tiles pages d) :
    Tiles (p :: pages) (p.encode ++ d) := by
  obtain ⟨hsound, rfl⟩ := h
  refine ⟨?_, rfl⟩
  intro q hq
  rcases List.mem_cons.mp hq with rfl | hq
  · exact hp
  · exact hsound q hq

/-- Pages that tile a byte string are as long as it is. -/
theorem Tiles.sizes_eq {pages : List Page} {d : Bytes} (h : Tiles pages d) : sizes pages = d.length := by
  obtain ⟨-, rfl⟩ := h
  induction pages with
  | nil => rfl
  | cons p pages ih => rw [sizes, ih, List.map_cons, List.flatten_cons, List.length_append, length_encode]

/-- **The walk finds the pages that tile a byte string.** -/
theorem walk_of_tiles {pages : List Page} {d : Bytes} (h : Tiles pages d) (offset : Nat) :
    (walk offset d).map Prod.snd = pages := by
  obtain ⟨hsound, rfl⟩ := h
  induction pages generalizing offset with
  | nil => rw [List.map_nil, List.flatten_nil, walk, List.map_nil]
  | cons p pages ih =>
    have hv := judge_encode_of_sound (hsound p List.mem_cons_self) (pages.map encode).flatten
    rw [List.map_cons, List.flatten_cons, walk_of_valid offset hv, List.map_cons, drop_size_encode,
      ih (offset + p.size) fun q hq => hsound q (List.mem_cons_of_mem p hq)]

/-- The pages that the walk finds are no longer than the byte string. -/
theorem sizes_walk_le (offset : Nat) (d : Bytes) : sizes ((walk offset d).map Prod.snd) ≤ d.length := by
  fun_induction walk offset d with
  | case1 => exact Nat.zero_le _
  | case2 offset b r p hv ih =>
    obtain ⟨-, hprefix⟩ := judge_eq_valid_iff.mp hv
    have hle := hprefix.length_le
    rw [length_encode] at hle
    rw [List.length_drop] at ih
    show p.size + sizes _ ≤ _
    omega
  | case3 offset b r hv ih =>
    rw [List.length_cons]
    omega

/-- When the pages that the walk finds are as long as the byte string, it has passed over nothing. -/
theorem tiles_of_sizes {offset : Nat} {d : Bytes} (h : sizes ((walk offset d).map Prod.snd) = d.length) :
    Tiles ((walk offset d).map Prod.snd) d := by
  fun_induction walk offset d with
  | case1 => exact tiles_nil
  | case2 offset b r p hv ih =>
    obtain ⟨hsound, rest, hd⟩ := judge_eq_valid_iff.mp hv
    have hdrop : (b :: r).drop p.size = rest := by rw [← hd, drop_size_encode]
    rw [hdrop] at ih h ⊢
    rw [List.map_cons, sizes, ← hd, List.length_append, length_encode] at h
    rw [← hd]
    exact (ih (Nat.add_left_cancel h)).cons hsound
  | case3 offset b r hv ih =>
    have hle := sizes_walk_le (offset + 1) r
    rw [List.length_cons] at h
    omega

/-- **Pages tile a byte string exactly when they are those of the walk, and long enough.** -/
theorem tiles_iff {pages : List Page} {d : Bytes} (offset : Nat) :
    Tiles pages d ↔ pages = (walk offset d).map Prod.snd ∧ sizes pages = d.length := by
  constructor
  · intro h
    exact ⟨(walk_of_tiles h offset).symm, h.sizes_eq⟩
  · rintro ⟨rfl, h⟩
    exact tiles_of_sizes h

/-- **The walk finds nothing exactly when no page is written anywhere.** -/
theorem walk_eq_nil_iff (offset : Nat) (d : Bytes) :
    walk offset d = [] ↔ ∀ p : Page, p.Sound → ¬ p.encode <:+: d := by
  fun_induction walk offset d with
  | case1 =>
    constructor
    · intro _ p _ hp
      have hpos := p.size_pos
      rw [← length_encode, List.infix_nil.mp hp] at hpos
      cases hpos
    · intro _
      rfl
  | case2 offset b r p hv ih =>
    obtain ⟨hsound, hprefix⟩ := judge_eq_valid_iff.mp hv
    constructor
    · intro h
      cases h
    · intro h
      exact absurd hprefix.isInfix (h p hsound)
  | case3 offset b r hv ih =>
    rw [ih]
    constructor
    · intro h p hsound hp
      rcases List.infix_cons_iff.mp hp with hprefix | hinfix
      · exact hv p (judge_eq_valid_iff.mpr ⟨hsound, hprefix⟩)
      · exact h p hsound hinfix
    · intro h p hsound hp
      exact h p hsound (List.infix_cons_iff.mpr (Or.inr hp))

end Ogg.Page
