import Ogg.Codec

/-!
# Tables in which the order does not matter

A packet is classified by the first signature of a table that it begins with. Which one is
the first matters only for a packet that begins with two of them, and then one of the two
begins with the other. A table in which no signature does so is prefix-free: it is read the
same in every order, and a codec that was recognised stays recognised when the packet grows.

A packet that no signature claims may be claimed when it grows, but only as long as it is
shorter than the longest signature. When no signature is longer than the dump, the bytes of
the dump decide.

## Main statements

* `prefixFree_iff`: a table is prefix-free exactly when no packet is claimed twice.
* `classifyWith_eq_known_iff`: a prefix-free table as a set of signatures.
* `classifyWith_take`: the bytes that are dumped are the bytes that decide.
* `classify_unordered_stable`: the table of codecs.
-/

namespace Ogg

namespace Signature

theorem matches_iff {s : Signature} {packet : Bytes} : s.matches packet = true ↔ s.magic <+: packet :=
  List.isPrefixOf_iff_prefix

/-- A packet that grows goes on to begin with what it began with. -/
theorem matches_append {s : Signature} {packet : Bytes} (h : s.matches packet = true) (more : Bytes) :
    s.matches (packet ++ more) = true :=
  matches_iff.mpr ((matches_iff.mp h).trans (List.prefix_append packet more))

/-- A signature reads no more bytes of a packet than it has itself. -/
theorem matches_take {s : Signature} {n : Nat} (h : s.magic.length ≤ n) (packet : Bytes) :
    s.matches (packet.take n) = s.matches packet := by
  rw [Bool.eq_iff_iff, matches_iff, matches_iff, List.prefix_take_iff]
  exact ⟨fun hboth => hboth.1, fun hstart => ⟨hstart, h⟩⟩

/-- Two signatures claim no packet together exactly when neither begins with the other. -/
theorem forall_not_matches_iff {s t : Signature} :
    (∀ packet, s.matches packet = true → t.matches packet = false) ↔
      ¬ s.magic <+: t.magic ∧ ¬ t.magic <+: s.magic := by
  simp only [← Bool.not_eq_true, matches_iff]
  constructor
  · intro h
    exact ⟨fun hst => h t.magic hst List.prefix_rfl, fun hts => h s.magic List.prefix_rfl hts⟩
  · rintro ⟨hst, hts⟩ packet hs ht
    rcases List.prefix_or_prefix_of_prefix hs ht with hstart | hstart
    · exact hst hstart
    · exact hts hstart

/-! ### Prefix-free tables -/

/-- No signature of a table begins with the bytes of another. -/
def PrefixFree (table : List Signature) : Prop :=
  table.Pairwise fun s t => ¬ s.magic <+: t.magic ∧ ¬ t.magic <+: s.magic

instance (table : List Signature) : Decidable (PrefixFree table) :=
  inferInstanceAs (Decidable (table.Pairwise _))

theorem PrefixFree.perm {table table' : List Signature} (h : PrefixFree table) (hperm : table'.Perm table) :
    PrefixFree table' :=
  (hperm.pairwise_iff And.symm).mpr h

/-- At most one entry of a table passes a test exactly when no two do. -/
theorem countP_le_one_iff {test : Signature → Bool} {table : List Signature} :
    table.countP test ≤ 1 ↔ table.Pairwise fun s t => test s = true → test t = false := by
  induction table with
  | nil => simp
  | cons s rest ih =>
    rw [List.pairwise_cons, ← ih, List.countP_cons]
    by_cases hs : test s = true
    · have hnone : (∀ t ∈ rest, test s = true → test t = false) ↔ rest.countP test = 0 := by
        simp [List.countP_eq_zero, hs]
      rw [hnone, if_pos hs]
      omega
    · rw [if_neg hs, Nat.add_zero]
      exact ⟨fun h => ⟨fun t _ h' => absurd h' hs, h⟩, fun h => h.2⟩

/-- **A table is prefix-free exactly when no packet is claimed twice.** -/
theorem prefixFree_iff {table : List Signature} :
    PrefixFree table ↔ ∀ packet, table.countP (·.matches packet) ≤ 1 := by
  simp only [countP_le_one_iff, PrefixFree, ← forall_not_matches_iff]
  constructor
  · intro h packet
    exact h.imp fun hst => hst packet
  · intro h
    exact List.pairwise_iff_forall_sublist.mpr fun hsub packet =>
      List.pairwise_iff_forall_sublist.mp (h packet) hsub

end Signature

open Signature

section Table

variable {table : List Signature}

/-- A packet is unknown exactly when no entry claims it, whatever the table. -/
theorem classifyWith_eq_unknown_iff {packet : Bytes} {dump : Dump} :
    classifyWith table packet = .unknown dump ↔
      dump = Dump.ofPacket packet ∧ ∀ s ∈ table, s.matches packet = false := by
  unfold classifyWith
  cases hfind : table.find? (·.matches packet) with
  | none =>
    rw [List.find?_eq_none] at hfind
    simp only [Classification.unknown.injEq]
    constructor
    · rintro rfl
      exact ⟨rfl, fun s hs => by simpa using hfind s hs⟩
    · rintro ⟨rfl, -⟩
      rfl
  | some s =>
    simp only [reduceCtorEq, false_iff]
    rintro ⟨-, hnone⟩
    have hs := hnone s (List.mem_of_find?_eq_some hfind)
    rw [List.find?_some hfind] at hs
    cases hs

/-- **In a prefix-free table a packet is known by the entry that claims it**, wherever the entry stands. -/
theorem classifyWith_eq_known_iff (hfree : PrefixFree table) {packet : Bytes} {s : Signature} :
    classifyWith table packet = .known s ↔ s ∈ table ∧ s.matches packet = true := by
  induction table with
  | nil => simp [classifyWith]
  | cons t rest ih =>
    obtain ⟨hapart, hrest⟩ := List.pairwise_cons.mp hfree
    by_cases ht : t.matches packet = true
    · have hfirst : classifyWith (t :: rest) packet = .known t := by
        simp only [classifyWith, List.find?_cons_of_pos, ht]
      rw [hfirst, Classification.known.injEq]
      constructor
      · rintro rfl
        exact ⟨List.mem_cons_self, ht⟩
      · rintro ⟨hmem, hs⟩
        rcases List.mem_cons.mp hmem with rfl | hmem
        · rfl
        · have hnot := forall_not_matches_iff.mpr (hapart s hmem) packet ht
          rw [hs] at hnot
          cases hnot
    · have hlater : classifyWith (t :: rest) packet = classifyWith rest packet := by
        simp only [classifyWith, List.find?_cons, ht]
      rw [hlater, ih hrest, List.mem_cons]
      constructor
      · rintro ⟨hmem, hs⟩
        exact ⟨Or.inr hmem, hs⟩
      · rintro ⟨rfl | hmem, hs⟩
        · exact absurd hs ht
        · exact ⟨hmem, hs⟩

/-- **A prefix-free table is read the same in every order.** -/
theorem classifyWith_perm (hfree : PrefixFree table) {table' : List Signature} (hperm : table'.Perm table)
    (packet : Bytes) : classifyWith table' packet = classifyWith table packet := by
  cases h : classifyWith table packet with
  | known s =>
    rw [classifyWith_eq_known_iff (hfree.perm hperm), hperm.mem_iff]
    exact (classifyWith_eq_known_iff hfree).mp h
  | unknown dump =>
    simp only [classifyWith_eq_unknown_iff, hperm.mem_iff]
    exact classifyWith_eq_unknown_iff.mp h

/-- What a prefix-free table recognises stays recognised when the packet grows. -/
theorem classifyWith_append_of_known (hfree : PrefixFree table) {packet : Bytes} {s : Signature}
    (h : classifyWith table packet = .known s) (more : Bytes) :
    classifyWith table (packet ++ more) = .known s := by
  obtain ⟨hmem, hs⟩ := (classifyWith_eq_known_iff hfree).mp h
  exact (classifyWith_eq_known_iff hfree).mpr ⟨hmem, matches_append hs more⟩

/-- A table that is not prefix-free is another matter: here a packet passes from one entry to
the other as it grows. -/
example :
    let short : Signature := ⟨.speex, [0x53, 0x70, 0x65], "Spe", .handoff⟩
    let long : Signature := ⟨.vorbis, [0x53, 0x70, 0x65, 0x65, 0x78], "Speex", .handoff⟩
    ¬ PrefixFree [long, short] ∧ classifyWith [long, short] short.magic = .known short ∧
      classifyWith [long, short] long.magic = .known long := by decide

/-- **The bytes that are dumped are the bytes that decide**, when no signature has more. -/
theorem classifyWith_take (hshort : ∀ s ∈ table, s.magic.length ≤ Dump.maxBytes) (packet : Bytes) :
    classifyWith table (packet.take Dump.maxBytes) = classifyWith table packet := by
  have hfind : table.find? (·.matches (packet.take Dump.maxBytes)) = table.find? (·.matches packet) := by
    rw [← List.head?_filter, ← List.head?_filter,
      List.filter_congr fun s hs => matches_take (hshort s hs) packet]
  have hdump : Dump.ofPacket (packet.take Dump.maxBytes) = Dump.ofPacket packet := by
    rw [Dump.ofPacket, List.take_take, Nat.min_self, Dump.ofPacket]
  rw [classifyWith, hfind, hdump, classifyWith]

end Table

/-! ### The table of codecs -/

theorem Signature.prefixFree_table : PrefixFree Signature.table := by decide

theorem Signature.length_magic_le : ∀ s ∈ Signature.table, s.magic.length ≤ Dump.maxBytes := by decide

/-- **The order of the signatures does not matter, and eight bytes settle a classification.** At
most one entry of the table claims a packet, so every reordering of the table classifies it alike.
A known packet that grows stays known by the same entry, and one of eight bytes or more stays what
it is, an unknown one with its dump. -/
theorem classify_unordered_stable (packet : Bytes) :
    Signature.table.countP (·.matches packet) ≤ 1 ∧
      (∀ table, table.Perm Signature.table → classifyWith table packet = classify packet) ∧
      ∀ more, (∀ s, classify packet = .known s → classify (packet ++ more) = .known s) ∧
        (8 ≤ packet.length → classify (packet ++ more) = classify packet) := by
  refine ⟨prefixFree_iff.mp prefixFree_table packet, ?_, ?_⟩
  · intro table hperm
    exact classifyWith_perm prefixFree_table hperm packet
  · intro more
    refine ⟨fun s hknown => classifyWith_append_of_known prefixFree_table hknown more, ?_⟩
    intro hlength
    have hhead : (packet ++ more).take Dump.maxBytes = packet.take Dump.maxBytes :=
      List.take_append_of_le_length hlength
    calc classify (packet ++ more)
        = classify ((packet ++ more).take Dump.maxBytes) := (classifyWith_take length_magic_le _).symm
      _ = classify (packet.take Dump.maxBytes) := by rw [hhead]
      _ = classify packet := classifyWith_take length_magic_le packet

/-- The first eight bytes of a Speex header. -/
def speexHead : Bytes := [0x53, 0x70, 0x65, 0x65, 0x78, 0x20, 0x20, 0x20]

/-- Eight bytes that no signature claims, though they begin like one. -/
def nearlySpeex : Bytes := [0x53, 0x70, 0x65, 0x65, 0x64, 0x78, 0x20, 0x20]

theorem classify_speexHead :
    Signature.table.reverse.Perm Signature.table ∧ classify speexHead = .known Codec.speex.signature ∧
      classifyWith Signature.table.reverse speexHead = .known Codec.speex.signature ∧
      classify (speexHead ++ [0x31]) = .known Codec.speex.signature ∧
      8 ≤ nearlySpeex.length ∧ classify (nearlySpeex ++ [0x31]) = .unknown ⟨nearlySpeex⟩ := by
  have hperm : Signature.table.reverse.Perm Signature.table := List.reverse_perm Signature.table
  have hknown : classify speexHead = .known Codec.speex.signature := by decide
  have hunknown : classify nearlySpeex = .unknown ⟨nearlySpeex⟩ := by decide
  obtain ⟨-, hreordered, hgrown⟩ := classify_unordered_stable speexHead
  obtain ⟨-, -, hsettled⟩ := classify_unordered_stable nearlySpeex
  refine ⟨hperm, hknown, ?_, (hgrown [0x31]).1 _ hknown, by decide, ?_⟩
  · rw [hreordered _ hperm, hknown]
  · rw [(hsettled [0x31]).2 (by decide), hunknown]

end Ogg
