import Peg.Proofs.CharRuns

/-!
# Runs are merged once

What merging makes of a run has a form of its own (`CharRun.Merged`): ranges in order with
code points between them, then a class of the characters outside of the ranges with code
points between those, then the tests. Every merged run has that form, whatever was merged
(`CharRun.merged_merge`), and merging leaves a run of that form alone
(`CharRun.Merged.merge_eq`). Inverted ranges and unordered sets are no exception.
-/

namespace Peg

theorem Text.ascending_eq_self {cs : List Char} (sorted : IsAscending cs) :
    ascending cs = cs := by
  induction cs with
  | nil => rfl
  | cons c cs ih =>
    obtain ⟨first, rest⟩ := List.pairwise_cons.mp sorted
    show insertChar c (ascending cs) = c :: cs
    rw [ih rest]
    cases cs with
    | nil => rfl
    | cons x xs => exact if_pos (first x List.mem_cons_self)

namespace CharRun

variable {π : Type}

/-! ## Ranges -/

/-- Ranges in their places, with code points between one and the next. -/
def Apart (rs : List Range) : Prop :=
  rs.Pairwise fun r s => Before r s ∧ r.2.toNat + 1 < s.1.toNat

theorem Apart.inPlace {rs : List Range} (h : Apart rs) : InPlace rs := h.imp And.left

/-- A range that has taken in others begins as one of them did and ends no earlier. -/
theorem exists_of_mem_joinOnto {r y : Range} {rs : List Range} (hy : y ∈ joinOnto r rs) :
    ∃ x ∈ r :: rs, y.1 = x.1 ∧ x.2 ≤ y.2 := by
  induction rs generalizing r with
  | nil => exact ⟨y, hy, rfl, Char.le_refl _⟩
  | cons s rs ih =>
    unfold joinOnto at hy
    split at hy
    · obtain ⟨x, hx, begins, ends⟩ := ih hy
      rcases List.mem_cons.mp hx with rfl | later
      · refine ⟨r, List.mem_cons_self, begins, Char.le_trans ?_ ends⟩
        dsimp only
        split
        · next lt => exact Nat.le_of_lt lt
        · exact Char.le_refl _
      · exact ⟨x, List.mem_cons_of_mem r (List.mem_cons_of_mem s later), begins, ends⟩
    · rcases List.mem_cons.mp hy with rfl | later
      · exact ⟨y, List.mem_cons_self, rfl, Char.le_refl _⟩
      · obtain ⟨x, hx, begins, ends⟩ := ih later
        exact ⟨x, List.mem_cons_of_mem r hx, begins, ends⟩

theorem apart_joinOnto {r : Range} {rs : List Range} (h : InPlace (r :: rs)) :
    Apart (joinOnto r rs) := by
  induction rs generalizing r with
  | nil => exact List.pairwise_singleton _ r
  | cons s rs ih =>
    obtain ⟨first, rest⟩ := List.pairwise_cons.mp h
    have behind := (List.pairwise_cons.mp rest).1
    unfold joinOnto
    split
    · refine ih (List.pairwise_cons.mpr ⟨fun x hx => ?_, (List.pairwise_cons.mp rest).2⟩)
      split
      · -- Where `x` begins with `r`, so does `s`, and `x` ends no earlier than `s`.
        rcases first x (List.mem_cons_of_mem s hx) with lt | ⟨same, _⟩
        · exact .inl lt
        · have between : s.1 ≤ r.1 := same ▸ (behind x hx).le
          have begins : r.1 = s.1 := Char.le_antisymm (first s List.mem_cons_self).le between
          exact begins ▸ behind x hx
      · exact first x (List.mem_cons_of_mem s hx)
    · next gap =>
      refine List.pairwise_cons.mpr ⟨fun y hy => ?_, ih rest⟩
      obtain ⟨x, hx, begins, ends⟩ := exists_of_mem_joinOnto hy
      have later : s.1 ≤ x.1 := by
        rcases List.mem_cons.mp hx with rfl | inside
        · exact Char.le_refl _
        · exact (behind x inside).le
      refine ⟨(first x hx).trans (.inr ⟨begins.symm, ends⟩), ?_⟩
      rw [begins]
      exact Nat.lt_of_lt_of_le (Nat.not_le.mp gap) later

theorem apart_joinRanges (rs : List Range) : Apart (joinRanges rs) := by
  have placed := inPlace_foldr_insertRange rs
  unfold joinRanges
  split
  · exact .nil
  · next found => exact apart_joinOnto (found ▸ placed)

theorem foldr_insertRange_eq_self {rs : List Range} (h : InPlace rs) :
    rs.foldr insertRange [] = rs := by
  induction rs with
  | nil => rfl
  | cons r rs ih =>
    obtain ⟨first, rest⟩ := List.pairwise_cons.mp h
    rw [List.foldr_cons, ih rest]
    cases rs with
    | nil => rfl
    | cons s rs => exact if_pos (before_iff.mpr (first s List.mem_cons_self))

theorem Apart.joinOnto_eq {r : Range} {rs : List Range} (h : Apart (r :: rs)) :
    joinOnto r rs = r :: rs := by
  induction rs generalizing r with
  | nil => rfl
  | cons s rs ih =>
    obtain ⟨first, rest⟩ := List.pairwise_cons.mp h
    unfold joinOnto
    rw [if_neg (Nat.not_le.mpr (first s List.mem_cons_self).2), ih rest]

/-- Ranges that are apart have nothing to take in. -/
theorem Apart.joinRanges_eq {rs : List Range} (h : Apart rs) : joinRanges rs = rs := by
  unfold joinRanges
  rw [foldr_insertRange_eq_self h.inPlace]
  cases rs with
  | nil => rfl
  | cons r rs => exact h.joinOnto_eq

/-! ## Characters -/

/-- Ascending characters with code points between one and the next. -/
def Isolated (cs : List Char) : Prop := cs.Pairwise fun a b => a.toNat + 1 < b.toNat

theorem Isolated.isAscending {cs : List Char} (h : Isolated cs) : Text.IsAscending cs :=
  h.imp fun gap => Nat.lt_of_succ_lt gap

/-- Stretches end where the next code point is not in the list. -/
theorem gaps_stretches {cs : List Char} (sorted : Text.IsAscending cs) :
    (stretches cs).Pairwise fun r s => r.2.toNat + 1 < s.1.toNat := by
  induction cs with
  | nil => exact .nil
  | cons c cs ih =>
    obtain ⟨first, rest⟩ := List.pairwise_cons.mp sorted
    have below := areStretches_stretches rest
    have gaps := ih rest
    unfold stretches
    split
    · exact List.pairwise_singleton _ (c, c)
    · next lo hi rs found =>
      rw [found] at below gaps
      obtain ⟨behind, others⟩ := List.pairwise_cons.mp gaps
      split
      · exact List.pairwise_cons.mpr ⟨behind, others⟩
      · next notTouch =>
        refine List.pairwise_cons.mpr ⟨fun r hr => ?_, gaps⟩
        have gap : c.toNat + 1 < lo.toNat :=
          Nat.lt_of_le_of_ne (first lo (below.mem_first List.mem_cons_self)) notTouch
        rcases List.mem_cons.mp hr with rfl | later
        · exact gap
        · have wide : lo.toNat ≤ hi.toNat := below.le (lo, hi) List.mem_cons_self
          have far : hi.toNat + 1 < r.1.toNat := behind r later
          show c.toNat + 1 < r.1.toNat
          omega

theorem isolated_singles {cs : List Char} (sorted : Text.IsAscending cs) :
    Isolated (singles (stretches cs)) := by
  refine List.pairwise_map.mpr (((gaps_stretches sorted).filter _).imp_of_mem ?_)
  intro r s hr _ gap
  have same : r.1 = r.2 := of_decide_eq_true (List.mem_filter.mp hr).2
  exact same ▸ gap

/-- Each isolated character is a stretch of its own. -/
theorem Isolated.stretches_eq {cs : List Char} (h : Isolated cs) :
    stretches cs = cs.map fun c => (c, c) := by
  induction cs with
  | nil => rfl
  | cons c cs ih =>
    obtain ⟨first, rest⟩ := List.pairwise_cons.mp h
    unfold stretches
    rw [ih rest]
    cases cs with
    | nil => rfl
    | cons x xs => exact if_neg (Nat.ne_of_lt (first x List.mem_cons_self))

theorem singles_pairs (cs : List Char) : singles (cs.map fun c => (c, c)) = cs := by
  simp [singles, List.filter_map, Function.comp_def]

theorem filter_pairs_ne (cs : List Char) :
    ((cs.map fun c => (c, c)).filter fun r => r.1 ≠ r.2) = [] :=
  List.filter_eq_nil_iff.mpr <| List.forall_mem_map.mpr fun _ _ => by simp

/-! ## The parts of a merged run -/

/-- Ranges, then characters, then tests. -/
def ofParts (rs : List Range) (cs : List Char) (tests : List (CharClass π)) :
    List (CharClass π) :=
  rs.map (fun r => .range r.1 r.2) ++ classOf cs ++ tests

theorem eq_nil_of_isTest {cls : CharClass π} (h : isTest cls = true) :
    listed cls = [] ∧ ranges cls = [] := by
  cases cls with
  | satisfying p => exact ⟨rfl, rfl⟩
  | only | range | oneOf => exact absurd h Bool.false_ne_true

section

variable (rs : List Range) (cs : List Char) {tests : List (CharClass π)}
  (named : ∀ cls ∈ tests, isTest cls = true)

include named

theorem flatMap_listed_ofParts : (ofParts rs cs tests).flatMap listed = cs := by
  have none : tests.flatMap listed = [] :=
    List.flatMap_eq_nil_iff.mpr fun cls member => (eq_nil_of_isTest (named cls member)).1
  have chars : (classOf cs : List (CharClass π)).flatMap listed = cs := by
    unfold classOf
    split <;> simp [listed]
  simp [ofParts, List.flatMap_map, chars, none, listed]

theorem flatMap_ranges_ofParts : (ofParts rs cs tests).flatMap ranges = rs := by
  have none : tests.flatMap ranges = [] :=
    List.flatMap_eq_nil_iff.mpr fun cls member => (eq_nil_of_isTest (named cls member)).2
  have chars : (classOf cs : List (CharClass π)).flatMap ranges = [] := by
    unfold classOf
    split <;> simp [ranges]
  simp [ofParts, List.flatMap_map, chars, none, ranges]

theorem filter_isTest_ofParts : (ofParts rs cs tests).filter isTest = tests := by
  have chars : (classOf cs : List (CharClass π)).filter isTest = [] := by
    unfold classOf
    split <;> rfl
  simp [ofParts, List.filter_map, Function.comp_def, chars, List.filter_eq_self.mpr named, isTest]

end

/-! ## Merged runs -/

/-- The form of a merged run. -/
inductive Merged : List (CharClass π) → Prop
  | intro {rs : List Range} {cs : List Char} {tests : List (CharClass π)} (apart : Apart rs)
      (isolated : Isolated cs) (outside : ∀ c ∈ cs, ¬ Covered rs c)
      (named : ∀ cls ∈ tests, isTest cls = true) : Merged (ofParts rs cs tests)

theorem any_covers_iff {rs : List Range} {c : Char} :
    rs.any (covers · c) = true ↔ Covered rs c := List.any_eq_true

theorem merged_merge (run : List (CharClass π)) : Merged (merge run) := by
  have single := isolated_singles (Text.isAscending_ascending (run.flatMap listed))
  refine .intro (apart_joinRanges _) (single.filter _) (fun c hc covered => ?_)
    fun cls member => (List.mem_filter.mp member).2
  have outside := (List.mem_filter.mp hc).2
  rw [any_covers_iff.mpr covered] at outside
  exact absurd outside Bool.false_ne_true

/-- Nothing is left to merge in a merged run. -/
theorem Merged.merge_eq {run : List (CharClass π)} (h : Merged run) : merge run = run := by
  obtain ⟨apart, isolated, outside, named⟩ := h
  next rs cs tests =>
  have kept : cs.filter (fun c => !rs.any (covers · c)) = cs := by
    refine List.filter_eq_self.mpr fun c hc => ?_
    rw [Bool.not_eq_true', Bool.eq_false_iff]
    exact mt any_covers_iff.mp (outside c hc)
  have chars : mergeChars (ofParts rs cs tests) =
      rs.map (fun r => .range r.1 r.2) ++ classOf cs := by
    unfold mergeChars
    rw [flatMap_listed_ofParts rs cs named, flatMap_ranges_ofParts rs cs named,
      Text.ascending_eq_self isolated.isAscending, isolated.stretches_eq]
    dsimp only
    rw [filter_pairs_ne, List.append_nil, apart.joinRanges_eq]
    show _ ++ classOf ((singles (cs.map fun c => (c, c))).filter _) = _
    rw [singles_pairs, kept]
  rw [merge, chars, filter_isTest_ofParts rs cs named]
  rfl

end CharRun

end Peg
