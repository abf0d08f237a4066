import Peg.Optimize.CharRun
import Peg.Proofs.Semantics

/-!
# Merged runs accept the same characters

Merging a run of character classes pools and reorders what the classes list. It
neither adds a character nor loses one (`CharRun.accepted_merge_iff_has`). Classes in proper
form accept what they name, so a run of them accepts what it accepts when it is merged
(`CharRun.accepts_merge_iff`). What is made of them is in proper form again
(`CharRun.proper_merge`), and there is at least one class of it (`CharRun.merge_ne_nil`).
-/

namespace Peg

namespace Text

theorem isAscending_iff {cs : List Char} : isAscending cs = true ↔ IsAscending cs := by
  induction cs with
  | nil => exact ⟨fun _ => .nil, fun _ => rfl⟩
  | cons a cs ih =>
    cases cs with
    | nil => exact ⟨fun _ => List.pairwise_singleton _ a, fun _ => rfl⟩
    | cons b cs =>
      rw [isAscending, Bool.and_eq_true, decide_eq_true_iff, ih]
      constructor
      · rintro ⟨first, rest⟩
        refine List.pairwise_cons.mpr ⟨fun x member => ?_, rest⟩
        rcases List.mem_cons.mp member with rfl | later
        · exact first
        · exact Char.lt_trans first ((List.pairwise_cons.mp rest).1 x later)
      · intro sorted
        obtain ⟨first, rest⟩ := List.pairwise_cons.mp sorted
        exact ⟨first b List.mem_cons_self, rest⟩

end Text

/-- The form that is asked of the classes in a grammar. -/
def CharClass.Proper {π : Type} : CharClass π → Prop
  | .range lo hi => lo ≤ hi
  | .oneOf cs => cs ≠ [] ∧ Text.IsAscending cs
  | .only _ | .satisfying _ => True

/-- A class in proper form accepts the characters that it names. -/
theorem CharClass.has_iff_accepts {π : Type} [CharTest π] {cls : CharClass π}
    (proper : cls.Proper) {c : Char} : cls.Has c ↔ cls.accepts c = true := by
  cases cls with
  | only x => exact beq_iff_eq.symm
  | range lo hi => simp [Has, accepts]
  | oneOf cs => exact (bisect_iff_mem proper.2 (Nat.le_refl _)).symm
  | satisfying p => exact Iff.rfl

namespace CharRun

variable {π : Type}

/-! ## Ranges -/

theorem covers_iff {r : Range} {c : Char} :
    covers r c = true ↔ r.1.toNat ≤ c.toNat ∧ c.toNat ≤ r.2.toNat := by
  rw [covers, Bool.and_eq_true, decide_eq_true_iff, decide_eq_true_iff]
  rfl

/-- Some range of the list covers the character. -/
def Covered (rs : List Range) (c : Char) : Prop := ∃ r ∈ rs, covers r c = true

theorem covered_cons {r : Range} {rs : List Range} {c : Char} :
    Covered (r :: rs) c ↔ covers r c = true ∨ Covered rs c := by
  simp [Covered]

theorem covered_append {rs ss : List Range} {c : Char} :
    Covered (rs ++ ss) c ↔ Covered rs c ∨ Covered ss c := by
  simp only [Covered, List.mem_append, or_and_right, exists_or]

theorem insertRange_perm (r : Range) (rs : List Range) : (insertRange r rs).Perm (r :: rs) := by
  induction rs with
  | nil => exact .refl _
  | cons s rs ih =>
    unfold insertRange
    split
    · exact .refl _
    · exact (ih.cons s).trans (.swap r s rs)

theorem mem_insertRange {r s : Range} {rs : List Range} :
    s ∈ insertRange r rs ↔ s = r ∨ s ∈ rs :=
  (insertRange_perm r rs).mem_iff.trans List.mem_cons

theorem foldr_insertRange_perm (rs : List Range) : (rs.foldr insertRange []).Perm rs := by
  induction rs with
  | nil => exact .refl _
  | cons r rs ih => exact (insertRange_perm r _).trans (ih.cons r)

theorem mem_foldr_insertRange {s : Range} {rs : List Range} :
    s ∈ rs.foldr insertRange [] ↔ s ∈ rs :=
  (foldr_insertRange_perm rs).mem_iff

/-- The ranges begin in order. -/
def InOrder (rs : List Range) : Prop := rs.Pairwise (·.1 ≤ ·.1)

/-- `r` has its place before `s`. -/
def Before (r s : Range) : Prop := r.1 < s.1 ∨ r.1 = s.1 ∧ r.2 ≤ s.2

theorem before_iff {r s : Range} :
    (decide (r.1 < s.1) || (decide (r.1 = s.1) && decide (r.2 ≤ s.2))) = true ↔ Before r s := by
  simp [Before]

theorem Before.le {r s : Range} (h : Before r s) : r.1 ≤ s.1 := by
  rcases h with lt | ⟨same, _⟩
  · exact Nat.le_of_lt lt
  · exact same ▸ Char.le_refl _

theorem Before.trans {r s t : Range} (h : Before r s) (h' : Before s t) : Before r t := by
  rcases h with lt | ⟨same, le⟩
  · exact .inl (Nat.lt_of_lt_of_le lt h'.le)
  · rcases h' with lt | ⟨same', le'⟩
    · exact .inl (same ▸ lt)
    · exact .inr ⟨same.trans same', Char.le_trans le le'⟩

theorem before_of_not_before {r s : Range} (h : ¬ Before r s) : Before s r := by
  rcases Text.lt_or_eq_or_gt r.1 s.1 with lt | same | gt
  · exact absurd (.inl lt) h
  · refine .inr ⟨same.symm, Char.not_lt.mp fun lt => h (.inr ⟨same, Nat.le_of_lt lt⟩)⟩
  · exact .inl gt

/-- Each range has its place before those behind it. -/
def InPlace (rs : List Range) : Prop := rs.Pairwise Before

theorem InPlace.inOrder {rs : List Range} (h : InPlace rs) : InOrder rs := h.imp Before.le

theorem inPlace_insertRange {r : Range} {rs : List Range} (h : InPlace rs) :
    InPlace (insertRange r rs) := by
  induction rs with
  | nil => exact List.pairwise_singleton _ r
  | cons t rs ih =>
    obtain ⟨first, rest⟩ := List.pairwise_cons.mp h
    unfold insertRange
    split
    · next before =>
      have before := before_iff.mp before
      refine List.pairwise_cons.mpr ⟨fun s member => ?_, h⟩
      rcases List.mem_cons.mp member with rfl | later
      · exact before
      · exact before.trans (first s later)
    · next notBefore =>
      have before := before_of_not_before (mt before_iff.mpr notBefore)
      refine List.pairwise_cons.mpr ⟨fun s member => ?_, ih rest⟩
      rcases mem_insertRange.mp member with rfl | later
      · exact before
      · exact first s later

theorem inPlace_foldr_insertRange (rs : List Range) : InPlace (rs.foldr insertRange []) := by
  induction rs with
  | nil => exact .nil
  | cons r rs ih => exact inPlace_insertRange ih

/-- A range that takes in the ranges behind it covers what they covered. -/
theorem covered_joinOnto {r : Range} {rs : List Range} {c : Char} (h : InOrder (r :: rs)) :
    Covered (joinOnto r rs) c ↔ Covered (r :: rs) c := by
  induction rs generalizing r with
  | nil => exact Iff.rfl
  | cons s rs ih =>
    obtain ⟨first, rest⟩ := List.pairwise_cons.mp h
    have le : r.1.toNat ≤ s.1.toNat := first s List.mem_cons_self
    unfold joinOnto
    split
    · next touch =>
      have order : InOrder ((r.1, if r.2 < s.2 then s.2 else r.2) :: rs) :=
        List.pairwise_cons.mpr
          ⟨fun x hx => first x (List.mem_cons_of_mem s hx), (List.pairwise_cons.mp rest).2⟩
      rw [ih order, covered_cons, covered_cons, covered_cons, ← or_assoc]
      refine or_congr ?_ Iff.rfl
      simp only [covers_iff]
      split
      · next lt =>
        have lt : r.2.toNat < s.2.toNat := lt
        omega
      · next notLt =>
        have ge : s.2.toNat ≤ r.2.toNat := Char.not_lt.mp notLt
        omega
    · rw [covered_cons, ih rest, covered_cons, covered_cons, covered_cons]

theorem covered_joinRanges {rs : List Range} {c : Char} :
    Covered (joinRanges rs) c ↔ Covered rs c := by
  have sorted : Covered (rs.foldr insertRange []) c ↔ Covered rs c := by
    simp only [Covered, mem_foldr_insertRange]
  have order := (inPlace_foldr_insertRange rs).inOrder
  rw [← sorted]
  unfold joinRanges
  split
  · next none => rw [none]
  · next some =>
    rw [some] at order ⊢
    exact covered_joinOnto order

theorem le_of_mem_joinOnto {r x : Range} {rs : List Range} (h : ∀ s ∈ r :: rs, s.1 ≤ s.2)
    (hx : x ∈ joinOnto r rs) : x.1 ≤ x.2 := by
  induction rs generalizing r with
  | nil => exact h x hx
  | cons s rs ih =>
    have first : r.1 ≤ r.2 := h r List.mem_cons_self
    unfold joinOnto at hx
    split at hx
    · refine ih (fun y hy => ?_) hx
      rcases List.mem_cons.mp hy with rfl | later
      · split
        · next lt => exact Char.le_trans first (Nat.le_of_lt lt)
        · exact first
      · exact h y (List.mem_cons_of_mem r (List.mem_cons_of_mem s later))
    · rcases List.mem_cons.mp hx with rfl | later
      · exact first
      · exact ih (fun y hy => h y (List.mem_cons_of_mem r hy)) later

theorem le_of_mem_joinRanges {rs : List Range} {x : Range} (h : ∀ r ∈ rs, r.1 ≤ r.2)
    (hx : x ∈ joinRanges rs) : x.1 ≤ x.2 := by
  have sorted : ∀ r ∈ rs.foldr insertRange [], r.1 ≤ r.2 := fun r hr =>
    h r (mem_foldr_insertRange.mp hr)
  unfold joinRanges at hx
  split at hx
  · exact absurd hx List.not_mem_nil
  · next some =>
    rw [some] at sorted
    exact le_of_mem_joinOnto sorted hx

/-! ## Stretches -/

/-- Ranges that cover exactly the given characters, one behind the other. -/
structure AreStretches (cs : List Char) (rs : List Range) : Prop where
  covered : ∀ c, Covered rs c ↔ c ∈ cs
  le : ∀ r ∈ rs, r.1 ≤ r.2
  apart : rs.Pairwise (·.2 < ·.1)

theorem AreStretches.mem_first {cs : List Char} {rs : List Range} (h : AreStretches cs rs)
    {r : Range} (hr : r ∈ rs) : r.1 ∈ cs :=
  (h.covered r.1).mp ⟨r, hr, covers_iff.mpr ⟨Nat.le_refl _, h.le r hr⟩⟩

theorem AreStretches.nil : AreStretches [] [] :=
  ⟨fun _ => by simp [Covered], fun _ hr => absurd hr List.not_mem_nil, .nil⟩

/-- A character in front of all begins a stretch of its own. -/
theorem AreStretches.cons {c : Char} {cs : List Char} {rs : List Range}
    (h : AreStretches cs rs) (first : ∀ x ∈ cs, c < x) :
    AreStretches (c :: cs) ((c, c) :: rs) := by
  refine ⟨fun x => ?_, fun r hr => ?_, List.pairwise_cons.mpr ⟨fun r hr => ?_, h.apart⟩⟩
  · have one : covers (c, c) x = true ↔ x = c := by
      rw [covers_iff, ← Char.toNat_inj]
      exact ⟨fun h => Nat.le_antisymm h.2 h.1, fun h => ⟨Nat.le_of_eq h.symm, Nat.le_of_eq h⟩⟩
    rw [covered_cons, one, h.covered, List.mem_cons]
  · rcases List.mem_cons.mp hr with rfl | later
    · exact Char.le_refl c
    · exact h.le r later
  · exact first r.1 (h.mem_first hr)

/-- The character just before the first stretch joins it. -/
theorem AreStretches.widen {c lo hi : Char} {cs : List Char} {rs : List Range}
    (h : AreStretches cs ((lo, hi) :: rs)) (touch : c.toNat + 1 = lo.toNat) :
    AreStretches (c :: cs) ((c, hi) :: rs) := by
  have wide : lo.toNat ≤ hi.toNat := h.le (lo, hi) List.mem_cons_self
  refine ⟨fun x => ?_, fun r hr => ?_, List.pairwise_cons.mpr (List.pairwise_cons.mp h.apart)⟩
  · have step : covers (c, hi) x = true ↔ x = c ∨ covers (lo, hi) x = true := by
      rw [covers_iff, covers_iff, ← Char.toNat_inj]
      dsimp only
      omega
    rw [covered_cons, step, List.mem_cons, ← h.covered, covered_cons, or_assoc]
  · rcases List.mem_cons.mp hr with rfl | later
    · exact Nat.le_trans (Nat.le_of_succ_le (Nat.le_of_eq touch)) wide
    · exact h.le r (List.mem_cons_of_mem _ later)

theorem areStretches_stretches {cs : List Char} (sorted : Text.IsAscending cs) :
    AreStretches cs (stretches cs) := by
  induction cs with
  | nil => exact .nil
  | cons c cs ih =>
    obtain ⟨first, rest⟩ := List.pairwise_cons.mp sorted
    have below := ih rest
    unfold stretches
    split
    · next none =>
      rw [none] at below
      exact below.cons first
    · next lo hi ranges some =>
      rw [some] at below
      split
      · next touch => exact below.widen touch
      · exact below.cons first

/-- The stretches of one character. -/
def singles (rs : List Range) : List Char := (rs.filter fun r => r.1 = r.2).map (·.1)

theorem isAscending_singles {cs : List Char} {rs : List Range} (h : AreStretches cs rs) :
    Text.IsAscending (singles rs) := by
  have apart : (rs.filter fun r => r.1 = r.2).Pairwise (·.2 < ·.1) := h.apart.filter _
  refine List.pairwise_map.mpr (apart.imp_of_mem fun {r s} hr hs before => ?_)
  have same : r.1 = r.2 := of_decide_eq_true (List.mem_filter.mp hr).2
  exact same ▸ before

/-- What stretches cover is covered by those of several characters or is one of those
of one character. -/
theorem covered_or_mem_singles {rs : List Range} {c : Char} :
    Covered rs c ↔ Covered (rs.filter fun r => r.1 ≠ r.2) c ∨ c ∈ singles rs := by
  constructor
  · rintro ⟨r, hr, covered⟩
    by_cases same : r.1 = r.2
    · have is : r.1 = c := by
        have bounds := covers_iff.mp covered
        rw [← same] at bounds
        exact Char.toNat_inj.mp (Nat.le_antisymm bounds.1 bounds.2)
      exact .inr (List.mem_map.mpr ⟨r, List.mem_filter.mpr ⟨hr, decide_eq_true same⟩, is⟩)
    · exact .inl ⟨r, List.mem_filter.mpr ⟨hr, decide_eq_true same⟩, covered⟩
  · rintro (⟨r, hr, covered⟩ | member)
    · exact ⟨r, (List.mem_filter.mp hr).1, covered⟩
    · obtain ⟨r, hr, rfl⟩ := List.mem_map.mp member
      obtain ⟨inside, same⟩ := List.mem_filter.mp hr
      have same : r.1 = r.2 := of_decide_eq_true same
      exact ⟨r, inside, covers_iff.mpr ⟨Nat.le_refl _, same ▸ Nat.le_refl _⟩⟩

/-! ## Classes -/

theorem covered_flatMap {run : List (CharClass π)} {c : Char} :
    Covered (run.flatMap ranges) c ↔ ∃ cls ∈ run, Covered (ranges cls) c := by
  constructor
  · rintro ⟨r, member, covered⟩
    obtain ⟨cls, inside, given⟩ := List.mem_flatMap.mp member
    exact ⟨cls, inside, r, given, covered⟩
  · rintro ⟨cls, inside, r, given, covered⟩
    exact ⟨r, List.mem_flatMap.mpr ⟨cls, inside, given⟩, covered⟩

section

variable [CharTest π]

/-- Some class of the list accepts the character. -/
def Accepted (run : List (CharClass π)) (c : Char) : Prop := ∃ cls ∈ run, cls.accepts c = true

theorem accepted_append {as bs : List (CharClass π)} {c : Char} :
    Accepted (as ++ bs) c ↔ Accepted as c ∨ Accepted bs c := by
  simp only [Accepted, List.mem_append, or_and_right, exists_or]

/-- A class names what it lists, what its range covers, and what its test accepts. -/
theorem has_iff {cls : CharClass π} {c : Char} :
    cls.Has c ↔
      c ∈ listed cls ∨ Covered (ranges cls) c ∨ (isTest cls = true ∧ cls.accepts c = true) := by
  cases cls <;> simp [CharClass.Has, CharClass.accepts, listed, ranges, isTest, Covered, covers]

theorem accepted_classOf {cs : List Char} (sorted : Text.IsAscending cs) {c : Char} :
    Accepted (classOf cs : List (CharClass π)) c ↔ c ∈ cs := by
  unfold classOf
  split
  · simp [Accepted]
  · simp [Accepted, CharClass.accepts]
  · simp [Accepted, CharClass.accepts, bisect_iff_mem sorted (Nat.le_refl _)]

theorem accepted_rangeClasses {rs : List Range} {c : Char} :
    Accepted (rs.map fun r => (.range r.1 r.2 : CharClass π)) c ↔ Covered rs c := by
  constructor
  · rintro ⟨cls, member, accepted⟩
    obtain ⟨r, hr, rfl⟩ := List.mem_map.mp member
    exact ⟨r, hr, accepted⟩
  · rintro ⟨r, hr, covered⟩
    exact ⟨_, List.mem_map_of_mem hr, covered⟩

theorem accepted_mergeChars (run : List (CharClass π)) {c : Char} :
    Accepted (mergeChars run) c ↔ c ∈ run.flatMap listed ∨ Covered (run.flatMap ranges) c := by
  have pooled := areStretches_stretches (Text.isAscending_ascending (run.flatMap listed))
  have members := (pooled.covered c).trans Text.mem_ascending
  rw [covered_or_mem_singles] at members
  have sorted := isAscending_singles pooled
  unfold mergeChars
  dsimp only
  generalize stretches (Text.ascending (run.flatMap listed)) = rs at members sorted ⊢
  show Accepted (_ ++ classOf ((singles rs).filter _)) c ↔ _
  rw [accepted_append, accepted_rangeClasses, accepted_classOf (sorted.filter _)]
  have joined := @covered_joinRanges (run.flatMap ranges ++ rs.filter fun r => r.1 ≠ r.2) c
  have any : (joinRanges (run.flatMap ranges ++ rs.filter fun r => r.1 ≠ r.2)).any (covers · c) =
      true ↔ Covered (run.flatMap ranges ++ rs.filter fun r => r.1 ≠ r.2) c := by
    rw [← joined, List.any_eq_true]
    rfl
  rw [joined, List.mem_filter, Bool.not_eq_true', ← Bool.not_eq_true, any, ← members,
    covered_append]
  grind

/-- Some class of the merged run accepts a character exactly if some class of the run names it,
also if there are inverted ranges and lists that are not ascending. -/
theorem accepted_merge_iff_has {run : List (CharClass π)} {c : Char} :
    Accepted (merge run) c ↔ ∃ cls ∈ run, cls.Has c := by
  have tests : Accepted (run.filter isTest) c ↔
      ∃ cls ∈ run, isTest cls = true ∧ cls.accepts c = true := by
    simp only [Accepted, List.mem_filter, and_assoc]
  rw [merge, accepted_append, accepted_mergeChars, tests, covered_flatMap, List.mem_flatMap,
    or_assoc]
  simp only [has_iff, and_or_left, exists_or]

/-- A merged run accepts the characters that the run accepts. -/
theorem accepts_merge_iff {run : List (CharClass π)} (proper : ∀ cls ∈ run, cls.Proper)
    {c : Char} : Accepted (merge run) c ↔ Accepted run c :=
  accepted_merge_iff_has.trans <| exists_congr fun cls =>
    and_congr_right fun member => CharClass.has_iff_accepts (proper cls member)

end

/-- Neighbours are pooled into one range, whatever classes list them. -/
example : merge [.range 'a' 'c', .only 'e', .oneOf ['d', 'x'], .only 'b'] =
    ([.range 'a' 'e', .only 'x'] : List (CharClass Empty)) := by decide

theorem proper_classOf {cs : List Char} (sorted : Text.IsAscending cs) :
    ∀ cls ∈ (classOf cs : List (CharClass π)), cls.Proper := by
  unfold classOf
  split
  · exact nofun
  · intro cls member
    rw [List.mem_singleton.mp member]
    exact trivial
  · next none _ =>
    intro cls member
    rw [List.mem_singleton.mp member]
    exact ⟨none, sorted⟩

/-- Merging keeps classes in proper form. -/
theorem proper_merge {run : List (CharClass π)} (proper : ∀ cls ∈ run, cls.Proper) :
    ∀ cls ∈ merge run, cls.Proper := by
  have pooled := areStretches_stretches (Text.isAscending_ascending (run.flatMap listed))
  intro cls member
  rcases List.mem_append.mp member with merged | test
  · unfold mergeChars at merged
    rcases List.mem_append.mp merged with range | single
    · obtain ⟨r, hr, rfl⟩ := List.mem_map.mp range
      refine le_of_mem_joinRanges (fun s hs => ?_) hr
      rcases List.mem_append.mp hs with given | pool
      · obtain ⟨cls, inside, here⟩ := List.mem_flatMap.mp given
        cases cls with
        | range lo hi =>
          rw [List.mem_singleton.mp here]
          exact proper _ inside
        | only | oneOf | satisfying => exact absurd here List.not_mem_nil
      · exact pooled.le s (List.mem_filter.mp pool).1
    · exact proper_classOf ((isAscending_singles pooled).filter _) cls single
  · exact proper cls (List.mem_filter.mp test).1

/-- A run that has classes still has one when it is merged. -/
theorem merge_ne_nil [CharTest π] {run : List (CharClass π)} (some : run ≠ [])
    (proper : ∀ cls ∈ run, cls.Proper) : merge run ≠ [] := by
  obtain ⟨cls, member⟩ := List.exists_mem_of_ne_nil run some
  by_cases test : isTest cls = true
  · exact List.append_ne_nil_of_right_ne_nil _
      (List.ne_nil_of_mem (List.mem_filter.mpr ⟨member, test⟩))
  · have names : ∃ c, cls.Has c := by
      have form := proper cls member
      cases cls with
      | only c => exact ⟨c, rfl⟩
      | range lo hi => exact ⟨lo, Char.le_refl lo, form⟩
      | oneOf cs => exact List.exists_mem_of_ne_nil cs form.1
      | satisfying p => exact absurd rfl test
    obtain ⟨c, has⟩ := names
    obtain ⟨found, inside, _⟩ := accepted_merge_iff_has.mpr ⟨cls, member, has⟩
    exact List.ne_nil_of_mem inside

end CharRun

end Peg
