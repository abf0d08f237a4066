import Mathlib.Data.List.Infix
import Peg.Proofs.NormalForm

/-!
# The choices of optimized matchers

A matcher in normal form calls for no rewrite. Here it is told what that means for the choices
of an optimized matcher, if the matcher that it was made from has passed a check: there are at
least two alternatives and none of them is a choice, and wherever alternatives of a single
character stand together, a longest stretch of them looks as `Matcher.NormalRun` says
(`Matcher.choices_optimize`).

Tests cannot be merged, so all of them are kept. Read from left to right they are the same in
the optimized matcher as in the matcher itself (`Matcher.tests_optimize`). The tests of a run are
a piece of that list, so they stand in the order in which they were given.
-/

namespace Peg

/-! ## Maximal runs -/

section

variable {α : Type} {inRun : α → Bool}

theorem segments_ne_nil {as : List α} (some : as ≠ []) : segments inRun as ≠ [] := by
  obtain ⟨a, as, rfl⟩ := List.exists_cons_of_ne_nil some
  unfold segments
  split
  · split <;> exact List.cons_ne_nil _ _
  · exact List.cons_ne_nil _ _

/-- Behind a member that is in no run, the segments are those of what stands there. -/
theorem segments_append_of_last {before behind : List α}
    (last : ∀ a ∈ before.getLast?, inRun a = false) :
    segments inRun (before ++ behind) = segments inRun before ++ segments inRun behind := by
  induction before with
  | nil => rfl
  | cons a before ih =>
    by_cases none : before = []
    · subst none
      have other := last a rfl
      rw [List.singleton_append, segments_cons_of_not other, segments_cons_of_not other]
      rfl
    · have last : ∀ b ∈ before.getLast?, inRun b = false := by
        rwa [List.getLast?_cons_of_ne_nil none] at last
      -- There is a first segment of `before`, and that is what `a` is put to, if to any.
      obtain ⟨first, rest, found⟩ := List.exists_cons_of_ne_nil (segments_ne_nil none)
      rw [List.cons_append, segments, segments, ih last, found, List.cons_append]
      split
      · cases first <;> rfl
      · rfl

end

namespace Matcher

variable {π : Type}

/-- A longest stretch of single characters in a list. -/
structure MaximalRun (ms run : List (Matcher π)) : Prop where
  some : run ≠ []
  chars : ∀ m ∈ run, m.isSingleChar = true
  maximal : ∃ before behind, ms = before ++ run ++ behind ∧
    (∀ m ∈ before.getLast?, m.isSingleChar = false) ∧
    ∀ m ∈ behind.head?, m.isSingleChar = false

theorem MaximalRun.isInfix {ms run : List (Matcher π)} (h : MaximalRun ms run) : run <:+: ms :=
  let ⟨before, behind, whole, _⟩ := h.maximal
  ⟨before, behind, whole.symm⟩

theorem MaximalRun.mem_segments {ms run : List (Matcher π)} (h : MaximalRun ms run) :
    .run run ∈ segments isSingleChar ms := by
  obtain ⟨before, behind, rfl, last, next⟩ := h.maximal
  rw [List.append_assoc, segments_append_of_last last, segments_append h.some h.chars next]
  exact List.mem_append_right _ List.mem_cons_self

end Matcher

/-! ## Tests in their order -/

namespace CharRun

variable {π : Type}

theorem filterMap_test?_ofParts (rs : List Range) (cs : List Char) (tests : List (CharClass π)) :
    (ofParts rs cs tests).filterMap (·.test?) = tests.filterMap (·.test?) := by
  have chars : (classOf cs : List (CharClass π)).filterMap (·.test?) = [] := by
    unfold classOf
    split <;> rfl
  rw [ofParts, List.filterMap_append, List.filterMap_append, chars]
  simp [List.filterMap_map, CharClass.test?]

theorem filterMap_test?_filter (run : List (CharClass π)) :
    (run.filter isTest).filterMap (·.test?) = run.filterMap (·.test?) := by
  rw [List.filterMap_filter]
  refine List.filterMap_congr fun cls _ => ?_
  cases cls <;> rfl

/-- Merging a run keeps its tests in their order. -/
theorem filterMap_test?_merge (run : List (CharClass π)) :
    (merge run).filterMap (·.test?) = run.filterMap (·.test?) :=
  (filterMap_test?_ofParts _ _ _).trans (filterMap_test?_filter run)

theorem map_satisfying_filterMap {tests : List (CharClass π)}
    (named : ∀ cls ∈ tests, isTest cls = true) :
    (tests.filterMap (·.test?)).map .satisfying = tests := by
  induction tests with
  | nil => rfl
  | cons cls tests ih =>
    obtain ⟨first, rest⟩ := List.forall_mem_cons.mp named
    cases cls with
    | satisfying p => exact congrArg (.satisfying p :: ·) (ih rest)
    | only | range | oneOf => exact absurd first Bool.false_ne_true

end CharRun

namespace Matcher

variable {π : Type}

/-- Optimizing neither drops nor adds nor moves a test. -/
theorem tests_optimize (m : Matcher π) : m.optimize.tests = m.tests := by
  refine filterMap_subtrees_optimize (fun _ => rfl) (fun _ => rfl) CharRun.filterMap_test?_merge
    (fun m noChoice notOptional => ?_) m
  cases m with
  | choice ms => exact absurd rfl (noChoice ms)
  | optional n => exact absurd rfl (notOptional n)
  | _ => rfl

theorem subtrees_isInfix {m n : Matcher π} (h : n ∈ m.subtrees) : n.subtrees <:+: m.subtrees := by
  induction m using induct_children with
  | step m ih =>
    rw [subtrees_eq] at h
    rcases List.mem_cons.mp h with rfl | below
    · exact List.infix_rfl
    · obtain ⟨c, hc, inside⟩ := List.mem_flatMap.mp below
      rw [subtrees_eq m]
      exact ((ih c hc inside).trans (List.infix_flatMap_of_mem hc subtrees)).trans
        (List.infix_cons List.infix_rfl)

/-- The tests of a run of a choice stand together among those of a matcher that the choice is
part of. -/
theorem tests_isInfix_of_run {m : Matcher π} {ms : List (Matcher π)} {run : List (CharClass π)}
    (h : choice ms ∈ m.subtrees) (part : run.map char <:+: ms) :
    run.filterMap (·.test?) <:+: m.tests := by
  obtain ⟨before, behind, rfl⟩ := part
  have leaves : (run.map char).flatMap subtrees = run.map char := by
    rw [List.flatMap_map]
    exact List.map_eq_flatMap.symm
  have inside : run.map char <:+: (choice (before ++ run.map char ++ behind)).subtrees := by
    rw [subtrees_eq, children, List.flatMap_append, List.flatMap_append, leaves]
    exact List.infix_cons ⟨_, _, rfl⟩
  have pieces := (inside.trans (subtrees_isInfix h)).filterMap test?
  rwa [List.filterMap_map] at pieces

/-! ## The form of the choices -/

/-- The form of a run that has nothing to merge: ranges in order with code points between one and
the next, then at most one class of single characters, also with code points between them and
outside of the ranges, and then tests. The tests are a piece of `order`. -/
inductive NormalRun (order : List π) : List (Matcher π) → Prop
  | intro {rs : List CharRun.Range} {cs : List Char} {ps : List π}
      (ranges : ∀ r ∈ rs, r.1 ≤ r.2)
      (apart : rs.Pairwise fun r s => r.2.toNat + 1 < s.1.toNat)
      (ascending : Text.IsAscending cs)
      (isolated : cs.Pairwise fun a b => a.toNat + 1 ≠ b.toNat)
      (outside : ∀ c ∈ cs, ∀ r ∈ rs, ¬ (r.1 ≤ c ∧ c ≤ r.2))
      (tests : ps <:+: order) :
      NormalRun order
        (rs.map (fun r => char (.range r.1 r.2)) ++ (CharRun.classOf cs).map char ++
          ps.map fun p => char (.satisfying p))

theorem normalRun_of_merged {order : List π} {run : List (CharClass π)}
    (merged : CharRun.Merged run) (proper : ∀ cls ∈ run, cls.Proper)
    (tests : run.filterMap (·.test?) <:+: order) : NormalRun order (run.map char) := by
  obtain ⟨apart, isolated, outside, named⟩ := merged
  next rs cs last =>
  have whole : (CharRun.ofParts rs cs last).map char =
      rs.map (fun r => char (.range r.1 r.2)) ++ (CharRun.classOf cs).map char ++
        (last.filterMap (·.test?)).map fun p => char (.satisfying p) := by
    have named := congrArg (List.map char) (CharRun.map_satisfying_filterMap named)
    rw [List.map_map] at named
    rw [CharRun.ofParts, List.map_append, List.map_append, List.map_map]
    exact congrArg (_ ++ ·) named.symm
  rw [CharRun.filterMap_test?_ofParts] at tests
  rw [whole]
  refine .intro (fun r hr => ?_) (apart.imp And.right) isolated.isAscending
    (isolated.imp Nat.ne_of_lt) (fun c hc r hr inside => ?_) tests
  · refine proper (.range r.1 r.2) ?_
    exact List.mem_append_left _ (List.mem_append_left _ (List.mem_map_of_mem hr))
  · exact outside c hc ⟨r, hr, CharRun.covers_iff.mpr inside⟩

/-- A matcher that has passed a check is optimized. In what comes of it every choice has at least
two alternatives, none of them a choice, and every longest stretch of single characters among them
has the form of a merged run; and no optional matcher is optional twice. The tests are those of the
matcher in their order. -/
theorem choices_optimize [CharTest π] {τ : Type} {t : RuleTable π τ} {m : Matcher π}
    (checked : t.problem? m = none) :
    m.optimize.tests = m.tests ∧
    (∀ ms, choice ms ∈ m.optimize.subtrees →
      2 ≤ ms.length ∧ (∀ c ∈ ms, c.isChoice = false) ∧
      ∀ run, MaximalRun ms run → NormalRun m.tests run) ∧
    ∀ inner, optional inner ∈ m.optimize.subtrees → inner.isOptional = false := by
  obtain ⟨_, formed⟩ := RuleTable.problem?_eq_none_iff.mp checked
  have normal := normal_optimize m
  have formed := formed.optimize
  refine ⟨tests_optimize m, fun ms hm => ?_, fun inner hm => normal _ hm⟩
  obtain ⟨many, flat, merged⟩ := normal _ hm
  obtain ⟨some, inside⟩ := formed_choice.mp (formed.subtree hm)
  refine ⟨?_, flat, fun run h => ?_⟩
  · have positive := List.length_pos_of_ne_nil some
    omega
  · obtain ⟨classes, rfl⟩ := exists_map_char h.chars
    have form := merged _ h.mem_segments
    rw [filterMap_charClass?_map_char] at form
    refine normalRun_of_merged form (fun cls member => ?_) ?_
    · exact formed_char.mp (inside _ (h.isInfix.subset (List.mem_map_of_mem member)))
    · rw [← tests_optimize]
      exact tests_isInfix_of_run hm h.isInfix

/-- Two tests and four characters, some of them within an inner choice, become one run in front of
a text. The inner choice is merged first, so two of its characters are a range by then, and the one
that touches it stays a character. -/
theorem choices_optimize_two_runs :
    let _ : CharTest Bool :=
      ⟨fun upper => if upper then "upper" else "digit",
        fun upper c => if upper then c.isUpper else c.isDigit⟩
    let m : Matcher Bool :=
      .choice [.char (.satisfying true), .char (.only 'c'),
        .choice [.char (.oneOf ['a', 'x']), .char (.satisfying false), .char (.only 'b')],
        .text ['a', 'b'], .char (.only 'd')]
    let run : List (Matcher Bool) :=
      [.char (.range 'a' 'b'), .char (.oneOf ['c', 'x']), .char (.satisfying true),
        .char (.satisfying false)]
    let ms : List (Matcher Bool) := run ++ [.text ['a', 'b'], .char (.only 'd')]
    (RuleTable.empty : RuleTable Bool Nat).problem? m = none ∧ m.optimize = .choice ms ∧
      2 ≤ ms.length ∧ MaximalRun ms run ∧ NormalRun m.tests run := by
  intro _ m run ms
  have checked : (RuleTable.empty : RuleTable Bool Nat).problem? m = none := by decide
  have optimized : m.optimize = .choice ms := by decide
  have maximal : MaximalRun ms run :=
    ⟨List.cons_ne_nil _ _, by decide, [], [.text ['a', 'b'], .char (.only 'd')], rfl, nofun,
      by rintro _ ⟨⟩; rfl⟩
  obtain ⟨-, normal, -⟩ := choices_optimize checked
  obtain ⟨many, -, runs⟩ := normal ms (optimized ▸ mem_subtrees_self _)
  exact ⟨checked, optimized, many, maximal, runs run maximal⟩

end Matcher

end Peg
