import Mathlib.Data.List.Chain
import Peg.Proofs.MergedRuns
import Peg.Proofs.OptimizedForm

/-!
# Optimized matchers are in normal form

A matcher is in normal form (`Matcher.Normal`) if none of its nodes calls for any of the
rewrites. Optimizing any matcher, formed or not, puts it into normal form in one pass
(`Matcher.normal_optimize`), and a matcher in normal form is optimized already
(`Matcher.Normal.optimize_eq`). So optimizing twice is optimizing once
(`Matcher.optimize_idempotent`).

That one pass is enough for the runs of a choice rests on two facts. Between two runs of a
list there is always a member that is no single character, so merging one run never brings
it next to another (`Matcher.exists_of_run_mem_segments`). And a run that is merged has
nothing more to merge (`CharRun.Merged.merge_eq`).
-/

namespace Peg

/-! ## Runs of a list -/

namespace Segment

variable {α : Type}

def isRun : Segment α → Bool
  | run _ => true
  | other _ => false

end Segment

section

variable {α : Type} {inRun : α → Bool}

theorem segments_cons_of_not {a : α} (h : inRun a = false) (as : List α) :
    segments inRun (a :: as) = .other a :: segments inRun as := by
  rw [segments, if_neg (Bool.eq_false_iff.mp h)]

/-- No run stands next to another. -/
theorem isChain_segments (inRun : α → Bool) (as : List α) :
    (segments inRun as).IsChain fun s t => s.isRun = true → t.isRun = false := by
  induction as with
  | nil => exact .nil
  | cons a as ih =>
    unfold segments
    split
    · split
      · next found =>
        rw [found] at ih
        obtain ⟨first, rest⟩ := List.isChain_cons.mp ih
        exact List.isChain_cons.mpr ⟨fun t ht _ => first t ht rfl, rest⟩
      · next none =>
        refine List.isChain_cons.mpr ⟨fun t ht _ => ?_, ih⟩
        cases t with
        | run ms =>
          obtain ⟨rest, found⟩ := List.head?_eq_some_iff.mp ht
          exact absurd found (none ms rest)
        | other m => rfl
    · exact List.isChain_cons.mpr ⟨fun _ _ isRun => absurd isRun Bool.false_ne_true, ih⟩

/-- What stands before a member that is in no run is a run of its own. -/
theorem segments_append {as bs : List α} (some : as ≠ []) (chars : ∀ a ∈ as, inRun a = true)
    (next : ∀ b ∈ bs.head?, inRun b = false) :
    segments inRun (as ++ bs) = .run as :: segments inRun bs := by
  induction as with
  | nil => exact absurd rfl some
  | cons a as ih =>
    obtain ⟨first, rest⟩ := List.forall_mem_cons.mp chars
    rw [List.cons_append, segments, if_pos first]
    cases as with
    | nil =>
      cases bs with
      | nil => rfl
      | cons b bs => rw [List.nil_append, segments_cons_of_not (next b rfl)]
    | cons a' as => rw [ih (List.cons_ne_nil a' as) rest]

end

namespace Matcher

variable {π : Type}

theorem isSingleChar_of_mem_mergeSegment {run : List (Matcher π)} {m : Matcher π}
    (hm : m ∈ mergeSegment (.run run)) : m.isSingleChar = true := by
  obtain ⟨cls, _, rfl⟩ := List.mem_map.mp hm
  rfl

/-- The runs that are left when runs are merged are merged runs. -/
theorem exists_of_run_mem_segments {segs : List (Segment (Matcher π))}
    (alternate : segs.IsChain fun s t => s.isRun = true → t.isRun = false)
    (fits : ∀ s ∈ segs, s.Fits isSingleChar) {run : List (Matcher π)}
    (h : .run run ∈ segments isSingleChar (segs.flatMap mergeSegment)) :
    ∃ ms, run = mergeSegment (.run ms) := by
  induction segs with
  | nil => exact absurd h List.not_mem_nil
  | cons s segs ih =>
    obtain ⟨first, rest⟩ := List.isChain_cons.mp alternate
    obtain ⟨fit, others⟩ := List.forall_mem_cons.mp fits
    rw [List.flatMap_cons] at h
    cases s with
    | other m =>
      rw [mergeSegment, List.singleton_append, segments_cons_of_not fit] at h
      rcases List.mem_cons.mp h with same | later
      · cases same
      · exact ih rest others later
    | run ms =>
      by_cases none : mergeSegment (.run ms) = []
      · rw [none, List.nil_append] at h
        exact ih rest others h
      · -- Behind a run stands a member of another kind, and that is kept.
        have next : ∀ m ∈ (segs.flatMap mergeSegment).head?, m.isSingleChar = false := by
          cases segs with
          | nil => exact fun _ hm => absurd hm (Option.not_mem_none _)
          | cons t segs =>
            cases t with
            | run ms' => exact absurd (first _ rfl rfl).symm Bool.false_ne_true
            | other m' =>
              rintro m ⟨⟩
              exact (List.forall_mem_cons.mp others).1
        rw [segments_append none (fun _ => isSingleChar_of_mem_mergeSegment) next] at h
        rcases List.mem_cons.mp h with same | later
        · cases same
          exact ⟨ms, rfl⟩
        · exact ih rest others later

/-! ## Normal form -/

def isChoice : Matcher π → Bool
  | choice _ => true
  | _ => false

theorem isChoice_eq_false_iff {m : Matcher π} : m.isChoice = false ↔ ∀ ms, m ≠ choice ms := by
  cases m <;> simp [isChoice]

/-- Every maximal run of single characters in the list is merged. -/
def RunsMerged (ms : List (Matcher π)) : Prop :=
  ∀ run, .run run ∈ segments isSingleChar ms → CharRun.Merged (run.filterMap charClass?)

/-- The node calls for no rewrite. -/
def NormalNode : Matcher π → Prop
  | choice ms => ms.length ≠ 1 ∧ (∀ m ∈ ms, m.isChoice = false) ∧ RunsMerged ms
  | optional m => m.isOptional = false
  | _ => True

abbrev Normal (m : Matcher π) : Prop := m.Every NormalNode

theorem normal_iff {m : Matcher π} :
    m.Normal ↔ m.NormalNode ∧ ∀ c ∈ m.children, c.Normal := every_iff

theorem Normal.node {m : Matcher π} (h : m.Normal) : m.NormalNode := (normal_iff.mp h).1

theorem Normal.child {m c : Matcher π} (h : m.Normal) (hc : c ∈ m.children) : c.Normal :=
  (normal_iff.mp h).2 c hc

theorem normal_of_leaf {m : Matcher π} (node : m.NormalNode) (leaf : m.children = []) : m.Normal :=
  normal_iff.mpr ⟨node, leaf ▸ List.forall_mem_nil _⟩

theorem alternatives_eq_self {m : Matcher π} (h : m.isChoice = false) : m.alternatives = [m] := by
  unfold alternatives
  split
  · exact absurd rfl (isChoice_eq_false_iff.mp h _)
  · rfl

/-- The alternatives of a matcher in normal form are in normal form and no choices. -/
theorem Normal.of_mem_alternatives {m n : Matcher π} (h : m.Normal) (hn : n ∈ m.alternatives) :
    n.Normal ∧ n.isChoice = false := by
  unfold alternatives at hn
  split at hn
  · exact ⟨h.child hn, h.node.2.1 n hn⟩
  · next single =>
    rw [List.mem_singleton.mp hn]
    exact ⟨h, isChoice_eq_false_iff.mpr single⟩

/-- Whatever a choice of children in normal form is reduced to is in normal form. -/
theorem normal_of_mem_reduceChoice {ms : List (Matcher π)} (normal : ∀ m ∈ ms, m.Normal)
    {n : Matcher π} (hn : n ∈ reduceChoice ms) : n.Normal ∧ n.isChoice = false := by
  obtain ⟨s, hs, inside⟩ := List.mem_flatMap.mp hn
  cases s with
  | run members =>
    obtain ⟨cls, _, rfl⟩ := List.mem_map.mp inside
    exact ⟨normal_of_leaf trivial rfl, rfl⟩
  | other m =>
    have member : m ∈ ms.flatMap alternatives := by
      rw [← flatMap_members_segments isSingleChar (ms.flatMap alternatives)]
      exact List.mem_flatMap.mpr ⟨_, hs, List.mem_singleton_self m⟩
    obtain ⟨c, hc, alternative⟩ := List.mem_flatMap.mp member
    rw [List.mem_singleton.mp inside]
    exact (normal c hc).of_mem_alternatives alternative

theorem runsMerged_reduceChoice (ms : List (Matcher π)) : RunsMerged (reduceChoice ms) := by
  intro run h
  obtain ⟨members, rfl⟩ :=
    exists_of_run_mem_segments (isChain_segments _ _) (fits_segments _ _) h
  rw [mergeSegment, filterMap_charClass?_map_char]
  exact CharRun.merged_merge _

theorem normal_choiceOf {ms : List (Matcher π)}
    (normal : ∀ m ∈ ms, m.Normal ∧ m.isChoice = false) (merged : RunsMerged ms) :
    (choiceOf ms).Normal := by
  unfold choiceOf
  split
  · next m => exact (normal m List.mem_cons_self).1
  · next many =>
    refine normal_iff.mpr ⟨⟨fun one => ?_, fun m hm => (normal m hm).2, merged⟩,
      fun m hm => (normal m hm).1⟩
    obtain ⟨m, rfl⟩ := List.length_eq_one_iff.mp one
    exact many m rfl

theorem normal_optionalOf {m : Matcher π} (normal : m.Normal) : (optionalOf m).Normal := by
  unfold optionalOf
  split
  · exact normal
  · next single =>
    exact normal_iff.mpr
      ⟨isOptional_eq_false_iff.mpr single, List.forall_mem_singleton.mpr normal⟩

/-- Optimized matchers are in normal form, whatever they were made from. -/
theorem normal_optimize (m : Matcher π) : m.optimize.Normal := by
  induction m with
  | choice ms ih =>
    have normal : ∀ m ∈ optimizeAll ms, m.Normal := by
      rw [optimizeAll_eq_map]
      exact List.forall_mem_map.mpr ih
    exact normal_choiceOf (fun _ => normal_of_mem_reduceChoice normal) (runsMerged_reduceChoice _)
  | optional m ih => exact normal_optionalOf ih
  | sequence ms ih =>
    rw [optimize, optimizeAll_eq_map]
    exact normal_iff.mpr ⟨trivial, List.forall_mem_map.mpr ih⟩
  | repetition m min max ih | absent m ih | rule name m ih | ignore m ih | join m ih | mark m ih
  | save name m ih => exact normal_iff.mpr ⟨trivial, List.forall_mem_singleton.mpr ih⟩
  | char cls | text t | endOfInput | ref name | load name => exact normal_of_leaf trivial rfl

/-- A childless choice is spliced like any other, and an inverted range is kept. -/
example :
    (choice [char (.range 'z' 'y'), choice [], choice [char (.only 'd'), char (.oneOf ['c', 'a'])],
      optional (choice [optional endOfInput])] : Matcher Empty).optimize =
      choice [char (.range 'c' 'd'), char (.range 'z' 'y'), char (.only 'a'),
        optional endOfInput] := by decide

/-! ## Matchers in normal form -/

/-- Children that are no choices and whose runs are merged are left alone. -/
theorem reduceChoice_eq_self {ms : List (Matcher π)} (flat : ∀ m ∈ ms, m.isChoice = false)
    (merged : RunsMerged ms) : reduceChoice ms = ms := by
  have whole : ms.flatMap alternatives = ms := by
    rw [List.flatMap_congr fun m hm => alternatives_eq_self (flat m hm), List.flatMap_singleton']
  have pieces : ∀ s ∈ segments isSingleChar ms, mergeSegment s = s.members := by
    intro s hs
    cases s with
    | run members =>
      obtain ⟨run, rfl⟩ := exists_map_char (fits_segments isSingleChar ms _ hs).2
      have same := merged _ hs
      rw [filterMap_charClass?_map_char] at same
      rw [mergeSegment, filterMap_charClass?_map_char, same.merge_eq]
      rfl
    | other m => rfl
  rw [reduceChoice, whole, List.flatMap_congr pieces, flatMap_members_segments]

theorem choiceOf_eq_choice {ms : List (Matcher π)} (h : ms.length ≠ 1) :
    choiceOf ms = choice ms := by
  unfold choiceOf
  split
  · exact absurd rfl h
  · rfl

theorem optionalOf_eq_optional {m : Matcher π} (h : m.isOptional = false) :
    optionalOf m = optional m := by
  unfold optionalOf
  split
  · exact absurd rfl (isOptional_eq_false_iff.mp h _)
  · rfl

theorem optimizeAll_eq_self {ms : List (Matcher π)} (h : ∀ m ∈ ms, m.optimize = m) :
    optimizeAll ms = ms := by
  rw [optimizeAll_eq_map, List.map_congr_left h, List.map_id']

/-- A matcher in normal form is optimized already. -/
theorem Normal.optimize_eq {m : Matcher π} (h : m.Normal) : m.optimize = m := by
  induction m with
  | choice ms ih =>
    obtain ⟨many, flat, merged⟩ := h.node
    rw [optimize, optimizeAll_eq_self fun m hm => ih m hm (h.child hm),
      reduceChoice_eq_self flat merged, choiceOf_eq_choice many]
  | optional m ih =>
    rw [optimize, ih (h.child List.mem_cons_self), optionalOf_eq_optional h.node]
  | sequence ms ih => rw [optimize, optimizeAll_eq_self fun m hm => ih m hm (h.child hm)]
  | repetition m min max ih | absent m ih | rule name m ih | ignore m ih | join m ih | mark m ih
  | save name m ih => rw [optimize, ih (h.child List.mem_cons_self)]
  | char cls | text t | endOfInput | ref name | load name => rfl

/-- Optimizing an optimized matcher changes nothing, whatever it was made from. -/
theorem optimize_idempotent (m : Matcher π) : m.optimize.optimize = m.optimize :=
  (normal_optimize m).optimize_eq

end Matcher

end Peg
