import Peg.Match.Eval
import Peg.Proofs.MergedRuns

/-!
# Merged runs do not depend on the order of their classes

The characters that a run lists are pooled and its ranges are put in order, so in whatever order
the classes stand, merging makes the same list of them. Only the tests stay in their order
(`CharRun.Rearranged.merge_eq`).

What is made matches the characters that the run names (`CharRun.merge_exact`). Lists are searched
by halving, which may miss members of a list that is not ascending. The one list that a merged run
holds is ascending, whatever lists were given, so the search finds exactly its members.
-/

namespace Peg

/-- Ascending lists with the same members are the same. -/
theorem Text.IsAscending.eq_of_mem_iff {as bs : List Char} (ha : IsAscending as)
    (hb : IsAscending bs) (same : ∀ c, c ∈ as ↔ c ∈ bs) : as = bs := by
  have nodup {cs : List Char} (h : IsAscending cs) : cs.Nodup := h.imp fun lt => Char.ne_of_lt lt
  refine List.Perm.eq_of_pairwise (fun a b _ _ lt gt => ?_) ha hb
    ((List.perm_ext_iff_of_nodup (nodup ha) (nodup hb)).mpr same)
  exact absurd (Char.lt_trans lt gt) (Char.lt_irrefl a)

theorem Text.ascending_congr {as bs : List Char} (same : ∀ c, c ∈ as ↔ c ∈ bs) :
    ascending as = ascending bs :=
  (isAscending_ascending as).eq_of_mem_iff (isAscending_ascending bs) fun c => by
    rw [mem_ascending, mem_ascending, same]

namespace CharRun

variable {π : Type}

/-! ## The order of ranges -/

theorem Before.antisymm {r s : Range} (h : Before r s) (h' : Before s r) : r = s := by
  have begins : r.1 = s.1 := Char.le_antisymm h.le h'.le
  rcases h with lt | ⟨_, le⟩
  · exact absurd lt (begins ▸ Char.lt_irrefl _)
  · rcases h' with lt | ⟨_, le'⟩
    · exact absurd lt (begins ▸ Char.lt_irrefl _)
    · exact Prod.ext begins (Char.le_antisymm le le')

/-- Ranges that are given in another order are joined into the same ranges. -/
theorem joinRanges_eq_of_perm {rs ss : List Range} (h : rs.Perm ss) :
    joinRanges rs = joinRanges ss := by
  have sorted : rs.foldr insertRange [] = ss.foldr insertRange [] :=
    List.Perm.eq_of_pairwise (fun _ _ _ _ => Before.antisymm) (inPlace_foldr_insertRange rs)
      (inPlace_foldr_insertRange ss)
      ((foldr_insertRange_perm rs).trans (h.trans (foldr_insertRange_perm ss).symm))
  rw [joinRanges, joinRanges, sorted]

/-! ## The order of classes -/

/-- The second run has the tests of the first in their order, and its other classes in any
order. -/
structure Rearranged (run run' : List (CharClass π)) : Prop where
  tests : run'.filter isTest = run.filter isTest
  others : (run'.filter (!isTest ·)).Perm (run.filter (!isTest ·))

/-- What no test gives is given by the other classes. -/
theorem flatMap_filter_others {β : Type} {f : CharClass π → List β}
    (none : ∀ cls, isTest cls = true → f cls = []) (run : List (CharClass π)) :
    (run.filter (!isTest ·)).flatMap f = run.flatMap f := by
  induction run with
  | nil => rfl
  | cons cls run ih =>
    rw [List.filter_cons, List.flatMap_cons, ← ih]
    cases test : isTest cls with
    | true => rw [none cls test]; rfl
    | false => rfl

theorem Rearranged.flatMap {β : Type} {f : CharClass π → List β} {run run' : List (CharClass π)}
    (h : Rearranged run run') (none : ∀ cls, isTest cls = true → f cls = []) :
    (run'.flatMap f).Perm (run.flatMap f) := by
  rw [← flatMap_filter_others none run, ← flatMap_filter_others none run']
  exact h.others.flatMap_right f

theorem Rearranged.mergeChars_eq {run run' : List (CharClass π)} (h : Rearranged run run') :
    mergeChars run' = mergeChars run := by
  have listed : Text.ascending (run'.flatMap listed) = Text.ascending (run.flatMap listed) :=
    Text.ascending_congr fun _ => (h.flatMap fun _ test => (eq_nil_of_isTest test).1).mem_iff
  have given := h.flatMap fun _ test => (eq_nil_of_isTest test).2
  unfold mergeChars
  rw [listed]
  dsimp only
  rw [joinRanges_eq_of_perm (given.append_right _)]

theorem Rearranged.merge_eq {run run' : List (CharClass π)} (h : Rearranged run run') :
    merge run' = merge run := by
  rw [merge, merge, h.mergeChars_eq, h.tests]

end CharRun

/-- A class matches the character ahead if it accepts it. -/
theorem Engine.step_char_iff {π τ : Type} [CharTest π] (e : Engine π τ) {s : State} {c : Char}
    (ahead : s.reader.peek 0 = some c) (cls : CharClass π) :
    (e.step (.char cls) s).outcome = .ok (.fragment [c]) ↔ cls.accepts c = true := by
  rw [Engine.step, Engine.eval, Step.char, ahead]
  dsimp only
  split
  · next accepted => exact iff_of_true rfl accepted
  · next refused => exact iff_of_false nofun refused

/-- With a character ahead, some class of a merged run matches it exactly if some class of the run
names it: it lists it, has it in its range, or is a test that accepts it. And the order in which
the classes other than the tests are given makes no difference to the merged run. Nothing is asked
of the run: ranges may be inverted and lists need not be ascending. -/
theorem CharRun.merge_exact {π : Type} [CharTest π] (run : List (CharClass π)) :
    (∀ {τ : Type} (e : Engine π τ) (s : State) (c : Char), s.reader.peek 0 = some c →
      ((∃ cls ∈ merge run, (e.step (.char cls) s).outcome = .ok (.fragment [c])) ↔
        ∃ cls ∈ run, cls.Has c)) ∧
    ∀ run', Rearranged run run' → merge run' = merge run := by
  refine ⟨fun e s c ahead => ?_, fun run' rearranged => rearranged.merge_eq⟩
  simp only [e.step_char_iff ahead]
  exact accepted_merge_iff_has

/-- A list that is not ascending hides its `'c'` from the search, and the merged run matches it.
Between `'\uD7FF'` and `'\uE000'` there are no characters but there are code points, so these two
do not touch. -/
theorem CharRun.merge_exact_hidden_member :
    let _ : CharTest Unit := ⟨fun _ => "digit", fun _ c => c.isDigit⟩
    let run : List (CharClass Unit) :=
      [.only '\uD7FF', .oneOf ['c', 'a'], .satisfying (), .range '\uE000' '\uE001', .only 'b']
    let run' : List (CharClass Unit) :=
      [.range '\uE000' '\uE001', .only 'b', .satisfying (), .only '\uD7FF', .oneOf ['c', 'a']]
    let merged : List (CharClass Unit) :=
      [.range 'a' 'c', .range '\uE000' '\uE001', .only '\uD7FF', .satisfying ()]
    let e : Engine Unit Nat := ⟨.empty, {}⟩
    let s : State := ⟨.ofText ['c'], [], 0⟩
    (CharClass.oneOf ['c', 'a'] : CharClass Unit).accepts 'c' = false ∧
      merge run = merged ∧ s.reader.peek 0 = some 'c' ∧
      (∃ cls ∈ merged, (e.step (.char cls) s).outcome = .ok (.fragment ['c'])) ∧
      Rearranged run run' ∧ merge run' = merged := by
  intro _ run run' merged e s
  have made : merge run = merged := by decide
  have ahead : s.reader.peek 0 = some 'c' := rfl
  have rearranged : Rearranged run run' := ⟨rfl, by decide⟩
  obtain ⟨characters, order⟩ := merge_exact run
  have named : ∃ cls ∈ run, cls.Has 'c' :=
    ⟨.oneOf ['c', 'a'], by decide, List.mem_cons_self⟩
  have found := (characters e s 'c' ahead).mpr named
  exact ⟨by decide, made, ahead, made ▸ found, rearranged, (order run' rearranged).trans made⟩

end Peg
