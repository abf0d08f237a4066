import Peg.Proofs.ReaderSessions

/-!
# What a choice fails with

A choice tries its alternatives one after the other, goes back after each that fails, and keeps
the failure that went furthest. Going back restores the whole state. So every alternative does
what it would do on its own where the choice begins, whatever the earlier ones did before they
failed (`Engine.choose_cons`).

`Engine.step_choice_fails` tells what a choice fails with. Where no alternative matches and none
fails fatally, the choice is exhausted, and the cause is the failure that went furthest, of several
that of the earliest alternative (`FirstFurthest`). Where an alternative fails fatally behind others
that have only failed, the choice fails as it does.
-/

namespace Peg

/-! ## The failure that went furthest -/

/-- The first of the failures that go furthest: those before it do not go as far, and those
behind it go no further. -/
def FirstFurthest (errors : List MatchError) (best : MatchError) : Prop :=
  ∃ before behind, errors = before ++ best :: behind ∧
    (∀ x ∈ before, x.reach < best.reach) ∧ ∀ x ∈ behind, x.reach ≤ best.reach

namespace FirstFurthest

variable {errors : List MatchError} {best x : MatchError}

theorem single (x : MatchError) : FirstFurthest [x] x := ⟨[], [], rfl, nofun, nofun⟩

theorem reach_le (h : FirstFurthest errors best) (hx : x ∈ errors) : x.reach ≤ best.reach := by
  obtain ⟨before, behind, rfl, less, le⟩ := h
  simp only [List.mem_append, List.mem_cons] at hx
  rcases hx with early | rfl | late
  · exact Nat.le_of_lt (less x early)
  · exact Nat.le_refl _
  · exact le x late

/-- With one failure more, the first that goes furthest is the further of that and the first
before. -/
theorem further (h : FirstFurthest errors best) (x : MatchError) :
    FirstFurthest (errors ++ [x]) (Step.further (some best) x) := by
  unfold Step.further
  dsimp only
  split
  · next le =>
    obtain ⟨before, behind, rfl, less, behind_le⟩ := h
    refine ⟨before, behind ++ [x], by simp, less, fun y hy => ?_⟩
    rcases List.mem_append.mp hy with old | new
    · exact behind_le y old
    · exact List.mem_singleton.mp new ▸ le
  · next further =>
    refine ⟨errors, [], rfl, fun y hy => ?_, nofun⟩
    exact Nat.lt_of_le_of_lt (h.reach_le hy) (Nat.not_le.mp further)

/-- Of several failures at most one is the first that goes furthest. -/
theorem unique (h : FirstFurthest errors best) (h' : FirstFurthest errors x) : best = x := by
  obtain ⟨before, behind, split, less, le⟩ := h
  obtain ⟨before', behind', split', less', le'⟩ := h'
  rcases List.append_eq_append_iff.mp (split.symm.trans split') with
    ⟨between, rfl, tail⟩ | ⟨between, rfl, tail⟩
  · rcases between with _ | ⟨y, between⟩
    · exact (List.cons.inj tail).1
    · obtain ⟨rfl, rfl⟩ := List.cons.inj tail
      have further : best.reach < x.reach := less' best (by simp)
      exact absurd further (Nat.not_lt.mpr (le x (by simp)))
  · rcases between with _ | ⟨y, between⟩
    · exact (List.cons.inj tail).1.symm
    · obtain ⟨rfl, rfl⟩ := List.cons.inj tail
      have further : x.reach < best.reach := less x (by simp)
      exact absurd further (Nat.not_lt.mpr (le' best (by simp)))

end FirstFurthest

theorem MatchError.chain_inj {x y : MatchError} : x.chain = y.chain ↔ x = y := by
  cases x
  cases y
  simp [chain]

/-- The failure that is kept of several, if `best` is kept of those before them. -/
def keepFurthest (best : Option MatchError) (errors : List MatchError) : Option MatchError :=
  errors.foldl (fun best x => some (Step.further best x)) best

theorem exists_keepFurthest {seen : List MatchError} {kept : MatchError}
    (h : FirstFurthest seen kept) (errors : List MatchError) :
    ∃ best, keepFurthest (some kept) errors = some best ∧ FirstFurthest (seen ++ errors) best := by
  induction errors generalizing seen kept with
  | nil => exact ⟨kept, rfl, by rwa [List.append_nil]⟩
  | cons x errors ih =>
    obtain ⟨best, same, first⟩ := ih (h.further x)
    exact ⟨best, same, by rwa [List.append_assoc] at first⟩

/-- What is kept of one failure or more is the first that goes furthest. -/
theorem exists_firstFurthest {errors : List MatchError} (some : errors ≠ []) :
    ∃ best, keepFurthest none errors = .some best ∧ FirstFurthest errors best := by
  obtain ⟨x, errors, rfl⟩ := List.exists_cons_of_ne_nil some
  exact exists_keepFurthest (.single x) errors

namespace Engine

variable {π τ : Type} [CharTest π] {e : Engine π τ} {s : State}

/-! ## Alternatives -/

/-- Tried on its own in the state `s`, the matcher fails with `x`, and another one may be tried. -/
def GivesWay (e : Engine π τ) (s : State) (m : Matcher π) (x : MatchError) : Prop :=
  (e.step m s).outcome = .error x ∧ x.isFatal = false

/-- What the alternatives `ms` of a choice that began in the state `s` come to, if `best` is kept
of those before them. -/
def choose (e : Engine π τ) (s : State) (best : Option MatchError) (ms : List (Matcher π)) :
    Except MatchError (Output τ) :=
  (e.evalChoice (e.enter (e.settings.maxDepth - s.depth)) s best ms s).outcome

theorem outcome_choice (ms : List (Matcher π)) :
    (e.step (.choice ms) s).outcome = e.choose s none ms := by
  unfold step eval
  rfl

theorem choose_nil (best : MatchError) :
    e.choose s (some best) [] =
      .error ((MatchError.of .exhausted s.reader.location).causedBy best) := rfl

/-- An alternative is tried as if it were the first. -/
theorem choose_cons (valid : s.reader.Valid) (best : Option MatchError) (m : Matcher π)
    (ms : List (Matcher π)) :
    e.choose s best (m :: ms) =
      match (e.step m s).outcome with
      | .ok output => .ok output
      | .error x =>
        if x.isFatal then .error x else e.choose s (some (Step.further best x)) ms := by
  have follows := e.means_step s.depth m s ⟨valid, rfl⟩
  have back := Step.backTo_eq_of_follows valid follows
  rw [choose, evalChoice]
  unfold Step.orElse
  unfold step at back ⊢
  generalize e.eval (e.enter (e.settings.maxDepth - s.depth)) m s = r at back ⊢
  obtain ⟨outcome, state, log⟩ := r
  cases outcome with
  | ok output => rfl
  | error x =>
    simp only [back]
    split
    · rfl
    · rfl

/-- Alternatives that give way leave the choice to those behind them. -/
theorem choose_append (valid : s.reader.Valid) {before : List (Matcher π)}
    {errors : List MatchError} (failed : List.Forall₂ (e.GivesWay s) before errors)
    (best : Option MatchError) (behind : List (Matcher π)) :
    e.choose s best (before ++ behind) = e.choose s (keepFurthest best errors) behind := by
  induction failed generalizing best with
  | nil => rfl
  | @cons m x before errors first _ ih =>
    rw [List.cons_append, choose_cons valid, first.1]
    simp only [first.2, Bool.false_eq_true, if_false]
    exact ih _

/-- Of any alternatives the first ones give way, up to the last or up to one that does not. -/
theorem exists_givingWay (e : Engine π τ) (s : State) (ms : List (Matcher π)) :
    ∃ before behind errors, ms = before ++ behind ∧ List.Forall₂ (e.GivesWay s) before errors ∧
      ∀ m ∈ behind.head?, ∀ x, ¬ e.GivesWay s m x := by
  induction ms with
  | nil => exact ⟨[], [], [], rfl, .nil, nofun⟩
  | cons m ms ih =>
    by_cases gives : ∃ x, e.GivesWay s m x
    · obtain ⟨x, gives⟩ := gives
      obtain ⟨before, behind, errors, rfl, failed, next⟩ := ih
      exact ⟨m :: before, behind, x :: errors, rfl, .cons gives failed, next⟩
    · refine ⟨[], m :: ms, [], rfl, .nil, ?_⟩
      rintro _ ⟨⟩ x first
      exact gives ⟨x, first⟩

/-! ## The failure of a choice -/

/-- If all alternatives give way, the first failure that goes furthest is the cause. -/
theorem choose_of_givingWay (valid : s.reader.Valid) {ms : List (Matcher π)} (some : ms ≠ [])
    {errors : List MatchError} (failed : List.Forall₂ (e.GivesWay s) ms errors) :
    ∃ best, FirstFurthest errors best ∧
      e.choose s none ms = .error ((MatchError.of .exhausted s.reader.location).causedBy best) := by
  have any : errors ≠ [] := by
    rintro rfl
    cases failed
    exact some rfl
  obtain ⟨best, kept, first⟩ := exists_firstFurthest any
  have all := choose_append valid failed none []
  rw [List.append_nil, kept, choose_nil] at all
  exact ⟨best, first, all⟩

/-- A choice fails if all alternatives give way, or with an alternative that does not give way
and fails. -/
theorem choice_fails_iff (valid : s.reader.Valid) {ms : List (Matcher π)} (some : ms ≠ [])
    (error : MatchError) :
    (e.step (.choice ms) s).outcome = .error error ↔
      (∃ errors best, List.Forall₂ (e.GivesWay s) ms errors ∧ FirstFurthest errors best ∧
        error = (MatchError.of .exhausted s.reader.location).causedBy best) ∨
      (error.isFatal = true ∧ ∃ before m behind errors, ms = before ++ m :: behind ∧
        List.Forall₂ (e.GivesWay s) before errors ∧ (e.step m s).outcome = .error error) := by
  rw [outcome_choice]
  constructor
  · intro fails
    obtain ⟨before, behind, errors, rfl, failed, next⟩ := e.exists_givingWay s ms
    rcases behind with _ | ⟨m, behind⟩
    · rw [List.append_nil] at some fails ⊢
      obtain ⟨best, first, exhausted⟩ := choose_of_givingWay valid some failed
      exact .inl ⟨errors, best, failed, first, Except.error.inj (fails.symm.trans exhausted)⟩
    · rw [choose_append valid failed, choose_cons valid] at fails
      cases last : (e.step m s).outcome with
      | ok output => simp [last] at fails
      | error x =>
        have fatal : x.isFatal = true := by
          by_contra mild
          exact next m rfl x ⟨last, Bool.eq_false_iff.mpr mild⟩
        obtain rfl : x = error := by simpa [last, fatal] using fails
        exact .inr ⟨fatal, before, m, behind, errors, rfl, failed, last⟩
  · rintro (⟨errors, best, failed, first, rfl⟩ |
      ⟨fatal, before, m, behind, errors, rfl, failed, last⟩)
    · obtain ⟨kept, first', exhausted⟩ := choose_of_givingWay valid some failed
      rw [exhausted, first'.unique first]
    · rw [choose_append valid failed, choose_cons valid, last]
      exact if_pos fatal

/-- A choice is exhausted with the failure of an alternative as its cause. Each alternative, tried
on its own from where the choice began and with the texts that were saved then, fails and not
fatally, and the cause is the failure that goes furthest, of several the earliest. The choice fails
fatally with the failure of an alternative, unchanged, if those before it give way. -/
theorem step_choice_fails (e : Engine π τ) {ms : List (Matcher π)} (some : ms ≠ [])
    {s : State} (reachable : s.reader.Reachable) :
    (∀ error, error.top.kind = .exhausted →
      ((e.step (.choice ms) s).outcome = .error error ↔
        ∃ errors best, List.Forall₂ (e.GivesWay s) ms errors ∧ FirstFurthest errors best ∧
          error = (MatchError.of .exhausted s.reader.location).causedBy best)) ∧
    ∀ error, error.isFatal = true →
      ((e.step (.choice ms) s).outcome = .error error ↔
        ∃ before m behind errors, ms = before ++ m :: behind ∧
          List.Forall₂ (e.GivesWay s) before errors ∧ (e.step m s).outcome = .error error) := by
  refine ⟨fun error exhausted => ?_, fun error fatal => ?_⟩
  · rw [choice_fails_iff reachable.valid some]
    have mild : ¬ error.isFatal = true := by
      rw [MatchError.isFatal, exhausted]
      exact Bool.false_ne_true
    exact or_iff_left fun other => mild other.1
  · rw [choice_fails_iff reachable.valid some]
    refine ⟨?_, fun other => .inr ⟨fatal, other⟩⟩
    rintro (⟨errors, best, -, -, rfl⟩ | other)
    · exact absurd fatal Bool.false_ne_true
    · exact other.2

/-- Four alternatives behind the first character of `"xéab"`. The second, which saves `"a"`, and
the third, which wants the text saved before the choice, go equally far. A fifth one names a
missing rule. -/
theorem choice_fails_with_second :
    let e : Engine Empty Nat := ⟨.empty, {}⟩
    let s : State := ⟨((Reader.ofText ['x', 'é', 'a', 'b']).advance 1).save, [("t", ['é', 'a'])], 7⟩
    let four : List (Matcher Empty) :=
      [.char (.only 'c'),
        .sequence [.char (.only 'é'), .save "t" (.char (.only 'a')), .char (.only 'c')],
        .sequence [.load "t", .char (.only 'd')],
        .sequence [.char (.only 'é'), .char (.only 'b')]]
    let fifth : List (Matcher Empty) := [.ref "word", .char (.only 'é')]
    let best : MatchError := .of (.mismatch "'c'") ⟨1, 4, 4⟩
    let fault : MatchError := .of (.internal "rule 'word' is not in the table") ⟨1, 2, 1⟩
    s.reader.Reachable ∧
      (e.step (.choice four) s).outcome =
        .error ((MatchError.of .exhausted ⟨1, 2, 1⟩).causedBy best) ∧
      (∃ errors, List.Forall₂ (e.GivesWay s) four errors ∧ FirstFurthest errors best) ∧
      (e.step (.choice (four ++ fifth)) s).outcome = .error fault ∧
      ∃ before m behind errors, four ++ fifth = before ++ m :: behind ∧
        List.Forall₂ (e.GivesWay s) before errors ∧ (e.step m s).outcome = .error fault := by
  intro e s four fifth best fault
  have reachable : s.reader.Reachable := .save (.advance 1 (.ofText _))
  obtain ⟨exhausted, _⟩ := e.step_choice_fails (by simp [four] : four ≠ []) reachable
  obtain ⟨_, fatal⟩ := e.step_choice_fails (by simp [four] : four ++ fifth ≠ []) reachable
  have fails : (e.step (.choice four) s).outcome =
      .error ((MatchError.of .exhausted ⟨1, 2, 1⟩).causedBy best) := by decide +kernel
  have aborts : (e.step (.choice (four ++ fifth)) s).outcome = .error fault := by decide +kernel
  obtain ⟨errors, cause, failed, first, same⟩ := (exhausted _ rfl).mp fails
  obtain rfl : best = cause := MatchError.chain_inj.mp (congrArg MatchError.causes same)
  exact ⟨reachable, fails, ⟨errors, failed, first⟩, aborts, (fatal _ rfl).mp aborts⟩

end Engine

end Peg
