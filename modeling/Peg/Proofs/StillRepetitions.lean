import Peg.Proofs.SavelessMatchers
import Peg.Proofs.ShiftedRuns
import Peg.Proofs.UnboundedLoops

/-!
# Repetitions that end at a match of no width

A repetition with a maximum ends with the first match that consumes nothing, as if all
further ones were to do the same. The plain loop (`Step.plainRepetition`) goes on until a
match fails or there are as many as allowed. A match of no width may save a text, and then
the next one need not be the same: it may load that text and move on
(`Engine.repetition_ne_plain`), or fail.

The two end alike exactly if the plain loop, once a match has consumed nothing, stays where
it is and finds as many matches as are wanted (`Engine.end_repetition_iff`). So they do where
matches of no width leave the saved texts alone (`Engine.end_repetition_of_kept`), and hence
where nothing is saved at all (`Engine.end_repetition_of_saveless`).
-/

namespace Peg

/-! ## Where a step ends -/

namespace Report

variable {τ : Type}

/-- Where the reader stands after a success. -/
def end? (r : Report τ) : Option Location :=
  match r.outcome with
  | .ok _ => some r.state.reader.location
  | .error _ => none

@[simp] theorem end?_after (r : Report τ) (log : Log) : (r.after log).end? = r.end? := rfl

theorem end?_of_ok {r : Report τ} {output : Output τ} (succeeded : r.outcome = .ok output) :
    r.end? = some r.state.reader.location := by
  rw [end?, succeeded]

theorem end?_andThen {r : Report τ} {output : Output τ} (succeeded : r.outcome = .ok output)
    (next : Step τ) : (r.andThen next).end? = (next r.state).end? := by
  unfold andThen
  rw [succeeded]
  dsimp only
  cases outcome : ((next r.state).after r.log).outcome with
  | ok more =>
    dsimp only
    rw [end?, end?_of_ok (r := next r.state) outcome]
    rfl
  | error _ => rfl

end Report

namespace Follows

variable {τ : Type} {left : State → Prop} {s : State} {r : Report τ} {v : Reading τ}

/-- A success that leaves the offset leaves the line and the column as well. -/
theorem location_eq_of_still (h : Follows left s r v) {output : Output τ}
    (succeeded : r.outcome = .ok output)
    (still : r.state.reader.position = s.reader.position) :
    r.state.reader.location = s.reader.location := by
  cases h with
  | @matched _ last saved log t between =>
    have same := (State.position_goTo_eq_iff between saved).mp still
    obtain rfl := between.nil_of_ahead_eq same
    exact congrArg Point.location between.eq_of_nil
  | failed | aborted => cases succeeded

/-- Where also the saved texts are as before, nothing has changed. -/
theorem state_eq_of_still (h : Follows left s r v) {output : Output τ}
    (succeeded : r.outcome = .ok output) (still : r.state.reader.position = s.reader.position)
    (kept : r.state.saved = s.saved) : r.state = s := by
  have location := h.location_eq_of_still succeeded still
  cases h with
  | matched =>
    subst kept
    exact congrArg (fun l => { s with reader := { s.reader with location := l } }) location
  | failed | aborted => cases succeeded

theorem length_ahead_lt (h : Follows left s r v) (valid : s.reader.Valid) {output : Output τ}
    (succeeded : r.outcome = .ok output)
    (moved : r.state.reader.position ≠ s.reader.position) :
    r.state.point.ahead.length < s.point.ahead.length := by
  cases h with
  | @matched _ last saved log t between =>
    rw [State.point_goTo valid between]
    exact between.length_lt fun same => moved ((State.position_goTo_eq_iff between saved).mpr same)
  | failed | aborted => cases succeeded

theorem position_le_end (h : Follows left s r v) {l : Location} (ends : r.end? = some l) :
    s.reader.position ≤ l.offset := by
  cases outcome : r.outcome with
  | ok output =>
    rw [Report.end?_of_ok outcome] at ends
    cases ends
    exact h.position_le outcome
  | error error =>
    rw [Report.end?, outcome] at ends
    cases ends

end Follows

/-! ## The plain loop -/

/-- Matches over and over, still at least `min` times, until it fails or has matched as
often as the number says. -/
def Meaning.loop {τ : Type} (f : Meaning τ) (start : Location) : Nat → (min : Nat) → Meaning τ
  | 0, min => enough start min
  | left + 1, min => fun p saved =>
    (f p saved).resume
      (fun output last saved => (loop f start left (min - 1) last saved).mapOutput output.append)
      (fun reach => enough (start.later reach) min p saved)

namespace Step

variable {τ : Type} {depth : Nat} {step : Step τ} {f : Meaning τ} {start : Location}
  {min max : Nat}

/-- The repetition that repeats a step until it fails or has succeeded `max` times and then
asks whether it has succeeded as often as wanted. -/
def plainRepetition (step : Step τ) (min max : Nat) : Step τ := fun s =>
  guarded (loopFrom step s.reader.location min max 0) s

theorem drifts_loopFrom (means : step.Means depth f) (start : Location) (min left : Nat) :
    ∀ count, (loopFrom step start min left count).Drifts depth
      (.loop f start left (min - count)) := by
  induction left with
  | zero => exact fun count => drifts_enough start min count none
  | succ left ih =>
    intro count s ready
    have inner := means s ready
    have back := backTo_eq_of_follows ready.valid inner
    unfold loopFrom Meaning.loop
    generalize step s = r at inner back ⊢
    generalize f s.point s.saved = v at inner ⊢
    cases inner with
    | @matched output last saved log t between =>
      rw [Reading.resume_matched, Nat.sub_sub]
      exact Follows.andThen ready.valid (.matched between) fun last saved t between =>
        (ih (count + 1)).follows_goTo ready between saved
    | @failed error state log mild same =>
      rw [Reading.resume_failed]
      simp only [mild, back, Bool.false_eq_true, if_false]
      exact (drifts_enough start min count (some error) s ready).after
    | @aborted failure state log fatal same =>
      have fatal' : (⟨failure, []⟩ : MatchError).isFatal = true := fatal
      rw [Reading.resume_aborted]
      simp only [fatal', if_true]
      exact .aborted fatal (same ▸ ⟨rfl, rfl, rfl⟩)

/-- A save point that is taken back does not change where a success ends. -/
theorem end?_guarded (drifts : step.Drifts depth f) {s : State} (ready : s.Ready depth) :
    (guarded step s).end? = (step { s with reader := s.reader.save }).end? := by
  have inner : Follows _ _ _ (f s.point s.saved) :=
    drifts { s with reader := s.reader.save } ⟨ready.valid, ready.depth⟩
  unfold guarded
  generalize step { s with reader := s.reader.save } = r at inner ⊢
  generalize f s.point s.saved = v at inner
  cases inner with
  | matched between => rfl
  | failed _ same | aborted _ same =>
    dsimp only
    rw [settle_load _ same]
    rfl

theorem end?_enough (start : Location) (min count : Nat) (cause : Option MatchError) (s : State) :
    (enough start min count cause s : Report τ).end? =
      if min - count = 0 then some s.reader.location else none := by
  unfold enough
  by_cases few : count < min
  · rw [if_pos few, if_neg (Nat.sub_ne_zero_of_lt few)]
    cases cause <;> rfl
  · rw [if_neg few, if_pos (Nat.sub_eq_zero_of_le (Nat.not_lt.mp few))]
    rfl

/-! ## Loops that stay where they are -/

/-- From the state the loop makes no more than so many matches, all of no width, and at
least as many as are still wanted. -/
def Rests (step : Step τ) : (need left : Nat) → State → Prop
  | need, 0, _ => need = 0
  | need, left + 1, s =>
    match (step s).outcome with
    | .ok _ =>
      (step s).state.reader.position = s.reader.position ∧
        Rests step (need - 1) left (step s).state
    | .error e => e.isFatal = false ∧ need = 0

/-- A loop ends where it began exactly if it rests there. -/
theorem end?_loopFrom_iff (means : step.Means depth f) (start : Location) (min : Nat)
    {left : Nat} : ∀ {count : Nat} {s : State}, s.Ready depth →
      ((loopFrom step start min left count s).end? = some s.reader.location ↔
        step.Rests (min - count) left s) := by
  induction left with
  | zero =>
    intro count s _
    rw [loopFrom, end?_enough, Rests, ite_eq_left_iff]
    simp
  | succ left ih =>
    intro count s ready
    have inner := means s ready
    have back := backTo_eq_of_follows ready.valid inner
    unfold loopFrom Rests
    generalize step s = r at inner back ⊢
    generalize f s.point s.saved = v at inner
    cases inner with
    | @matched output last saved log t between =>
      have ready' := ready.goTo between saved
      have matched : Follows (· = s) s ⟨.ok output, s.goTo last saved, log⟩ _ := .matched between
      have rest := drifts_loopFrom means start min left (count + 1) _ ready'
      dsimp only
      rw [Report.end?_andThen rfl, Nat.sub_sub, ← ih ready']
      constructor
      · intro ends
        have still := Nat.le_antisymm (rest.position_le_end ends) (matched.position_le rfl)
        exact ⟨still, ends.trans (congrArg some (matched.location_eq_of_still rfl still).symm)⟩
      · rintro ⟨still, ends⟩
        exact ends.trans (congrArg some (matched.location_eq_of_still rfl still))
    | @failed error state log mild same =>
      simp only [mild, back, Bool.false_eq_true, if_false]
      rw [Report.end?_after, end?_enough, ite_eq_left_iff]
      simp
    | @aborted failure state log fatal same =>
      have fatal' : (⟨failure, []⟩ : MatchError).isFatal = true := fatal
      simp only [fatal', if_true]
      simp [Report.end?]

theorem rests_of_fixed {s : State} {output : Output τ} (succeeded : (step s).outcome = .ok output)
    (fixed : (step s).state = s) (left : Nat) : ∀ {need : Nat}, need ≤ left →
      step.Rests need left s := by
  induction left with
  | zero => exact fun none => Nat.eq_zero_of_le_zero none
  | succ left ih =>
    intro need le
    unfold Rests
    rw [succeeded, fixed]
    exact ⟨rfl, ih (Nat.sub_le_of_le_add le)⟩

/-! ## The end at a match of no width -/

/-- So many successes one after the other, each of which moves the reader, lead from one
state to another. -/
inductive Strides (step : Step τ) : Nat → State → State → Prop
  | refl (s : State) : Strides step 0 s s
  | next {n : Nat} {s t : State} {output : Output τ} :
      (step s).outcome = .ok output → (step s).state.reader.position ≠ s.reader.position →
      Strides step n (step s).state t → Strides step (n + 1) s t

/-- Wherever a loop comes to a match of no width, it rests behind it. -/
def SettlesFrom (step : Step τ) (need left : Nat) (s : State) : Prop :=
  ∀ n t output, step.Strides n s t → n < left → (step t).outcome = .ok output →
    (step t).state.reader.position = t.reader.position →
      step.Rests (need - (n + 1)) (left - (n + 1)) (step t).state

theorem Strides.ready {n : Nat} {s t : State} (strides : step.Strides n s t)
    (means : step.Means depth f) (ready : s.Ready depth) : t.Ready depth := by
  induction strides with
  | refl => exact ready
  | next succeeded _ _ ih => exact ih ((means _ ready).ready_of_ok ready succeeded)

theorem settlesFrom_of_error {s : State} {e : MatchError} (failed : (step s).outcome = .error e)
    (need left : Nat) : step.SettlesFrom need left s := by
  intro n t output strides _ succeeded _
  cases strides with
  | refl => cases failed.symm.trans succeeded
  | next succeeded' => cases failed.symm.trans succeeded'

theorem settlesFrom_of_still {s : State} {output : Output τ}
    (succeeded : (step s).outcome = .ok output)
    (still : (step s).state.reader.position = s.reader.position) (need left : Nat) :
    step.SettlesFrom need (left + 1) s ↔ step.Rests (need - 1) left (step s).state := by
  constructor
  · exact fun settles => settles 0 s output (.refl s) (Nat.succ_pos left) succeeded still
  · intro rests n t output' strides _ _ _
    cases strides with
    | refl => exact rests
    | next _ moved _ => exact absurd still moved

theorem settlesFrom_of_moved {s : State} {output : Output τ}
    (succeeded : (step s).outcome = .ok output)
    (moved : (step s).state.reader.position ≠ s.reader.position) (need left : Nat) :
    step.SettlesFrom need (left + 1) s ↔ step.SettlesFrom (need - 1) left (step s).state := by
  have count (n : Nat) : need - 1 - (n + 1) = need - (n + 1 + 1) := by omega
  constructor
  · intro settles n t output' strides few matched still
    rw [count, ← Nat.add_sub_add_right left 1 (n + 1)]
    exact settles (n + 1) t output' (.next succeeded moved strides) (Nat.succ_lt_succ few)
      matched still
  · intro settles n t output' strides few matched still
    cases strides with
    | refl => exact absurd still moved
    | @next n _ _ _ _ _ strides =>
      rw [← count, Nat.add_sub_add_right]
      exact settles n t output' strides (Nat.lt_of_succ_lt_succ few) matched still

/-- The induction is on the bound, as that of the repetition; the plain loop still has as many
matches left as the maximum leaves. -/
theorem end?_repeatFrom_iff {step' : Step τ} (means : step.Means depth f)
    (same : ∀ s : State, s.depth = depth → step' s = step s) (start : Location) (min max : Nat)
    {bound : Nat} : ∀ {left count : Nat} {s : State}, s.Ready depth →
      s.point.ahead.length < bound → max - count = left →
      ((repeatFrom step' start min (some max) bound count s).end? =
          (loopFrom step start min left count s).end? ↔
        step.SettlesFrom (min - count) left s) := by
  induction bound with
  | zero => exact fun _ few => absurd few (Nat.not_lt_zero _)
  | succ bound ih =>
    intro left count s ready few size
    have inner := means s ready
    have full : (some max).any (· ≤ count) = decide (max ≤ count) := rfl
    unfold repeatFrom
    rw [same s ready.depth, full]
    cases left with
    | zero =>
      have done : max ≤ count := Nat.le_of_sub_eq_zero size
      simp only [done, decide_true, if_true, loopFrom, true_iff]
      exact fun n _ _ _ few => absurd few (Nat.not_lt_zero n)
    | succ left =>
      have more : ¬ max ≤ count := by omega
      simp only [more, decide_false, Bool.false_eq_true, if_false]
      unfold loopFrom
      cases outcome : (step s).outcome with
      | ok output =>
        have ready' := inner.ready_of_ok ready outcome
        have fewer : min - count - 1 = min - (count + 1) := Nat.sub_sub ..
        simp only [outcome]
        rw [Report.end?_andThen outcome]
        by_cases still : (step s).state.reader.position = s.reader.position
        · rw [if_pos still, Report.end?_of_ok outcome, settlesFrom_of_still outcome still, fewer,
            ← end?_loopFrom_iff means start min ready', eq_comm]
        · have fewer' := inner.length_ahead_lt ready.valid outcome still
          rw [if_neg still, Report.end?_andThen outcome, settlesFrom_of_moved outcome still, fewer]
          exact ih ready' (by omega) (by omega)
      | error e =>
        refine iff_of_true ?_ (settlesFrom_of_error outcome _ _)
        generalize step s = r at outcome ⊢
        cases r
        cases outcome
        rfl

end Step

/-! ## Matchers -/

namespace Engine

variable {π τ : Type} [CharTest π]

/-- A repetition with a maximum and the plain loop come to the same, success or failure and
the end of a success, exactly if the plain loop rests behind a match of no width. That is told
of the state in which the loop begins, with a save point made. -/
theorem end_repetition_iff (e : Engine π τ) (m : Matcher π) (min max : Nat) {s : State}
    (valid : s.reader.Valid) :
    (e.step (.repetition m min (some max)) s).end? =
        ((e.step m).plainRepetition min max s).end? ↔
      (e.step m).SettlesFrom min max { s with reader := s.reader.save } := by
  have ready : s.Ready s.depth := ⟨valid, rfl⟩
  have inner : (e.eval (e.enter (e.settings.maxDepth - s.depth)) m).Means s.depth _ :=
    e.means_eval_of_enter (e.means_enter rfl) m
  have means := e.means_step s.depth m
  have same : ∀ s' : State, s'.depth = s.depth →
      e.eval (e.enter (e.settings.maxDepth - s.depth)) m s' = e.step m s' := fun s' level => by
    rw [step, level]
  have repeats := Step.end?_guarded
    (Step.drifts_repeatFrom inner s.reader.location min (some max)
      (s.reader.remaining.length + 1) 0) ready
  have loops := Step.end?_guarded
    (Step.drifts_loopFrom means s.reader.location min max 0) ready
  have ends := Step.end?_repeatFrom_iff means same s.reader.location min max
    (s := { s with reader := s.reader.save }) ⟨valid, rfl⟩ (Nat.lt_succ_self _) (Nat.sub_zero max)
  exact (Eq.congr repeats loops).trans ends

/-- Where matches of no width leave the saved texts alone, the next one does the same, so
that a checked repetition ends like the plain loop. -/
theorem end_repetition_of_kept {e : Engine π τ} {m : Matcher π} {min max : Nat}
    (checked : e.table.problem? (.repetition m min (some max)) = none) {s : State}
    (valid : s.reader.Valid)
    (kept : ∀ t : State, t.reader.Valid → ∀ output, (e.step m t).outcome = .ok output →
      (e.step m t).state.reader.position = t.reader.position →
        (e.step m t).state.saved = t.saved) :
    (e.step (.repetition m min (some max)) s).end? =
      ((e.step m).plainRepetition min max s).end? := by
  have le : min ≤ max := (RuleTable.problem?_eq_none_iff.mp checked).2.node
  refine (e.end_repetition_iff m min max valid).mpr ?_
  intro n t output strides few succeeded still
  have means := e.means_step s.depth m
  have ready := strides.ready means (s := { s with reader := s.reader.save }) ⟨valid, rfl⟩
  have fixed := (means t ready).state_eq_of_still succeeded still
    (kept t ready.valid output succeeded still)
  rw [fixed]
  exact Step.rests_of_fixed succeeded fixed _ (Nat.sub_le_sub_right le (n + 1))

/-- Beside rules that save nothing, a checked repetition of a matcher that saves nothing ends
like the plain loop. -/
theorem end_repetition_of_saveless {e : Engine π τ}
    (rules : ∀ r ∈ e.table.rules, r.definition.Saveless) {m : Matcher π} (saveless : m.Saveless)
    {min max : Nat} (checked : e.table.problem? (.repetition m min (some max)) = none)
    {s : State} (valid : s.reader.Valid) :
    (e.step (.repetition m min (some max)) s).end? =
      ((e.step m).plainRepetition min max s).end? :=
  end_repetition_of_kept checked valid fun _ valid' _ succeeded _ =>
    saved_eq_of_saveless rules saveless valid' succeeded

/-- Whatever is saved and however many rules are open, a repetition with a maximum comes to
the success or failure of the plain loop and ends where that ends exactly if the plain loop
rests behind a match of no width. A checked one does so if matches of no width leave the saved
texts alone. -/
theorem repetition_ends_as_plain (e : Engine π τ) (m : Matcher π) (min max : Nat) {s : State}
    (valid : s.reader.Valid) :
    ((e.step (.repetition m min (some max)) s).end? =
        ((e.step m).plainRepetition min max s).end? ↔
      (e.step m).SettlesFrom min max { s with reader := s.reader.save }) ∧
    (e.table.problem? (.repetition m min (some max)) = none →
      (∀ t : State, t.reader.Valid → ∀ output, (e.step m t).outcome = .ok output →
        (e.step m t).state.reader.position = t.reader.position →
          (e.step m t).state.saved = t.saved) →
      (e.step (.repetition m min (some max)) s).end? =
        ((e.step m).plainRepetition min max s).end?) :=
  ⟨e.end_repetition_iff m min max valid, fun checked kept =>
    end_repetition_of_kept checked valid kept⟩

/-- In front of `"b"` the second match saves an empty text under `"x"`, and the two matches
that are still wanted do that again. Without the save the saved texts stay as they are. -/
theorem repetition_ends_in_front :
    let e : Engine Empty Nat := ⟨.empty, {}⟩
    let m : Matcher Empty := .optional (.char (.only 'a'))
    let s : State := ⟨.ofText ['a', 'b'], [], 0⟩
    s.reader.Valid ∧
      (e.step (.save "x" m)).SettlesFrom 4 4 { s with reader := s.reader.save } ∧
      e.table.problem? (.repetition m 4 (some 4)) = none ∧
      (e.step (.repetition m 4 (some 4)) s).end? = ((e.step m).plainRepetition 4 4 s).end? := by
  intro e m s
  have saveless : m.Saveless := by decide
  have checked : e.table.problem? (.repetition m 4 (some 4)) = none := by decide
  obtain ⟨settles, _⟩ := repetition_ends_as_plain (s := s) e (.save "x" m) 4 4 rfl
  exact ⟨rfl, settles.mp (by decide +kernel), checked,
    end_repetition_of_saveless (List.forall_mem_nil _) saveless checked rfl⟩

/-- Before `"a"` nothing is saved under `"x"`, so the first match is that of the second
alternative: it consumes nothing and saves an empty text. The repetition ends there. In the
plain loop the second match is that of the first alternative. -/
theorem repetition_ne_plain :
    let g : Grammar Empty Nat := ⟨[], none, {}⟩
    let t : RuleTable Empty Nat := .empty
    let e : Engine Empty Nat := t.engine
    let m : Matcher Empty :=
      .choice [.sequence [.load "x", .char (.only 'a')],
        .save "x" (.optional (.char (.only 'b')))]
    let s : State := ⟨.ofText ['a'], [], 0⟩
    g.build = .ok (t, [.built 0 "<none>" false]) ∧
      t.problem? (.repetition m 0 (some 2)) = none ∧ s.reader.Valid ∧
      (e.step (.repetition m 0 (some 2)) s).end? = some ⟨1, 1, 0⟩ ∧
      ((e.step m).plainRepetition 0 2 s).end? = some ⟨1, 2, 1⟩ := by
  intro g t e m s
  exact ⟨Grammar.build_of_problem? (by decide) rfl, by decide, rfl, by decide +kernel,
    by decide +kernel⟩

end Engine

end Peg
