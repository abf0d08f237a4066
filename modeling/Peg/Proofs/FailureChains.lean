import Peg.Proofs.Attempts
import Peg.Proofs.ReaderSessions

/-!
# Failures lead onward

An error is a chain of failures, each caused by the next. A failure arises where a matcher is
tried, and what causes it arises there or further on: in a later child, in a later repetition,
or in an alternative that got further than the others. So along a chain the text is never gone
back in, and its end is the furthest that the match got (`Engine.run_fails_onward`).

`MatchError.Onward` lists the ways in which errors come about. That a step fails in one of them
(`Step.FailsOnward`) is shown for each way of combining steps, with the meaning of the steps
beside it, which tells where the later ones begin.
-/

namespace Peg

/-! ## How errors come about -/

/-- An error of a match that is tried at `p`. -/
inductive MatchError.Onward : Point → MatchError → Prop
  | here {p : Point} (kind : FailureKind) : Onward p (.of kind p.location)
  | caused {p : Point} {e : MatchError} (kind : FailureKind) :
      Onward p e → Onward p ((MatchError.of kind p.location).causedBy e)
  | later {p q : Point} {t : Text} {e : MatchError} : p.Over t q → Onward q e → Onward p e

namespace MatchError

theorem rootCause_mem_chain (e : MatchError) : e.rootCause ∈ e.chain :=
  List.getLastD_mem_cons

theorem rootCause_causedBy (e cause : MatchError) :
    (e.causedBy cause).rootCause = cause.rootCause := List.getLastD_cons

variable {p : Point} {e : MatchError}

/-- Each failure of the chain lies at `p` or further on in the text ahead. -/
theorem Onward.exists_ahead (h : e.Onward p) :
    ∀ f ∈ e.chain, ∃ t q, p.Over t q ∧ f.location = q.location := by
  induction h with
  | @here p kind =>
    intro f hf
    obtain rfl := List.mem_singleton.mp hf
    exact ⟨[], p, .refl p, rfl⟩
  | @caused p e kind _ ih =>
    intro f hf
    rcases List.mem_cons.mp hf with rfl | below
    · exact ⟨[], p, .refl p, rfl⟩
    · exact ih f below
  | later between _ ih =>
    intro f hf
    obtain ⟨t, q, further, same⟩ := ih f hf
    exact ⟨_, q, between.trans further, same⟩

theorem Onward.offset_le (h : e.Onward p) {f : Failure} (hf : f ∈ e.chain) :
    p.location.offset ≤ f.location.offset := by
  obtain ⟨t, q, between, same⟩ := h.exists_ahead f hf
  rw [same, between.2, Location.advanceOver_offset]
  exact Nat.le_add_right _ _

/-- From a failure to its causes the offsets never decrease. -/
theorem Onward.pairwise (h : e.Onward p) :
    e.chain.Pairwise fun f g => f.location.offset ≤ g.location.offset := by
  induction h with
  | here kind => exact List.pairwise_singleton _ _
  | caused kind h ih => exact List.pairwise_cons.mpr ⟨fun g hg => h.offset_le hg, ih⟩
  | later _ _ ih => exact ih

/-- The innermost failure is where the furthest one is. -/
theorem Onward.rootCause_location (h : e.Onward p) : e.rootCause.location = e.furthest := by
  induction h with
  | here kind => rfl
  | @caused p e kind h ih =>
    obtain ⟨t, q, between, same⟩ := h.exists_ahead _ e.rootCause_mem_chain
    have further : p.location.later e.furthest = e.furthest := by
      rw [← ih, same, between.2, Location.later_advanceOver]
    rw [rootCause_causedBy, furthest_causedBy, ih]
    exact further.symm
  | later _ _ ih => exact ih

/-- No failure of the chain lies further on than the innermost. -/
theorem Onward.le_rootCause (h : e.Onward p) {f : Failure} (hf : f ∈ e.chain) :
    f.location.offset ≤ e.rootCause.location.offset := by
  induction h with
  | here kind =>
    obtain rfl := List.mem_singleton.mp hf
    exact Nat.le_refl _
  | caused kind h ih =>
    rw [rootCause_causedBy]
    rcases List.mem_cons.mp hf with rfl | below
    · exact h.offset_le (rootCause_mem_chain _)
    · exact ih below
  | later _ _ ih => exact ih hf

end MatchError

/-! ## Steps that fail onward -/

namespace Step

variable {τ : Type} {depth : Nat} {step : Step τ} {f : Meaning τ}

/-- With `depth` rules open, an error of the step is one of a match that is tried where the
step begins. -/
def FailsOnward (depth : Nat) (step : Step τ) : Prop :=
  ∀ s : State, s.Ready depth → ∀ error, (step s).outcome = .error error → error.Onward s.point

theorem onward_of_failHere {kind : FailureKind} {s : State} {error : MatchError}
    (failed : (failHere kind s : Report τ).outcome = .error error) : error.Onward s.point :=
  Except.error.inj failed ▸ .here kind

theorem failsOnward_failHere (kind : FailureKind) : (failHere kind : Step τ).FailsOnward depth :=
  fun _ _ _ => onward_of_failHere

theorem failsOnward_char (accepts : Char → Bool) (expected : String) :
    (char accepts expected : Step τ).FailsOnward depth := by
  intro s _ error failed
  unfold char at failed
  split at failed
  · split at failed
    · cases failed
    · exact onward_of_failHere failed
  · exact onward_of_failHere failed

theorem failsOnward_text (t : Text) (otherwise : FailureKind) :
    (text t otherwise : Step τ).FailsOnward depth := by
  intro s _ error failed
  unfold text at failed
  split at failed
  · cases failed
  · exact onward_of_failHere failed

theorem failsOnward_endOfInput : (endOfInput : Step τ).FailsOnward depth := by
  intro s _ error failed
  unfold endOfInput at failed
  split at failed
  · cases failed
  · exact onward_of_failHere failed

theorem failsOnward_load (name : String) : (load name : Step τ).FailsOnward depth := by
  intro s ready error failed
  unfold load at failed
  split at failed
  · exact failsOnward_text _ _ s ready error failed
  · exact onward_of_failHere failed

/-- A save point around a step changes nothing in what it comes to. -/
theorem Drifts.outcome_guarded (drifts : step.Drifts depth f) {s : State} (ready : s.Ready depth) :
    (Step.guarded step s).outcome = (step { s with reader := s.reader.save }).outcome := by
  have follows : Follows _ _ _ (f s.point s.saved) :=
    drifts { s with reader := s.reader.save } ⟨ready.valid, ready.depth⟩
  unfold Step.guarded
  generalize step { s with reader := s.reader.save } = r at follows ⊢
  generalize f s.point s.saved = v at follows
  cases follows with
  | matched between => rfl
  | failed _ same | aborted _ same =>
    dsimp only
    rw [settle_load _ same]

theorem FailsOnward.guarded (h : step.FailsOnward depth) (drifts : step.Drifts depth f) :
    (guarded step).FailsOnward depth := by
  intro s ready error failed
  rw [drifts.outcome_guarded ready] at failed
  exact h { s with reader := s.reader.save } ⟨ready.valid, ready.depth⟩ error failed

theorem FailsOnward.absorb (h : step.FailsOnward depth) : (absorb step).FailsOnward depth := by
  intro s ready error failed
  refine h s ready error ?_
  unfold Step.absorb at failed
  generalize step s = r at failed ⊢
  obtain ⟨outcome, state, log⟩ := r
  cases outcome with
  | ok output => cases failed
  | error e =>
    dsimp only at failed
    split at failed
    · exact failed
    · cases failed

theorem FailsOnward.absent (h : step.FailsOnward depth) (means : step.Means depth f) :
    (absent step).FailsOnward depth := by
  intro s ready error failed
  have inner := h s ready error
  have back := backTo_eq_of_follows ready.valid (means s ready)
  unfold Step.absent at failed
  rw [back] at failed
  generalize step s = r at inner failed
  obtain ⟨outcome, state, log⟩ := r
  cases outcome with
  | ok output => exact Except.error.inj failed ▸ .here _
  | error e =>
    dsimp only at failed
    split at failed
    · exact inner failed
    · cases failed

theorem FailsOnward.mapOutput (h : step.FailsOnward depth) (g : Output τ → Output τ) :
    FailsOnward depth fun s => (step s).mapOutput g := by
  intro s ready error failed
  refine h s ready error ?_
  dsimp only at failed
  generalize step s = r at failed ⊢
  obtain ⟨outcome, state, log⟩ := r
  cases outcome with
  | ok output => cases failed
  | error e => exact failed

theorem FailsOnward.mark (h : step.FailsOnward depth) : (mark step).FailsOnward depth := by
  intro s ready error failed
  refine h s ready error ?_
  unfold Step.mark at failed
  generalize step s = r at failed ⊢
  obtain ⟨outcome, state, log⟩ := r
  cases outcome with
  | ok output => cases failed
  | error e => exact failed

theorem FailsOnward.save (h : step.FailsOnward depth) (name : String) :
    (save name step).FailsOnward depth := by
  intro s ready error failed
  refine h s ready error ?_
  unfold Step.save at failed
  generalize step s = r at failed ⊢
  obtain ⟨outcome, state, log⟩ := r
  cases outcome with
  | ok output => cases failed
  | error e => exact failed

theorem FailsOnward.opened (h : step.FailsOnward (depth + 1)) : (opened step).FailsOnward depth :=
  fun s ready error failed =>
    h { s with depth := s.depth + 1 } ⟨ready.valid, congrArg Nat.succ ready.depth⟩ error failed

/-! ## Going on -/

/-- A repetition that began at `p` has ended for the given cause, if any. -/
theorem onward_of_enough {p : Point} {min count : Nat} {cause : Option MatchError} {s : State}
    {error : MatchError}
    (failed : (enough p.location min count cause s : Report τ).outcome = .error error)
    (causes : ∀ e ∈ cause, e.Onward p) : error.Onward p := by
  unfold enough at failed
  split at failed
  · cases cause with
    | none => exact Except.error.inj failed ▸ .here _
    | some e => exact Except.error.inj failed ▸ .caused _ (causes e rfl)
  · cases failed

/-- What fails after a success is what goes on. -/
theorem error_of_andThen {r : Report τ} {next : Step τ} {output : Output τ} {error : MatchError}
    (succeeded : r.outcome = .ok output) (failed : (r.andThen next).outcome = .error error) :
    (next r.state).outcome = .error error := by
  obtain ⟨outcome, state, log⟩ := r
  cases succeeded
  unfold Report.andThen at failed
  dsimp only at failed ⊢
  generalize next state = rest at failed ⊢
  obtain ⟨outcome, state, log⟩ := rest
  cases outcome with
  | ok more => cases failed
  | error e => exact failed

theorem FailsOnward.repeatFrom (h : step.FailsOnward depth) (means : step.Means depth f) {p : Point}
    (min : Nat) (max : Option Nat) {bound : Nat} : ∀ {count : Nat} {s : State} {t : Text},
      s.Ready depth → p.Over t s.point → ∀ error,
      (repeatFrom step p.location min max bound count s).outcome = .error error →
        error.Onward p := by
  induction bound with
  | zero => exact fun _ _ _ failed => onward_of_enough failed nofun
  | succ bound ih =>
    intro count s t ready between error failed
    unfold Step.repeatFrom at failed
    split at failed
    · exact onward_of_enough failed nofun
    have first := h s ready
    have follows := means s ready
    have back := backTo_eq_of_follows ready.valid follows
    generalize step s = r at first follows back failed
    generalize f s.point s.saved = v at follows
    cases follows with
    | @matched output last saved log t' onward =>
      dsimp only at failed
      split at failed
      · cases failed
      · have further := between.trans onward
        rw [← State.point_goTo ready.valid onward saved] at further
        exact ih (ready.goTo onward saved) further error (error_of_andThen rfl failed)
    | @failed e state log mild same =>
      simp only [mild, back, Bool.false_eq_true, if_false] at failed
      have cause : e.Onward p := .later between (first e rfl)
      exact onward_of_enough failed fun _ same => Option.some.inj same ▸ cause
    | @aborted failure state log fatal same =>
      have fatal' : (⟨failure, []⟩ : MatchError).isFatal = true := fatal
      simp only [fatal', if_true] at failed
      exact Except.error.inj failed ▸ .later between (first _ rfl)

theorem FailsOnward.repetition (h : step.FailsOnward depth) (means : step.Means depth f)
    (min : Nat) (max : Option Nat) : (repetition step min max).FailsOnward depth := by
  intro s ready error failed
  unfold Step.repetition at failed
  rw [(drifts_repeatFrom means _ min max _ 0).outcome_guarded ready] at failed
  have ready' : State.Ready depth { s with reader := s.reader.save } := ⟨ready.valid, ready.depth⟩
  exact h.repeatFrom means (p := s.point) min max ready' (.refl _) error failed

theorem onward_of_exhausted {s : State} {best : Option MatchError}
    (attempts : ∀ e ∈ best, e.Onward s.point) {error : MatchError}
    (failed : (exhausted s best s : Report τ).outcome = .error error) : error.Onward s.point := by
  cases best with
  | none => exact Except.error.inj failed ▸ .here _
  | some e => exact Except.error.inj failed ▸ .caused _ (attempts e rfl)

theorem onward_further {p : Point} {best : Option MatchError} (attempts : ∀ e ∈ best, e.Onward p)
    {e : MatchError} (h : e.Onward p) : (further best e).Onward p := by
  unfold further
  split
  · split
    · exact attempts _ rfl
    · exact h
  · exact h

theorem FailsOnward.orElse (h : step.FailsOnward depth) (means : step.Means depth f) {s : State}
    (ready : s.Ready depth) {best : Option MatchError} (attempts : ∀ e ∈ best, e.Onward s.point)
    {next : Option MatchError → Step τ}
    (hn : ∀ best : Option MatchError, (∀ e ∈ best, e.Onward s.point) → ∀ error,
      (next best s).outcome = .error error → error.Onward s.point) {error : MatchError}
    (failed : (orElse s best step next s).outcome = .error error) : error.Onward s.point := by
  have first := h s ready
  have back := backTo_eq_of_follows ready.valid (means s ready)
  unfold Step.orElse at failed
  generalize step s = r at first back failed
  obtain ⟨outcome, state, log⟩ := r
  cases outcome with
  | ok output => cases failed
  | error e =>
    simp only [back] at failed
    split at failed
    · exact first _ failed
    · refine hn _ (fun _ same => ?_) error failed
      exact Option.some.inj same ▸ onward_further attempts (first e rfl)

end Step

/-! ## Matchers and rules -/

namespace Engine

variable {π τ : Type} [CharTest π] {e : Engine π τ} {depth : Nat}
  {enter : String → Matcher π → Step τ} {call : String → Matcher π → Meaning τ}

theorem failsOnward_evalSequence {ms : List (Matcher π)}
    (means : ∀ m ∈ ms, (e.eval enter m).Means depth (e.denote call m))
    (h : ∀ m ∈ ms, (e.eval enter m).FailsOnward depth) :
    (e.evalSequence enter ms).FailsOnward depth := by
  induction ms with
  | nil => exact fun _ _ _ failed => nomatch failed
  | cons m ms ih =>
    obtain ⟨meansFirst, means⟩ := List.forall_mem_cons.mp means
    obtain ⟨first, h⟩ := List.forall_mem_cons.mp h
    intro s ready error failed
    have inner := first s ready
    have follows := meansFirst s ready
    unfold evalSequence at failed
    generalize e.eval enter m s = r at inner follows failed
    generalize e.denote call m s.point s.saved = v at follows
    cases follows with
    | @matched output last saved log t between =>
      have rest := ih means h _ (ready.goTo between saved) error
        (Step.error_of_andThen rfl failed)
      rw [State.point_goTo ready.valid between saved] at rest
      exact .later between rest
    | failed | aborted => exact inner _ failed

theorem onward_of_evalChoice {ms : List (Matcher π)}
    (means : ∀ m ∈ ms, (e.eval enter m).Means depth (e.denote call m))
    (h : ∀ m ∈ ms, (e.eval enter m).FailsOnward depth) {s : State} (ready : s.Ready depth)
    (best : Option MatchError) (attempts : ∀ e ∈ best, e.Onward s.point) (error : MatchError)
    (failed : (e.evalChoice enter s best ms s).outcome = .error error) :
    error.Onward s.point := by
  induction ms generalizing best error with
  | nil => exact Step.onward_of_exhausted attempts failed
  | cons m ms ih =>
    obtain ⟨meansFirst, means⟩ := List.forall_mem_cons.mp means
    obtain ⟨first, h⟩ := List.forall_mem_cons.mp h
    exact first.orElse meansFirst ready attempts (ih means h) failed

/-- A matcher fails onward if rules do. -/
theorem failsOnward_eval (means : ∀ name m, (enter name m).Means depth (call name m))
    (h : ∀ name m, (enter name m).FailsOnward depth) (m : Matcher π) :
    (e.eval enter m).FailsOnward depth := by
  have meansEval := e.means_eval_of_enter means
  induction m with
  | char cls => exact Step.failsOnward_char _ _
  | text t => exact Step.failsOnward_text t _
  | endOfInput => exact Step.failsOnward_endOfInput
  | sequence ms ih =>
    exact (failsOnward_evalSequence (fun m _ => meansEval m) ih).guarded
      (e.drifts_evalSequence fun m _ => meansEval m)
  | choice ms ih =>
    exact fun s ready error =>
      onward_of_evalChoice (fun m _ => meansEval m) ih ready none nofun error
  | repetition m min max ih => exact ih.repetition (meansEval m) min max
  | optional m ih => exact (ih.guarded (meansEval m).drifts).absorb
  | absent m ih => exact ih.absent (meansEval m)
  | ref name =>
    unfold eval
    cases e.table.rule? name with
    | some rule => exact h rule.name rule.definition
    | none => exact Step.failsOnward_failHere _
  | rule name m _ => exact h name m
  | ignore m ih | join m ih => exact ih.mapOutput _
  | mark m ih => exact ih.mark
  | save name m ih => exact ih.save name
  | load name => exact Step.failsOnward_load name

omit [CharTest π] in
theorem failsOnward_traced {step : Step τ} (h : step.FailsOnward depth) (name : String) :
    (e.traced name step).FailsOnward depth := by
  intro s ready error failed
  refine h s ready error ?_
  unfold traced at failed
  split at failed
  · exact failed
  · exact failed

theorem failsOnward_enter {levels : Nat} (size : e.settings.maxDepth - depth = levels)
    (name : String) (m : Matcher π) : (e.enter levels name m).FailsOnward depth := by
  induction levels generalizing depth name m with
  | zero => exact Step.failsOnward_failHere _
  | succ levels ih =>
    intro s ready error failed
    unfold enter at failed
    split at failed
    · exact Step.onward_of_failHere failed
    · have size' : e.settings.maxDepth - (depth + 1) = levels := by omega
      have body := failsOnward_eval (e := e) (e.means_enter size') (fun name m => ih size' name m) m
      exact (failsOnward_traced body.opened name).mapOutput _ s ready error failed

/-- With any number of rules open and any texts saved, an error is one of a match that is tried
where the matcher is. -/
theorem failsOnward_step (m : Matcher π) : (e.step m).FailsOnward depth := by
  intro s ready error failed
  unfold step at failed
  rw [ready.depth] at failed
  exact failsOnward_eval (e.means_enter rfl) (failsOnward_enter rfl) m s ready error failed

/-! ## Runs -/

/-- A checked matcher is run from where a reader has been left. If the run fails, its failure
and the causes below it lie between where the run started and the end of the text, each
between two characters and none before the one that it causes. The innermost is the
furthest, with the line and the column that the furthest has, and it is the one that the help
tells. -/
theorem run_fails_onward {t : RuleTable π τ} {m : Matcher π} (checked : t.problem? m = none)
    (settings : Settings) {reader : Reader} (reachable : reader.Reachable) :
    ∃ a, Engine.run ⟨t, settings⟩ m reader = .ok a ∧
      ∀ error, a.result.error? = some error →
        (error.chain.Pairwise fun f g => f.location.offset ≤ g.location.offset) ∧
        (∀ f ∈ error.chain, reader.position ≤ f.location.offset ∧
          f.location.offset ≤ reader.size ∧ reader.text.isBoundary f.location.offset = true) ∧
        error.rootCause.location = error.furthest ∧
        ∀ help, Diagnostic.help ⟨error, reader.text⟩ = some help →
          ∃ f ∈ error.chain, help = s!"furthest failure: {f.render}" ∧
            f.location = error.furthest ∧
            ∀ g ∈ error.chain, g.location.offset ≤ f.location.offset := by
  let e : Engine π τ := ⟨t, settings⟩
  refine ⟨e.execute m reader, run_eq_execute checked, fun error failed => ?_⟩
  have ready : State.Ready 0 ⟨reader, [], 0⟩ := ⟨reachable.valid, rfl⟩
  have onward : error.Onward reader.point :=
    e.failsOnward_step m _ ready error (outcome_of_execute failed)
  refine ⟨onward.pairwise, fun f hf => ?_, onward.rootCause_location, fun help told => ?_⟩
  · obtain ⟨_, q, between, same⟩ := onward.exists_ahead f hf
    have boundary : reader.text.isBoundary q.location.offset = true :=
      State.valid_goTo ready.valid between []
    rw [same]
    exact ⟨same ▸ onward.offset_le hf, Text.le_byteSize_of_isBoundary boundary, boundary⟩
  · refine ⟨error.rootCause, error.rootCause_mem_chain, ?_, onward.rootCause_location,
      fun g hg => onward.le_rootCause hg⟩
    unfold Diagnostic.help at told
    split at told
    · cases told
    · exact (Option.some.inj told).symm

/-- A third pair is wanted, in a reader that has jumped behind two characters to a line and a
column made up. What fails is the repetition, because no alternative matched, because there is
a word but no sign behind it. -/
theorem fails_onward_third_pair :
    let word : Matcher Empty :=
      .choice [.repetition (.char (.range 'a' 'z')) 2 none, .text ['é', 'x', 'x']]
    let pair : Matcher Empty :=
      .choice [.char (.only '-'), .sequence [.ref "word", .char (.only '=')]]
    let m : Matcher Empty := .sequence [.char (.only 'ß'), .repetition pair 3 none]
    let rules : List (Rule Empty Nat) := [⟨"word", word, default, none⟩]
    let t : RuleTable Empty Nat := ⟨rules, NullMap.compute rules, some "word", {}⟩
    let text : Text := ['.', '.', 'ß', 'a', 'b', '=', '-', 'é', 'x', 'x', 'c', 'd']
    let reader := (((Reader.ofText text).advance 9).rewind ⟨7, 40, 2⟩).2
    t.problem? m = none ∧ reader.Reachable ∧
      ∃ a error, Engine.run ⟨t, {}⟩ m reader = .ok a ∧ a.result.error? = some error ∧
        (error.chain.Pairwise fun f g => f.location.offset ≤ g.location.offset) ∧
        error.rootCause.location = error.furthest ∧
        error.chain.map (·.location) = [⟨7, 41, 4⟩, ⟨7, 45, 8⟩, ⟨7, 48, 12⟩] ∧
        Diagnostic.help ⟨error, text⟩ = some "furthest failure: expected '=' at 7:48" := by
  intro word pair m rules t text reader
  have checked : t.problem? m = none := by decide
  have reachable : reader.Reachable := .rewind _ (.advance 9 (.ofText text))
  obtain ⟨a, ran, onward⟩ := run_fails_onward checked {} reachable
  have same : Engine.execute ⟨t, {}⟩ m reader = a := execute_of_run checked ran
  have told : a.result.error?.map (fun error => (error.chain.map (·.location),
      Diagnostic.help ⟨error, text⟩)) = some ([⟨7, 41, 4⟩, ⟨7, 45, 8⟩, ⟨7, 48, 12⟩],
        some "furthest failure: expected '=' at 7:48") := by
    rw [← same]
    decide +kernel
  obtain ⟨error, failed, told⟩ := Option.map_eq_some_iff.mp told
  obtain ⟨pairwise, -, innermost, -⟩ := onward error failed
  exact ⟨checked, reachable, a, error, ran, failed, pairwise, innermost,
    congrArg Prod.fst told, congrArg Prod.snd told⟩

end Engine

end Peg
