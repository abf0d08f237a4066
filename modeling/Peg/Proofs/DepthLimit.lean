import Peg.Match.Run
import Peg.Proofs.ReaderStates
import Peg.Proofs.Refinement

/-!
# A larger limit changes nothing but the limit

The limit on open rules is read in one place, where a rule is applied. A run that meets it
is over: no combination of steps turns that into a success, into another attempt or into a
cause. So under a larger limit a run is the same to the last detail, or it was over with
the failure that tells of the limit (`Engine.run_deeper`).

Whether a run is over is told by its meaning. Steps under two limits are compared with the
meaning under the smaller one beside them (`Step.Repeats`): where the meaning does not say
that the limit is met, the reports are equal.
-/

namespace Peg

theorem MatchResult.success_of_error? {τ : Type} (r : MatchResult τ) {error : MatchError}
    (failed : r.error? = some error) : r.success = false := by
  unfold error? at failed
  unfold success
  split at failed
  · cases failed
  · next found => rw [found]; rfl

/-! ## Meeting the limit -/

namespace Reading

variable {τ : Type} {limit : Nat} {r : Reading τ}

/-- The run is over because `limit` rules are open. -/
def Meets (limit : Nat) (r : Reading τ) : Prop :=
  ∃ l, r.verdict = .aborted ⟨.depthLimit limit, l⟩

theorem Meets.after (h : r.Meets limit) (marks : List Mark) : (r.after marks).Meets limit := h

/-- Nothing goes on when the limit is met. -/
theorem Meets.resume (h : r.Meets limit) (matched : Output τ → Point → Saved → Reading τ)
    (failed : Location → Reading τ) : (r.resume matched failed).Meets limit := by
  obtain ⟨verdict, marks⟩ := r
  obtain ⟨l, rfl⟩ := h
  exact ⟨l, rfl⟩

theorem Meets.mapOutput (h : r.Meets limit) (f : Output τ → Output τ) :
    (r.mapOutput f).Meets limit := h.resume _ _

end Reading

/-- A report that follows a meaning of a run that is over tells of the limit and of
nothing else. -/
theorem Follows.outcome_of_meets {τ : Type} {left : State → Prop} {s : State} {r : Report τ}
    {v : Reading τ} {limit : Nat} (h : Follows left s r v) (met : v.Meets limit) :
    ∃ l, r.outcome = .error (.of (.depthLimit limit) l) := by
  obtain ⟨l, ended⟩ := met
  cases h with
  | matched | failed => cases ended
  | aborted fatal kept =>
    cases ended
    exact ⟨l, rfl⟩

/-! ## Repeating a step under another limit -/

namespace Step

variable {τ : Type} {limit depth : Nat}

/-- With `depth` rules open, the second step does what the first one does, unless the
meaning of the first says that the limit is met. -/
def Repeats (limit depth : Nat) (f : Meaning τ) (step step' : Step τ) : Prop :=
  ∀ s : State, s.Ready depth → (f s.point s.saved).Meets limit ∨ step' s = step s

theorem Repeats.refl (f : Meaning τ) (step : Step τ) : Repeats limit depth f step step :=
  fun _ _ => .inr rfl

variable {f : Meaning τ} {step step' : Step τ}

theorem Repeats.guarded (h : Repeats limit depth f step step') :
    Repeats limit depth f (guarded step) (guarded step') := by
  intro s ready
  exact (h { s with reader := s.reader.save } ⟨ready.valid, ready.depth⟩).imp id guarded_congr

theorem Repeats.optional (h : Repeats limit depth f step step') :
    Repeats limit depth f.optional (optional step) (optional step') := by
  intro s ready
  refine (h.guarded s ready).imp (fun met => met.resume _ _) fun same => ?_
  unfold Step.optional absorb
  rw [same]

theorem Repeats.absent (h : Repeats limit depth f step step') :
    Repeats limit depth f.absent (absent step) (absent step') := by
  intro s ready
  refine (h s ready).imp (fun met => met.resume _ _) fun same => ?_
  unfold Step.absent
  rw [same]

theorem Repeats.mapOutput (h : Repeats limit depth f step step') (g : Output τ → Output τ) :
    Repeats limit depth (f.mapOutput g) (fun s => (step s).mapOutput g)
      (fun s => (step' s).mapOutput g) := by
  intro s ready
  exact (h s ready).imp (fun met => met.mapOutput g) fun same => congrArg (·.mapOutput g) same

theorem Repeats.mark (h : Repeats limit depth f step step') :
    Repeats limit depth f.mark (mark step) (mark step') := by
  intro s ready
  refine (h s ready).imp (fun met => met.resume _ _) fun same => ?_
  unfold Step.mark
  rw [same]

theorem Repeats.save (h : Repeats limit depth f step step') (name : String) :
    Repeats limit depth (f.save name) (save name step) (save name step') := by
  intro s ready
  refine (h s ready).imp (fun met => met.resume _ _) fun same => ?_
  unfold Step.save
  rw [same]

theorem Repeats.opened (h : Repeats limit (depth + 1) f step step') :
    Repeats limit depth f (opened step) (opened step') := by
  intro s ready
  refine (h { s with depth := s.depth + 1 } ⟨ready.valid, congrArg Nat.succ ready.depth⟩).imp id
    fun same => ?_
  unfold Step.opened
  rw [same]

/-! ## Going on -/

theorem Repeats.repeatFrom (means : step.Means depth f) (h : Repeats limit depth f step step')
    (start : Location) (min : Nat) (max : Option Nat) (bound : Nat) : ∀ count,
    Repeats limit depth (f.iterate start bound (min - count) (max.map (· - count)))
      (repeatFrom step start min max bound count) (repeatFrom step' start min max bound count) := by
  induction bound with
  | zero => exact fun count => .refl _ _
  | succ bound ih =>
    intro count s ready
    unfold Step.repeatFrom Meaning.iterate
    by_cases full : max.map (· - count) = some 0
    · rw [if_pos ((any_le_iff max count).mpr full), if_pos ((any_le_iff max count).mpr full)]
      exact .inr rfl
    rw [if_neg full, if_neg fun h => full ((any_le_iff max count).mp h),
      if_neg fun h => full ((any_le_iff max count).mp h)]
    rcases h s ready with met | same
    · exact .inl (met.resume _ _)
    rw [same]
    have inner := means s ready
    generalize step s = r at inner ⊢
    generalize f s.point s.saved = v at inner ⊢
    cases inner with
    | @matched output last saved log t between =>
      have still := State.position_goTo_eq_iff between saved
      by_cases stays : last.ahead = s.point.ahead
      · simp only [if_pos (still.mpr stays)]
        exact .inr trivial
      · simp only [if_neg (fun h => stays (still.mp h))]
        rw [Reading.resume_matched, if_neg stays]
        have fewer : (max.map (· - count)).map (· - 1) = max.map (· - (count + 1)) := by
          rw [Option.map_map]
          rfl
        have rest := ih (count + 1) (s.goTo last saved) (ready.goTo between saved)
        rw [State.point_goTo ready.valid between saved] at rest
        rw [fewer, Nat.sub_sub]
        exact rest.imp (fun met => (met.mapOutput _).after _) Report.andThen_congr
    | failed | aborted => exact .inr rfl

theorem Repeats.repetition (means : step.Means depth f) (h : Repeats limit depth f step step')
    (min : Nat) (max : Option Nat) :
    Repeats limit depth (f.repetition min max) (repetition step min max)
      (repetition step' min max) := by
  intro s ready
  have loop := h.repeatFrom means s.reader.location min max (s.reader.remaining.length + 1) 0
  have none : max.map (· - 0) = max := by simp
  rw [none, Nat.sub_zero] at loop
  exact loop.guarded s ready

/-- The next alternative is tried from the same state under both limits. -/
theorem Repeats.orElse (means : step.Means depth f) (h : Repeats limit depth f step step')
    {s : State} (ready : s.Ready depth) (best : Option MatchError)
    {next next' : Option MatchError → Step τ} {g : Location → Meaning τ}
    (hn : ∀ best, (g (bestReach s.reader.location best) s.point s.saved).Meets limit ∨
      next' best s = next best s) :
    ((f s.point s.saved).onFail fun further =>
        g ((bestReach s.reader.location best).later further) s.point s.saved).Meets limit ∨
      orElse s best step' next' s = orElse s best step next s := by
  rcases h s ready with met | same
  · exact .inl (met.resume _ _)
  have inner := means s ready
  have back := backTo_eq_of_follows ready.valid inner
  unfold Step.orElse
  rw [same]
  generalize step s = r at inner back ⊢
  generalize f s.point s.saved = v at inner ⊢
  cases inner with
  | matched => exact .inr rfl
  | @failed error state log mild kept =>
    rw [Reading.onFail_failed, ← bestReach_further]
    simp only [back, mild, Bool.false_eq_true, if_false]
    exact (hn _).imp (fun met => met.after _) (congrArg (Report.after log))
  | @aborted failure state log fatal kept =>
    have fatal' : (⟨failure, []⟩ : MatchError).isFatal = true := fatal
    simp only [back, fatal', if_true]
    exact .inr trivial

end Step

/-! ## Matchers and rules -/

namespace Engine

variable {π τ : Type} [CharTest π] {e e' : Engine π τ} {limit depth : Nat}
  {enter enter' : String → Matcher π → Step τ} {call : String → Matcher π → Meaning τ}

theorem repeats_evalSequence {ms : List (Matcher π)}
    (means : ∀ m ∈ ms, (e.eval enter m).Means depth (e.denote call m))
    (h : ∀ m ∈ ms, Step.Repeats limit depth (e.denote call m) (e.eval enter m)
      (e'.eval enter' m)) :
    Step.Repeats limit depth (e.denoteSequence call ms) (e.evalSequence enter ms)
      (e'.evalSequence enter' ms) := by
  induction ms with
  | nil => exact .refl _ _
  | cons m ms ih =>
    obtain ⟨meansFirst, means⟩ := List.forall_mem_cons.mp means
    obtain ⟨first, h⟩ := List.forall_mem_cons.mp h
    intro s ready
    rw [denoteSequence_cons]
    unfold evalSequence
    rcases first s ready with met | same
    · exact .inl (met.resume _ _)
    rw [same]
    have inner := meansFirst s ready
    generalize e.eval enter m s = r at inner ⊢
    generalize e.denote call m s.point s.saved = v at inner ⊢
    cases inner with
    | @matched output last saved log t between =>
      have rest := ih means h (s.goTo last saved) (ready.goTo between saved)
      rw [State.point_goTo ready.valid between saved] at rest
      exact rest.imp (fun met => (met.mapOutput _).after _) Report.andThen_congr
    | failed | aborted => exact .inr rfl

theorem repeats_evalChoice {ms : List (Matcher π)}
    (means : ∀ m ∈ ms, (e.eval enter m).Means depth (e.denote call m))
    (h : ∀ m ∈ ms, Step.Repeats limit depth (e.denote call m) (e.eval enter m)
      (e'.eval enter' m)) {s : State} (ready : s.Ready depth) (best : Option MatchError) :
    (e.denoteChoice call ms (bestReach s.reader.location best) s.point s.saved).Meets limit ∨
      e'.evalChoice enter' s best ms s = e.evalChoice enter s best ms s := by
  induction ms generalizing best with
  | nil => exact .inr rfl
  | cons m ms ih =>
    obtain ⟨meansFirst, means⟩ := List.forall_mem_cons.mp means
    obtain ⟨first, h⟩ := List.forall_mem_cons.mp h
    exact first.orElse meansFirst ready best (ih means h)

/-- The second engine has the rules of the first and a limit that is no smaller. -/
structure Deeper (e e' : Engine π τ) : Prop where
  table : e'.table = e.table
  traceRules : e'.settings.traceRules = e.settings.traceRules
  maxDepth : e.settings.maxDepth ≤ e'.settings.maxDepth

/-- A matcher repeats what it did if rules do. -/
theorem repeats_eval (deeper : e.Deeper e')
    (means : ∀ name m, (enter name m).Means depth (call name m))
    (h : ∀ name m, Step.Repeats limit depth (call name m) (enter name m) (enter' name m))
    (m : Matcher π) :
    Step.Repeats limit depth (e.denote call m) (e.eval enter m) (e'.eval enter' m) := by
  have meansEval := e.means_eval_of_enter means
  induction m with
  | char cls | text t | endOfInput | load name => exact .refl _ _
  | sequence ms ih => exact (repeats_evalSequence (fun m _ => meansEval m) ih).guarded
  | choice ms ih => exact fun s ready => repeats_evalChoice (fun m _ => meansEval m) ih ready none
  | repetition m min max ih => exact ih.repetition (meansEval m) min max
  | optional m ih => exact ih.optional
  | absent m ih => exact ih.absent
  | ref name =>
    unfold eval denote
    rw [deeper.table]
    cases e.table.rule? name with
    | some rule => exact h rule.name rule.definition
    | none => exact .refl _ _
  | rule name m _ => exact h name m
  | ignore m ih | join m ih => exact ih.mapOutput _
  | mark m ih => exact ih.mark
  | save name m ih => exact ih.save name

omit [CharTest π] in
theorem Deeper.shape (deeper : e.Deeper e') (name : String) : e'.shape name = e.shape name := by
  unfold Engine.shape
  rw [deeper.table]

omit [CharTest π] in
theorem Deeper.traced (deeper : e.Deeper e') (name : String) {step step' : Step τ}
    {f : Meaning τ} (h : Step.Repeats limit depth f step step') :
    Step.Repeats limit depth f (e.traced name step) (e'.traced name step') := by
  intro s ready
  refine (h s ready).imp id fun same => ?_
  unfold Engine.traced
  rw [same, deeper.traceRules]

/-- The limit is met where no more rules may be opened, and nowhere else does it matter. -/
theorem repeats_enter (deeper : e.Deeper e') {levels levels' : Nat}
    (size : e.settings.maxDepth - depth = levels) (size' : e'.settings.maxDepth - depth = levels')
    (name : String) (m : Matcher π) :
    Step.Repeats e.settings.maxDepth depth (e.applyRule levels name m) (e.enter levels name m)
      (e'.enter levels' name m) := by
  induction levels generalizing depth levels' name m with
  | zero => exact fun s _ => .inl ⟨s.point.location, rfl⟩
  | succ levels ih =>
    have larger := deeper.maxDepth
    obtain ⟨levels', rfl⟩ : ∃ n, levels' = n + 1 := ⟨levels' - 1, by omega⟩
    intro s ready
    have under : ¬ e.settings.maxDepth ≤ s.depth := by
      rw [ready.depth]
      omega
    have under' : ¬ e'.settings.maxDepth ≤ s.depth := by
      rw [ready.depth]
      omega
    have means : ∀ name m, (e.enter levels name m).Means (depth + 1) (e.applyRule levels name m) :=
      e.means_enter (by omega)
    have body := repeats_eval deeper means
      (fun name m => @ih (depth + 1) levels' (by omega) (by omega) name m) m
    unfold enter
    rw [if_neg under, if_neg under', deeper.shape name]
    exact (deeper.traced name body.opened).mapOutput (e.shape name) s ready

/-- Under a larger limit a matcher does the same, or it was over because the limit was
met. -/
theorem repeats_step (deeper : e.Deeper e') (depth : Nat) (m : Matcher π) :
    Step.Repeats e.settings.maxDepth depth
      (e.denote (e.applyRule (e.settings.maxDepth - depth)) m) (e.step m) (e'.step m) := by
  intro s ready
  unfold step
  rw [ready.depth]
  exact repeats_eval deeper (e.means_enter rfl) (repeats_enter deeper rfl rfl) m s ready

/-! ## Runs -/

/-- A checked matcher that is run under two limits meets the smaller one, and the run is over
with the failure that tells so and has no cause, or both runs are the same: in what they
tell, in the errors with all their causes, in what they note, and in the reader they leave. -/
theorem run_deeper {t : RuleTable π τ} {m : Matcher π} (checked : t.problem? m = none)
    (settings : Settings) {d d' : Nat} (le : d ≤ d') {reader : Reader}
    (reachable : reader.Reachable) :
    ∃ a b, Engine.run ⟨t, { settings with maxDepth := d }⟩ m reader = .ok a ∧
      Engine.run ⟨t, { settings with maxDepth := d' }⟩ m reader = .ok b ∧
      ((∃ error, a.result.error? = some error ∧ error.top.kind = .depthLimit d ∧
          error.causes = []) ∨ a = b) := by
  let e : Engine π τ := ⟨t, { settings with maxDepth := d }⟩
  let e' : Engine π τ := ⟨t, { settings with maxDepth := d' }⟩
  have deeper : e.Deeper e' := ⟨rfl, rfl, le⟩
  have ready : State.Ready 0 ⟨reader, [], 0⟩ := ⟨reachable.valid, rfl⟩
  refine ⟨e.execute m reader, e'.execute m reader, run_eq_execute checked, run_eq_execute checked,
    ?_⟩
  rcases repeats_step deeper 0 m ⟨reader, [], 0⟩ ready with met | same
  · obtain ⟨l, ended⟩ := (e.means_step 0 m ⟨reader, [], 0⟩ ready).outcome_of_meets met
    refine .inl ⟨.of (.depthLimit d) l, ?_, rfl, rfl⟩
    simp only [execute, ended]
    rfl
  · refine .inr ?_
    simp only [execute]
    rw [same]

/-- Groups are told from plain items by what is not ahead of them, and may be left out. Two
levels fit a limit of two and a limit of five alike; of three levels the smaller limit tells,
although each of the steps around the third group has another way to go on. -/
theorem deeper_nested_groups :
    let item : Matcher Empty :=
      .choice [.char (.only 'x'), .sequence [.absent (.char (.only ')')), .ref "group"]]
    let group : Matcher Empty :=
      .sequence [.char (.only '('), .optional (.repetition item 0 none), .char (.only ')')]
    let rules : List (Rule Empty Nat) := [⟨"group", group, default, none⟩]
    let t : RuleTable Empty Nat := ⟨rules, NullMap.compute rules, some "group", {}⟩
    let m : Matcher Empty := .choice [.ref "group", .repetition (.char (.range '(' ')')) 1 none]
    let run limit reader := Engine.run ⟨t, ⟨limit, false, false⟩⟩ m reader
    let shallow := Reader.ofText ['(', 'x', '(', ')', ')']
    let deep := Reader.ofText ['(', '(', '(', ')', ')', ')']
    t.problem? m = none ∧ 2 ≤ 5 ∧ shallow.Reachable ∧ deep.Reachable ∧
      (∃ a, run 2 shallow = .ok a ∧ run 5 shallow = .ok a ∧ a.result.success = true) ∧
      ∃ a b error, run 2 deep = .ok a ∧ a.result.error? = some error ∧
        error.top.kind = .depthLimit 2 ∧ error.causes = [] ∧
        run 5 deep = .ok b ∧ b.result.success = true := by
  intro item group rules t m run shallow deep
  have checked : t.problem? m = none := by decide
  have shallowReachable : shallow.Reachable := .ofText _
  have deepReachable : deep.Reachable := .ofText _
  have matched : ∀ {limit reader a}, run limit reader = .ok a →
      (Engine.execute ⟨t, ⟨limit, false, false⟩⟩ m reader).result.success =
        a.result.success := by
    intro limit reader a ran
    rw [Engine.execute_of_run checked ran]
  refine ⟨checked, by decide, shallowReachable, deepReachable, ?_, ?_⟩
  · obtain ⟨a, b, small, large, met | rfl⟩ :=
      run_deeper checked ⟨0, false, false⟩ (by decide : 2 ≤ 5) shallowReachable
    · obtain ⟨error, failed, _⟩ := met
      have success : a.result.success = true := (matched small).symm.trans (by decide +kernel)
      exact absurd (success.symm.trans (a.result.success_of_error? failed)) (by decide)
    · exact ⟨a, small, large, (matched small).symm.trans (by decide +kernel)⟩
  · obtain ⟨a, b, small, large, met | rfl⟩ :=
      run_deeper checked ⟨0, false, false⟩ (by decide : 2 ≤ 5) deepReachable
    · obtain ⟨error, failed, kind, alone⟩ := met
      exact ⟨a, b, error, small, failed, kind, alone, large,
        (matched large).symm.trans (by decide +kernel)⟩
    · have failed : a.result.success = false := (matched small).symm.trans (by decide +kernel)
      have success : a.result.success = true := (matched large).symm.trans (by decide +kernel)
      exact absurd (success.symm.trans failed) (by decide)

end Engine

end Peg
