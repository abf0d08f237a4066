import Peg.Match.Run
import Peg.Proofs.Denotation
import Peg.Proofs.Trace

/-!
# Tracing rules changes nothing

A trace is read from its front with the rules that are open at each point: to enter a rule
opens it, and to leave one closes the rule that was opened last (`TraceEvent.replay`). The
trace of a run can be read to its end, tells at each entry how many rules are open, and
leaves none open, whether the run matches, fails or is over at the limit.

No step looks at what was noted before it. So a run without a trace is the run with one, less
the trace: the same result, the same marks and the same reader (`Engine.run_traced`).
-/

namespace Peg

/-! ## Reading a trace -/

/-- A rule that has been entered, with the location at which that was. -/
abbrev OpenRule := String × Location

namespace TraceEvent

/-- The rules open after an event, latest first. An entry has to tell how many are open
before it, which have to be fewer than `limit`. An event that leaves a rule has to name the
one entered last and where that was. -/
def after (limit : Nat) (opened : List OpenRule) : TraceEvent → Option (List OpenRule)
  | entered rule l depth =>
    if depth = opened.length ∧ depth < limit then some ((rule, l) :: opened) else none
  | matched rule l _ | failed rule l _ =>
    match opened with
    | [] => none
    | latest :: earlier => if latest = (rule, l) then some earlier else none

/-- The rules open after a trace, if it can be read to its end. -/
def replay (limit : Nat) (opened : List OpenRule) (trace : List TraceEvent) :
    Option (List OpenRule) :=
  trace.foldlM (after limit) opened

/-- A rule of this name was entered at `l` and is left with this outcome and this reader. -/
def leaving {τ : Type} (rule : String) (l : Location) (outcome : Except MatchError (Output τ))
    (reader : Reader) : TraceEvent :=
  match outcome with
  | .ok _ => .matched rule l reader.location
  | .error error => .failed rule l error

variable {limit : Nat}

theorem after_leaving {τ : Type} (rule : String) (l : Location)
    (outcome : Except MatchError (Output τ)) (reader : Reader) (opened : List OpenRule) :
    after limit ((rule, l) :: opened) (leaving rule l outcome reader) = some opened := by
  cases outcome <;> exact if_pos rfl

theorem replay_append (opened : List OpenRule) (a b : List TraceEvent) :
    replay limit opened (a ++ b) =
      (replay limit opened a).bind fun opened => replay limit opened b :=
  List.foldlM_append

theorem replay_cons (opened : List OpenRule) (event : TraceEvent) (trace : List TraceEvent) :
    replay limit opened (event :: trace) =
      (after limit opened event).bind fun opened => replay limit opened trace :=
  List.foldlM_cons

/-- With `depth` rules open the trace can be read, and leaves open what was open before. -/
def Balanced (limit depth : Nat) (trace : List TraceEvent) : Prop :=
  ∀ opened : List OpenRule, opened.length = depth → replay limit opened trace = some opened

theorem balanced_nil (depth : Nat) : Balanced limit depth [] := fun _ _ => rfl

theorem Balanced.append {depth : Nat} (a b : List TraceEvent) (ha : Balanced limit depth a)
    (hb : Balanced limit depth b) : Balanced limit depth (a ++ b) := by
  intro opened size
  rw [replay_append, ha opened size, Option.bind_some, hb opened size]

/-- A rule is entered and left, with a trace of its own in between. -/
theorem Balanced.enclosed {τ : Type} {depth : Nat} (below : depth < limit)
    {inner : List TraceEvent} (h : Balanced limit (depth + 1) inner) (rule : String)
    (l : Location) (outcome : Except MatchError (Output τ)) (reader : Reader) :
    Balanced limit depth (.entered rule l depth :: (inner ++ [leaving rule l outcome reader])) := by
  intro opened size
  have entry : after limit opened (.entered rule l depth) = some ((rule, l) :: opened) :=
    if_pos ⟨size.symm, below⟩
  have body : replay limit ((rule, l) :: opened) inner = some ((rule, l) :: opened) :=
    h _ (congrArg Nat.succ size)
  rw [replay_cons, entry, Option.bind_some, replay_append, body, Option.bind_some, replay_cons,
    after_leaving, Option.bind_some]
  rfl

end TraceEvent

namespace Engine

variable {π τ : Type} {e : Engine π τ} {depth : Nat}

/-- The trace of a rule is that of its body, with the entry before it and what the body has
come to behind it. -/
theorem traced_eq (on : e.settings.traceRules = true) (name : String) (step : Step τ)
    (s : State) :
    e.traced name step s =
      { step s with
        log := ⟨(step s).log.marks, .entered name s.reader.location s.depth ::
          ((step s).log.trace ++ [TraceEvent.leaving name s.reader.location (step s).outcome
            (step s).state.reader])⟩ } := by
  unfold traced
  rw [if_pos on]
  generalize step s = r
  obtain ⟨outcome, state, log⟩ := r
  have marks : [] ++ (log.marks ++ []) = log.marks := List.append_nil _
  cases outcome <;> exact congrArg (fun marks => Report.mk _ state ⟨marks, _⟩) marks

variable [CharTest π]

theorem traces_enter_balanced (on : e.settings.traceRules = true) (levels : Nat) (name : String)
    (m : Matcher π) :
    (e.enter levels name m).Traces depth (TraceEvent.Balanced e.settings.maxDepth depth) := by
  induction levels generalizing depth name m with
  | zero => exact fun _ same => ⟨TraceEvent.balanced_nil depth, same⟩
  | succ levels ih =>
    intro s same
    unfold enter
    split
    · exact ⟨TraceEvent.balanced_nil depth, same⟩
    · next under =>
      have below : depth < e.settings.maxDepth := by omega
      refine Step.Traces.mapOutput (fun s same => ?_) _ s same
      have body := e.traces_eval_of_enter (TraceEvent.balanced_nil (depth + 1))
        TraceEvent.Balanced.append (fun name m => @ih (depth + 1) name m) m
      obtain ⟨inner, left⟩ := body.opened s same
      rw [traced_eq on, same]
      exact ⟨inner.enclosed below name _ _ _, left⟩

end Engine

/-! ## Steps without a trace -/

namespace Report

variable {τ : Type}

/-- The report without what was traced. -/
def untraced (r : Report τ) : Report τ := { r with log := ⟨r.log.marks, []⟩ }

theorem untraced_eq_self {r : Report τ} (nothing : r.log.trace = []) : r.untraced = r := by
  obtain ⟨outcome, state, marks, trace⟩ := r
  cases nothing
  rfl

theorem untraced_mapOutput (f : Output τ → Output τ) (r : Report τ) :
    (r.mapOutput f).untraced = r.untraced.mapOutput f := by
  obtain ⟨outcome, state, log⟩ := r
  cases outcome <;> rfl

theorem untraced_settle {α : Type} (r : Report τ) (saved : List (String × Text))
    (x : Except ReaderFault α × Reader) :
    (r.settle saved x).untraced = r.untraced.settle saved x := by
  obtain ⟨_ | _, reader⟩ := x <;> rfl

theorem untraced_backTo (origin : State) (r : Report τ) :
    (r.backTo origin).untraced = r.untraced.backTo origin := untraced_settle ..

theorem untraced_andThen {next next' : Step τ} (h : ∀ s, next' s = (next s).untraced)
    (r : Report τ) : (r.andThen next).untraced = r.untraced.andThen next' := by
  obtain ⟨outcome, state, log⟩ := r
  cases outcome with
  | error error => rfl
  | ok output =>
    unfold andThen
    dsimp only [untraced]
    rw [h]
    generalize next state = rest
    obtain ⟨outcome, state, log⟩ := rest
    cases outcome <;> rfl

end Report

namespace Step

variable {τ : Type} {step step' : Step τ}

/-- The second step does what the first one does, without a trace. -/
def Mutes (step step' : Step τ) : Prop := ∀ s, step' s = (step s).untraced

/-- A step whose trace has every property of the empty trace has no trace. -/
theorem mutes_self (nothing : ∀ depth P, P [] → step.Traces depth P) : Mutes step step := fun s =>
  (Report.untraced_eq_self (nothing s.depth (· = []) rfl s rfl).1).symm

theorem mutes_enough (start : Location) (min count : Nat) (cause : Option MatchError) :
    Mutes (enough start min count cause : Step τ) (enough start min count cause) :=
  mutes_self fun _ _ nil => traces_enough nil start min count cause

theorem Mutes.guarded (h : Mutes step step') : Mutes (guarded step) (guarded step') := by
  intro s
  unfold Step.guarded
  rw [h]
  generalize step { s with reader := s.reader.save } = r
  obtain ⟨outcome, state, log⟩ := r
  cases outcome <;> exact (Report.untraced_settle _ _ _).symm

theorem Mutes.absorb (h : Mutes step step') : Mutes (absorb step) (absorb step') := by
  intro s
  unfold Step.absorb
  rw [h]
  generalize step s = r
  obtain ⟨outcome, state, log⟩ := r
  cases outcome with
  | ok output => rfl
  | error error =>
    dsimp only [Report.untraced]
    split <;> rfl

theorem Mutes.absent (h : Mutes step step') : Mutes (absent step) (absent step') := by
  intro s
  unfold Step.absent
  rw [h, ← Report.untraced_backTo]
  generalize (step s).backTo s = r
  obtain ⟨outcome, state, log⟩ := r
  cases outcome with
  | ok output => rfl
  | error error =>
    dsimp only [Report.untraced]
    split <;> rfl

theorem Mutes.mapOutput (h : Mutes step step') (f : Output τ → Output τ) :
    Mutes (fun s => (step s).mapOutput f) fun s => (step' s).mapOutput f := fun s =>
  (congrArg (·.mapOutput f) (h s)).trans (Report.untraced_mapOutput f _).symm

theorem Mutes.mark (h : Mutes step step') : Mutes (mark step) (mark step') := by
  intro s
  unfold Step.mark
  rw [h]
  generalize step s = r
  obtain ⟨outcome, state, log⟩ := r
  cases outcome <;> rfl

theorem Mutes.save (h : Mutes step step') (name : String) :
    Mutes (save name step) (save name step') := by
  intro s
  unfold Step.save
  rw [h]
  generalize step s = r
  obtain ⟨outcome, state, log⟩ := r
  cases outcome <;> rfl

theorem Mutes.opened (h : Mutes step step') : Mutes (opened step) (opened step') := by
  intro s
  unfold Step.opened
  rw [h]
  rfl

theorem Mutes.repeatFrom (h : Mutes step step') (start : Location) (min : Nat)
    (max : Option Nat) (bound : Nat) : ∀ count,
    Mutes (repeatFrom step start min max bound count)
      (repeatFrom step' start min max bound count) := by
  induction bound with
  | zero => exact fun count => mutes_enough start min count none
  | succ bound ih =>
    intro count s
    unfold Step.repeatFrom
    by_cases full : max.any (· ≤ count) = true
    · rw [if_pos full, if_pos full]
      exact mutes_enough start min count none s
    rw [if_neg full, if_neg full, h]
    dsimp only
    rw [← Report.untraced_backTo]
    generalize (step s).backTo s = back
    generalize step s = r
    obtain ⟨outcome, state, log⟩ := r
    cases outcome with
    | ok output =>
      by_cases still : state.reader.position = s.reader.position
      · exact (if_pos still).trans (congrArg Report.untraced (if_pos still).symm)
      · refine (if_neg still).trans (.trans ?_ (congrArg Report.untraced (if_neg still).symm))
        exact (Report.untraced_andThen (ih (count + 1)) ⟨.ok output, state, log⟩).symm
    | error error =>
      obtain ⟨outcome', state', log'⟩ := back
      dsimp only [Report.untraced]
      split
      · rfl
      · cases outcome' with
        | ok output => rfl
        | error error' =>
          dsimp only
          split
          · rfl
          · rw [mutes_enough start min count (some error') state']
            rfl

theorem Mutes.repetition (h : Mutes step step') (min : Nat) (max : Option Nat) :
    Mutes (repetition step min max) (repetition step' min max) := fun s =>
  (h.repeatFrom s.reader.location min max _ 0).guarded s

theorem Mutes.orElse (h : Mutes step step') {next next' : Option MatchError → Step τ}
    (hn : ∀ best, Mutes (next best) (next' best)) (origin : State) (best : Option MatchError) :
    Mutes (orElse origin best step next) (orElse origin best step' next') := by
  intro s
  unfold Step.orElse
  rw [h]
  dsimp only
  rw [← Report.untraced_backTo]
  generalize (step s).backTo origin = back
  generalize step s = r
  obtain ⟨outcome, state, log⟩ := r
  cases outcome with
  | ok output => rfl
  | error error =>
    obtain ⟨outcome', state', log'⟩ := back
    cases outcome' with
    | ok output => rfl
    | error error' =>
      dsimp only [Report.untraced]
      split
      · rfl
      · rw [hn]
        rfl

end Step

/-! ## Matchers and rules -/

namespace Engine

variable {π τ : Type} [CharTest π] {e e' : Engine π τ} {enter enter' : String → Matcher π → Step τ}

theorem mutes_evalSequence {ms : List (Matcher π)}
    (h : ∀ m ∈ ms, Step.Mutes (e.eval enter m) (e'.eval enter' m)) :
    Step.Mutes (e.evalSequence enter ms) (e'.evalSequence enter' ms) := by
  induction ms with
  | nil => exact fun _ => rfl
  | cons m ms ih =>
    obtain ⟨first, rest⟩ := List.forall_mem_cons.mp h
    intro s
    unfold evalSequence
    rw [first]
    exact (Report.untraced_andThen (ih rest) _).symm

theorem mutes_evalChoice {ms : List (Matcher π)}
    (h : ∀ m ∈ ms, Step.Mutes (e.eval enter m) (e'.eval enter' m)) (origin : State)
    (best : Option MatchError) :
    Step.Mutes (e.evalChoice enter origin best ms) (e'.evalChoice enter' origin best ms) := by
  induction ms generalizing best with
  | nil => exact Step.mutes_self fun _ _ nil => Step.traces_exhausted nil origin best
  | cons m ms ih =>
    obtain ⟨first, rest⟩ := List.forall_mem_cons.mp h
    exact first.orElse (ih rest) origin best

/-- A matcher is muted if rules are. -/
theorem mutes_eval (table : e'.table = e.table)
    (h : ∀ name m, Step.Mutes (enter name m) (enter' name m)) (m : Matcher π) :
    Step.Mutes (e.eval enter m) (e'.eval enter' m) := by
  induction m with
  | char cls => exact Step.mutes_self fun _ _ nil => Step.traces_char nil _ _
  | text t => exact Step.mutes_self fun _ _ nil => Step.traces_text nil _ _
  | endOfInput => exact Step.mutes_self fun _ _ nil => Step.traces_endOfInput nil
  | sequence ms ih => exact (mutes_evalSequence ih).guarded
  | choice ms ih => exact fun s => mutes_evalChoice ih s none s
  | repetition m min max ih => exact ih.repetition min max
  | optional m ih => exact ih.guarded.absorb
  | absent m ih => exact ih.absent
  | ref name =>
    unfold eval
    rw [table]
    cases e.table.rule? name with
    | some rule => exact h rule.name rule.definition
    | none => exact fun _ => rfl
  | rule name m _ => exact h name m
  | ignore m ih | join m ih => exact ih.mapOutput _
  | mark m ih => exact ih.mark
  | save name m ih => exact ih.save name
  | load name => exact Step.mutes_self fun _ _ nil => Step.traces_load nil name

omit [CharTest π] in
/-- What a rule traces itself is left out as well. -/
theorem mutes_traced {step step' : Step τ} (h : Step.Mutes step step') (name : String) :
    Step.Mutes (e.traced name step) step' := by
  intro s
  rw [h]
  cases trace : e.settings.traceRules with
  | false => rw [e.traced_eq_self trace]
  | true =>
    rw [traced_eq trace]
    rfl

theorem mutes_enter (table : e'.table = e.table)
    (limit : e'.settings.maxDepth = e.settings.maxDepth) (off : e'.settings.traceRules = false)
    (levels : Nat) (name : String) (m : Matcher π) :
    Step.Mutes (e.enter levels name m) (e'.enter levels name m) := by
  induction levels generalizing name m with
  | zero =>
    intro s
    unfold enter
    rw [limit]
    rfl
  | succ levels ih =>
    intro s
    have shape : e'.shape name = e.shape name := by
      unfold Engine.shape
      rw [table]
    unfold enter
    rw [limit, shape, e'.traced_eq_self off]
    split
    · rfl
    · exact ((mutes_traced (mutes_eval table ih m).opened name).mapOutput _) s

theorem mutes_step (table : e'.table = e.table)
    (limit : e'.settings.maxDepth = e.settings.maxDepth) (off : e'.settings.traceRules = false)
    (m : Matcher π) : Step.Mutes (e.step m) (e'.step m) := by
  intro s
  unfold step
  rw [limit]
  exact mutes_eval table (mutes_enter table limit off _) m s

theorem traces_step_balanced (on : e.settings.traceRules = true) (m : Matcher π) :
    (e.step m).Traces depth (TraceEvent.Balanced e.settings.maxDepth depth) := by
  intro s same
  unfold step
  exact e.traces_eval_of_enter (TraceEvent.balanced_nil depth) TraceEvent.Balanced.append
    (traces_enter_balanced on _) m s same

/-- The trace of a rule that is applied begins with its entry and ends with what it has come
to. -/
theorem exists_trace_rule (on : e.settings.traceRules = true) (name : String) (m : Matcher π)
    {s : State} (below : s.depth < e.settings.maxDepth) :
    ∃ inner, (e.step (.rule name m) s).log.trace = .entered name s.reader.location s.depth ::
      (inner ++ [TraceEvent.leaving name s.reader.location (e.step (.rule name m) s).outcome
        (e.step (.rule name m) s).state.reader]) := by
  obtain ⟨levels, size⟩ : ∃ n, e.settings.maxDepth - s.depth = n + 1 :=
    ⟨e.settings.maxDepth - s.depth - 1, by omega⟩
  have entered : e.step (.rule name m) s =
      (e.traced name (.opened (e.eval (e.enter levels) m)) s).mapOutput (e.shape name) := by
    unfold step
    rw [size, eval]
    exact if_neg (Nat.not_le.mpr below)
  rw [entered, traced_eq on]
  generalize Step.opened (e.eval (e.enter levels) m) s = r
  obtain ⟨outcome, state, log⟩ := r
  cases outcome <;> exact ⟨log.trace, rfl⟩

/-! ## Runs -/

/-- A checked matcher is run with its rules traced and without. The trace is balanced: it
tells at each entry how many rules are open, always fewer than the limit, and closes each
rule that it opens once, the latest first, under its name and with the location of its entry.
The run of a rule is traced from its entry to what it has come to. The run without a trace is
the same but for the trace. -/
theorem run_traced {t : RuleTable π τ} {m : Matcher π} (checked : t.problem? m = none)
    (settings : Settings) (reader : Reader) :
    ∃ a, Engine.run ⟨t, { settings with traceRules := true }⟩ m reader = .ok a ∧
      Engine.run ⟨t, { settings with traceRules := false }⟩ m reader =
        .ok { a with log := ⟨a.log.marks, []⟩ } ∧
      TraceEvent.replay settings.maxDepth [] a.log.trace = some [] ∧
      ∀ name body, m = .rule name body → 0 < settings.maxDepth →
        ∃ inner, a.log.trace = .entered name reader.location 0 ::
          (inner ++ [TraceEvent.leaving name reader.location a.result.outcome a.reader]) := by
  let e : Engine π τ := ⟨t, { settings with traceRules := true }⟩
  let e' : Engine π τ := ⟨t, { settings with traceRules := false }⟩
  have muted : e'.step m ⟨reader, [], 0⟩ = (e.step m ⟨reader, [], 0⟩).untraced :=
    @mutes_step _ _ _ e e' rfl rfl rfl m ⟨reader, [], 0⟩
  have balanced := (traces_step_balanced (e := e) rfl m ⟨reader, [], 0⟩ rfl).1 [] rfl
  refine ⟨e.execute m reader, run_eq_execute checked, ?_, balanced,
    fun name body same below => ?_⟩
  · rw [run_eq_execute checked]
    refine congrArg Except.ok ?_
    show e'.execute m reader = _
    unfold execute
    rw [muted]
    rfl
  · subst same
    obtain ⟨inner, whole⟩ := exists_trace_rule (e := e) rfl name body
      (s := ⟨reader, [], 0⟩) below
    refine ⟨inner, whole.trans ?_⟩
    unfold execute
    generalize e.step (.rule name body) ⟨reader, [], 0⟩ = r
    obtain ⟨outcome, state, log⟩ := r
    cases outcome <;> rfl

/-- A group is told from a plain item by what is not ahead of it. The third group is one too
many for a limit of four open rules, and the item that it is, which has another way to go on,
does not take it. -/
theorem traced_nested_groups :
    let item : Matcher Empty :=
      .choice [.char (.only 'x'), .sequence [.absent (.char (.only ')')), .ref "group"],
        .char (.range '(' ')')]
    let group : Matcher Empty :=
      .sequence [.char (.only '('), .repetition (.ref "item") 0 none, .char (.only ')')]
    let rules : List (Rule Empty Nat) :=
      [⟨"group", group, default, none⟩, ⟨"item", item, default, none⟩]
    let t : RuleTable Empty Nat := ⟨rules, NullMap.compute rules, some "group", {}⟩
    let m : Matcher Empty := .rule "group" group
    let reader := Reader.ofText ['(', 'x', '(', '(', ')', ')', ')']
    let run trace := Engine.run ⟨t, ⟨4, false, trace⟩⟩ m reader
    t.problem? m = none ∧ 0 < 4 ∧
      ∃ a inner, run true = .ok a ∧ run false = .ok { a with log := ⟨a.log.marks, []⟩ } ∧
        TraceEvent.replay 4 [] a.log.trace = some [] ∧
        a.log.trace = .entered "group" reader.location 0 ::
          (inner ++ [TraceEvent.leaving "group" reader.location a.result.outcome a.reader]) ∧
        a.log.trace.length = 10 ∧ a.result.success = false := by
  intro item group rules t m reader run
  have checked : t.problem? m = none := by decide
  obtain ⟨a, ran, muted, balanced, whole⟩ := run_traced checked ⟨4, false, false⟩ reader
  obtain ⟨inner, whole⟩ := whole "group" group rfl (by decide)
  have same : Engine.execute ⟨t, ⟨4, false, true⟩⟩ m reader = a := execute_of_run checked ran
  have size : a.log.trace.length = 10 := by
    rw [← same]
    decide +kernel
  have failed : a.result.success = false := by
    rw [← same]
    decide +kernel
  exact ⟨checked, by decide, a, inner, ran, muted, balanced, whole, size, failed⟩

end Engine

end Peg
