import Peg.Match.Eval

/-!
# The trace of a match

What a step notes of the rules it applies. Every way of combining steps appends what
the single steps have noted, so a property of traces that the empty trace has and that
appending keeps holds of a combined step if it holds of its parts (`Step.Traces`). As
the property may depend on the number of rules open, this goes along with the fact that
a step leaves as many open as there were.

With rules traced, the trace is a sequence of brackets: each rule that is entered is
left again, whether it matches, fails or ends the run (`Engine.traces_step`).
-/

namespace Peg

/-- Rules that are entered at `depth` open rules and left again, one after the other. -/
inductive Bracketed : (depth : Nat) → List TraceEvent → Prop
  | nil {depth : Nat} : Bracketed depth []
  | append {depth : Nat} {a b : List TraceEvent} :
      Bracketed depth a → Bracketed depth b → Bracketed depth (a ++ b)
  | matched {depth : Nat} {inner : List TraceEvent} (rule : String) (first last : Location) :
      Bracketed (depth + 1) inner →
      Bracketed depth (.entered rule first depth :: (inner ++ [.matched rule first last]))
  | failed {depth : Nat} {inner : List TraceEvent} (rule : String) (first : Location)
      (error : MatchError) :
      Bracketed (depth + 1) inner →
      Bracketed depth (.entered rule first depth :: (inner ++ [.failed rule first error]))

namespace Step

variable {τ : Type}

/-- With `depth` rules open, what the step traces has the property, and as many rules are
left open. -/
def Traces (depth : Nat) (P : List TraceEvent → Prop) (step : Step τ) : Prop :=
  ∀ s : State, s.depth = depth → P (step s).log.trace ∧ (step s).state.depth = depth

variable {depth : Nat} {P : List TraceEvent → Prop}

section

variable (nil : P []) {step next : Step τ}
include nil

theorem traces_char (accepts : Char → Bool) (expected : String) :
    (char accepts expected : Step τ).Traces depth P := by
  intro s same
  unfold char
  split
  · split
    · exact ⟨nil, same⟩
    · exact ⟨nil, same⟩
  · exact ⟨nil, same⟩

theorem traces_text (t : Text) (otherwise : FailureKind) :
    (text t otherwise : Step τ).Traces depth P := by
  intro s same
  unfold text
  split
  · exact ⟨nil, same⟩
  · exact ⟨nil, same⟩

theorem traces_endOfInput : (endOfInput : Step τ).Traces depth P := by
  intro s same
  unfold endOfInput
  split
  · exact ⟨nil, same⟩
  · exact ⟨nil, same⟩

theorem traces_load (name : String) : (load name : Step τ).Traces depth P := by
  intro s same
  unfold load
  split
  · exact traces_text nil _ _ s same
  · exact ⟨nil, same⟩

theorem traces_enough (start : Location) (min count : Nat) (cause : Option MatchError) :
    (enough start min count cause : Step τ).Traces depth P := by
  intro s same
  unfold enough
  split
  · cases cause with
    | none => exact ⟨nil, same⟩
    | some e => exact ⟨nil, same⟩
  · exact ⟨nil, same⟩

theorem traces_exhausted (origin : State) (best : Option MatchError) :
    (exhausted origin best : Step τ).Traces depth P := by
  intro s same
  cases best with
  | none => exact ⟨nil, same⟩
  | some e => exact ⟨nil, same⟩

end

theorem log_mapOutput (r : Report τ) (f : Output τ → Output τ) : (r.mapOutput f).log = r.log := by
  unfold Report.mapOutput
  split
  · rfl
  · rfl

theorem state_mapOutput (r : Report τ) (f : Output τ → Output τ) :
    (r.mapOutput f).state = r.state := by
  unfold Report.mapOutput
  split
  · rfl
  · rfl

/-- Going back neither traces anything nor opens or closes a rule. -/
theorem traces_settle {α : Type} {r : Report τ} (h : P r.log.trace ∧ r.state.depth = depth)
    (saved : List (String × Text)) (x : Except ReaderFault α × Reader) :
    P (r.settle saved x).log.trace ∧ (r.settle saved x).state.depth = depth := by
  obtain ⟨_ | _, reader⟩ := x
  · exact h
  · exact h

variable {step : Step τ}

theorem Traces.guarded (h : step.Traces depth P) : (guarded step).Traces depth P := by
  intro s same
  have inner := h { s with reader := s.reader.save } same
  unfold Step.guarded
  dsimp only
  split
  · exact traces_settle inner _ _
  · exact traces_settle inner _ _

theorem Traces.absorb (h : step.Traces depth P) : (absorb step).Traces depth P := by
  intro s same
  unfold Step.absorb
  dsimp only
  split
  · exact h s same
  · split
    · exact h s same
    · exact h s same

theorem Traces.absent (h : step.Traces depth P) : (absent step).Traces depth P := by
  intro s same
  have inner := traces_settle (h s same) s.saved
    ((step s).state.reader.rewind s.reader.location)
  unfold Step.absent Report.backTo
  dsimp only
  split
  · exact inner
  · split
    · exact inner
    · exact inner

theorem Traces.mapOutput (h : step.Traces depth P) (f : Output τ → Output τ) :
    Traces depth P fun s => (step s).mapOutput f := by
  intro s same
  rw [log_mapOutput, state_mapOutput]
  exact h s same

theorem Traces.mark (h : step.Traces depth P) : (mark step).Traces depth P := by
  intro s same
  unfold Step.mark
  dsimp only
  split
  · have none : (step s).log.trace ++ [] = (step s).log.trace := List.append_nil _
    show P ((step s).log.trace ++ []) ∧ _
    rw [none]
    exact h s same
  · exact h s same

theorem Traces.save (h : step.Traces depth P) (name : String) :
    (save name step).Traces depth P := by
  intro s same
  unfold Step.save
  dsimp only
  split
  · exact h s same
  · exact h s same

theorem Traces.opened (h : step.Traces (depth + 1) P) : (opened step).Traces depth P := by
  intro s same
  obtain ⟨traced, left⟩ := h { s with depth := s.depth + 1 } (congrArg Nat.succ same)
  exact ⟨traced, congrArg Nat.pred left⟩

section

variable (append : ∀ a b, P a → P b → P (a ++ b))
include append

theorem Traces.after {next : Step τ} (hn : next.Traces depth P) {r : Report τ}
    (h : P r.log.trace ∧ r.state.depth = depth) :
    P ((next r.state).after r.log).log.trace ∧
      ((next r.state).after r.log).state.depth = depth :=
  ⟨append _ _ h.1 (hn r.state h.2).1, (hn r.state h.2).2⟩

theorem Traces.andThen {next : Step τ} (hn : next.Traces depth P) {r : Report τ}
    (h : P r.log.trace ∧ r.state.depth = depth) :
    P (r.andThen next).log.trace ∧ (r.andThen next).state.depth = depth := by
  unfold Report.andThen
  split
  · exact h
  · have both := hn.after append h
    dsimp only
    split
    · exact both
    · exact both

theorem Traces.orElse (h : step.Traces depth P) {next : Option MatchError → Step τ}
    (hn : ∀ best, (next best).Traces depth P) (origin : State) (best : Option MatchError) :
    (orElse origin best step next).Traces depth P := by
  intro s same
  have inner := traces_settle (h s same) origin.saved
    ((step s).state.reader.rewind origin.reader.location)
  unfold Step.orElse Report.backTo
  dsimp only
  split
  · exact h s same
  · split
    · exact inner
    · split
      · exact inner
      · exact (hn _).after append inner

theorem Traces.repeatFrom (nil : P []) (h : step.Traces depth P) (start : Location) (min : Nat)
    (max : Option Nat) (bound : Nat) :
    ∀ count, (repeatFrom step start min max bound count).Traces depth P := by
  induction bound with
  | zero => exact fun count => traces_enough nil start min count none
  | succ bound ih =>
    intro count s same
    have inner := traces_settle (h s same) s.saved
      ((step s).state.reader.rewind s.reader.location)
    unfold Step.repeatFrom Report.backTo
    split
    · exact traces_enough nil start min count none s same
    · dsimp only
      split
      · split
        · exact h s same
        · exact (ih (count + 1)).andThen append (h s same)
      · split
        · exact h s same
        · split
          · exact inner
          · split
            · exact inner
            · exact (traces_enough nil start min count _).after append inner

theorem Traces.repetition (nil : P []) (h : step.Traces depth P) (min : Nat)
    (max : Option Nat) : (repetition step min max).Traces depth P := fun s same =>
  (h.repeatFrom append nil s.reader.location min max _ 0).guarded s same

end

end Step

namespace Engine

variable {π τ : Type} [CharTest π] {depth : Nat} {P : List TraceEvent → Prop}
  {enter : String → Matcher π → Step τ}

theorem traces_evalSequence (e : Engine π τ) (nil : P []) (append : ∀ a b, P a → P b → P (a ++ b))
    {ms : List (Matcher π)} (h : ∀ m ∈ ms, (e.eval enter m).Traces depth P) :
    (e.evalSequence enter ms).Traces depth P := by
  induction ms with
  | nil => exact fun _ same => ⟨nil, same⟩
  | cons m ms ih =>
    have rest := ih fun m hm => h m (List.mem_cons_of_mem _ hm)
    exact fun s same => rest.andThen append (h m List.mem_cons_self s same)

theorem traces_evalChoice (e : Engine π τ) (nil : P []) (append : ∀ a b, P a → P b → P (a ++ b))
    {ms : List (Matcher π)} (h : ∀ m ∈ ms, (e.eval enter m).Traces depth P) (origin : State)
    (best : Option MatchError) : (e.evalChoice enter origin best ms).Traces depth P := by
  induction ms generalizing best with
  | nil => exact Step.traces_exhausted nil origin best
  | cons m ms ih =>
    have rest := ih fun m hm => h m (List.mem_cons_of_mem _ hm)
    exact (h m List.mem_cons_self).orElse append rest origin best

/-- What a matcher traces has a property that the traces of rules have. -/
theorem traces_eval_of_enter (e : Engine π τ) (nil : P [])
    (append : ∀ a b, P a → P b → P (a ++ b)) (h : ∀ name m, (enter name m).Traces depth P)
    (m : Matcher π) : (e.eval enter m).Traces depth P := by
  induction m with
  | char cls => exact Step.traces_char nil _ _
  | text t => exact Step.traces_text nil _ _
  | endOfInput => exact Step.traces_endOfInput nil
  | sequence ms ih => exact (e.traces_evalSequence nil append ih).guarded
  | choice ms ih => exact fun s same => e.traces_evalChoice nil append ih s none s same
  | repetition m min max ih => exact ih.repetition append nil min max
  | optional m ih => exact ih.guarded.absorb
  | absent m ih => exact ih.absent
  | ref name =>
    unfold eval
    cases e.table.rule? name with
    | some rule => exact h rule.name rule.definition
    | none => exact fun _ same => ⟨nil, same⟩
  | rule name m _ => exact h name m
  | ignore m ih | join m ih => exact ih.mapOutput _
  | mark m ih => exact ih.mark
  | save name m ih => exact ih.save name
  | load name => exact Step.traces_load nil name

theorem append_eq_nil (a b : List TraceEvent) (ha : a = []) (hb : b = []) : a ++ b = [] := by
  rw [ha, hb]
  rfl

omit [CharTest π] in
theorem traced_eq_self (e : Engine π τ) (off : e.settings.traceRules = false) (name : String)
    (step : Step τ) : e.traced name step = step := by
  funext s
  unfold traced
  rw [if_neg (by rw [off]; exact Bool.false_ne_true)]

/-- Nothing is traced unless it is asked for. -/
theorem traces_enter_nil (e : Engine π τ) (off : e.settings.traceRules = false) (levels : Nat)
    (name : String) (m : Matcher π) : (e.enter levels name m).Traces depth (· = []) := by
  induction levels generalizing depth name m with
  | zero => exact fun _ same => ⟨rfl, same⟩
  | succ levels ih =>
    intro s same
    unfold enter
    split
    · exact ⟨rfl, same⟩
    · have body := @traces_eval_of_enter _ _ _ _ (· = []) _ e rfl append_eq_nil
        (fun name m => @ih (depth + 1) name m) m
      rw [e.traced_eq_self off]
      exact body.opened.mapOutput _ s same

theorem traces_enter_bracketed (e : Engine π τ) (on : e.settings.traceRules = true)
    (levels : Nat) (name : String) (m : Matcher π) :
    (e.enter levels name m).Traces depth (Bracketed depth) := by
  induction levels generalizing depth name m with
  | zero => exact fun _ same => ⟨.nil, same⟩
  | succ levels ih =>
    intro s same
    unfold enter
    split
    · exact ⟨.nil, same⟩
    · refine Step.Traces.mapOutput (fun s same => ?_) _ s same
      -- The body is traced one deeper, in between its own two brackets.
      have body := e.traces_eval_of_enter .nil (fun _ _ => .append)
        (fun name m => @ih (depth + 1) name m) m
      obtain ⟨inner, left⟩ := body.opened s same
      unfold traced
      rw [if_pos on, same]
      dsimp only
      split
      · exact ⟨.matched name _ _ inner, left⟩
      · exact ⟨.failed name _ _ inner, left⟩

/-- A matcher leaves every rule that it enters, so that as many are open as before. -/
theorem traces_step (e : Engine π τ) (m : Matcher π) :
    (e.step m).Traces depth (Bracketed depth) := by
  intro s same
  unfold step
  generalize e.settings.maxDepth - s.depth = levels
  cases trace : e.settings.traceRules with
  | false =>
    obtain ⟨none, left⟩ := @traces_eval_of_enter _ _ _ _ (· = []) _ e rfl append_eq_nil
      (e.traces_enter_nil trace levels) m s same
    exact ⟨none ▸ .nil, left⟩
  | true =>
    exact e.traces_eval_of_enter .nil (fun _ _ => .append)
      (fun name m => e.traces_enter_bracketed trace levels name m) m s same

end Engine

end Peg
