import Mathlib.Data.List.Forall2
import Peg.Match.Run
import Peg.Proofs.Refinement

/-!
# Matching depends on the text ahead alone

Two readers stand at different offsets of different texts, with save points of their own,
and the same text is ahead of both. A matcher does the same from both: it comes to the same
outcome with the same output, its errors tell the same at each link of the chain, it notes
the same, and all offsets differ by as much as those it began with (`Engine.run_shifted`).

`Location.Shifted` says how the two locations of a pair differ; it is carried over to all
that holds locations. Each way of combining steps keeps it (`Step.Shifts`). Where a failed
attempt is taken back, both readers return to where the attempt began, by the meaning that
each of the two steps follows.
-/

namespace Peg

/-! ## Shifted locations -/

/-- The second location lies `d` bytes further on than the first. -/
def Location.Shifted (d : Int) (l l' : Location) : Prop := (l'.offset : Int) = l.offset + d

namespace Location

variable {d : Int} {l l' m m' : Location}

theorem Shifted.advanceOver (h : l.Shifted d l') (t : Text) :
    (l.advanceOver t).Shifted d (l'.advanceOver t) := by
  unfold Shifted at *
  rw [advanceOver_offset, advanceOver_offset]
  omega

/-- Of two pairs the same one is further on in both texts. -/
theorem Shifted.lt_iff (h : l.Shifted d l') (hm : m.Shifted d m') :
    l.offset < m.offset ↔ l'.offset < m'.offset := by
  unfold Shifted at *
  omega

theorem Shifted.later (h : l.Shifted d l') (hm : m.Shifted d m') :
    (l.later m).Shifted d (l'.later m') := by
  have same := h.lt_iff hm
  by_cases further : l.offset < m.offset
  · rw [Location.later, Location.later, if_pos further, if_pos (same.mp further)]
    exact hm
  · rw [Location.later, Location.later, if_neg further, if_neg fun h => further (same.mpr h)]
    exact h

end Location

/-- The two failures are of one kind, so that they have one message as well. -/
structure Failure.Shifted (d : Int) (f f' : Failure) : Prop where
  kind : f.kind = f'.kind
  location : f.location.Shifted d f'.location

/-- The two errors tell the same at every link of their chains. -/
def MatchError.Shifted (d : Int) (e e' : MatchError) : Prop :=
  List.Forall₂ (Failure.Shifted d) e.chain e'.chain

namespace MatchError

variable {d : Int} {e e' : MatchError}

theorem shifted_of {l l' : Location} (kind : FailureKind) (h : l.Shifted d l') :
    (of kind l).Shifted d (of kind l') := .cons ⟨rfl, h⟩ .nil

theorem Shifted.causedBy {cause cause' : MatchError} (h : cause.Shifted d cause')
    {l l' : Location} (kind : FailureKind) (start : l.Shifted d l') :
    ((of kind l).causedBy cause).Shifted d ((of kind l').causedBy cause') :=
  .cons ⟨rfl, start⟩ h

theorem Shifted.top (h : e.Shifted d e') : e.top.Shifted d e'.top :=
  (List.forall₂_cons.mp h).1

theorem Shifted.isFatal_eq (h : e.Shifted d e') : e.isFatal = e'.isFatal :=
  congrArg FailureKind.isFatal h.top.kind

theorem Shifted.messages_eq (h : e.Shifted d e') :
    e.chain.map (·.message) = e'.chain.map (·.message) := by
  rw [← List.forall₂_eq_eq_eq, List.forall₂_map_left_iff, List.forall₂_map_right_iff]
  exact h.imp fun _ _ same => congrArg FailureKind.message same.kind

theorem Shifted.furthest (h : e.Shifted d e') : e.furthest.Shifted d e'.furthest := by
  have causes : ∀ fs fs' : List Failure, List.Forall₂ (Failure.Shifted d) fs fs' →
      ∀ l l' : Location, l.Shifted d l' →
        (fs.foldl (fun best f => best.later f.location) l).Shifted d
          (fs'.foldl (fun best f => best.later f.location) l') := by
    intro fs fs' same
    induction same with
    | nil => exact fun _ _ best => best
    | cons first _ ih => exact fun _ _ best => ih _ _ (best.later first.location)
  exact causes _ _ (List.forall₂_cons.mp h).2 _ _ h.top.location

/-- The same one of two failures goes further in both texts. -/
theorem Shifted.further {best best' : Option MatchError}
    (hb : Option.Rel (MatchError.Shifted d) best best') (h : e.Shifted d e') :
    (Step.further best e).Shifted d (Step.further best' e') := by
  cases hb with
  | none => exact h
  | @some b b' hb =>
    have same : e.reach ≤ b.reach ↔ e'.reach ≤ b'.reach := by
      rw [← Nat.not_lt, ← Nat.not_lt]
      exact not_congr (hb.furthest.lt_iff h.furthest)
    unfold Step.further
    dsimp only
    by_cases le : e.reach ≤ b.reach
    · rw [if_pos le, if_pos (same.mp le)]
      exact hb
    · rw [if_neg le, if_neg fun h => le (same.mpr h)]
      exact h

end MatchError

structure Mark.Shifted (d : Int) (k k' : Mark) : Prop where
  first : k.span.first.Shifted d k'.span.first
  last : k.span.last.Shifted d k'.span.last
  fragments : k.fragments = k'.fragments

inductive TraceEvent.Shifted (d : Int) : TraceEvent → TraceEvent → Prop
  | entered {rule : String} {l l' : Location} {depth : Nat} :
      l.Shifted d l' → Shifted d (.entered rule l depth) (.entered rule l' depth)
  | matched {rule : String} {l l' m m' : Location} :
      l.Shifted d l' → m.Shifted d m' → Shifted d (.matched rule l m) (.matched rule l' m')
  | failed {rule : String} {l l' : Location} {e e' : MatchError} :
      l.Shifted d l' → e.Shifted d e' → Shifted d (.failed rule l e) (.failed rule l' e')

/-- What is noted in the two runs is the same, one by one. -/
structure Log.Shifted (d : Int) (a b : Log) : Prop where
  marks : List.Forall₂ (Mark.Shifted d) a.marks b.marks
  trace : List.Forall₂ (TraceEvent.Shifted d) a.trace b.trace

namespace Log

variable {d : Int}

theorem shifted_empty : Log.empty.Shifted d Log.empty := ⟨.nil, .nil⟩

theorem Shifted.append {a a' b b' : Log} (ha : a.Shifted d a') (hb : b.Shifted d b') :
    (a.append b).Shifted d (a'.append b') :=
  ⟨List.rel_append ha.marks hb.marks, List.rel_append ha.trace hb.trace⟩

end Log

/-! ## Shifted states and reports -/

/-- The same text is ahead of both readers, and the same is saved. -/
structure State.Shifted (d : Int) (s s' : State) : Prop where
  location : s.reader.location.Shifted d s'.reader.location
  ahead : s.reader.remaining = s'.reader.remaining
  saved : s.saved = s'.saved

/-- Both readers move over text that is ahead. -/
theorem State.Shifted.movedOver {d : Int} {s s' : State} (h : s.Shifted d s')
    (valid : s.reader.Valid) (valid' : s'.reader.Valid) {t rest : Text}
    (ahead : s.reader.remaining = t ++ rest) :
    State.Shifted d { s with reader := s.reader.movedOver t }
      { s' with reader := s'.reader.movedOver t } where
  location := h.location.advanceOver t
  ahead := by
    rw [Reader.remaining_movedOver valid ahead,
      Reader.remaining_movedOver valid' (h.ahead.symm.trans ahead)]
  saved := h.saved

/-- The second report tells of its text what the first tells of the other. Where the
steps have succeeded, their states can be gone on from. -/
inductive Report.Shifted {τ : Type} (d : Int) : Report τ → Report τ → Prop
  | ok {output : Output τ} {s s' : State} {log log' : Log} :
      s.Shifted d s' → log.Shifted d log' → Shifted d ⟨.ok output, s, log⟩ ⟨.ok output, s', log'⟩
  | error {e e' : MatchError} {s s' : State} {log log' : Log} :
      e.Shifted d e' → log.Shifted d log' → Shifted d ⟨.error e, s, log⟩ ⟨.error e', s', log'⟩

namespace Report.Shifted

variable {τ : Type} {d : Int} {r r' : Report τ}

theorem after {log log' : Log} (noted : log.Shifted d log') (h : r.Shifted d r') :
    (r.after log).Shifted d (r'.after log') := by
  cases h with
  | ok states logs => exact .ok states (noted.append logs)
  | error errors logs => exact .error errors (noted.append logs)

theorem mapOutput (f : Output τ → Output τ) (h : r.Shifted d r') :
    (r.mapOutput f).Shifted d (r'.mapOutput f) := by
  cases h with
  | ok states logs => exact .ok states logs
  | error errors logs => exact .error errors logs

/-- Going on after the two reports, if that is the same where both have succeeded. -/
theorem andThen {next next' : Step τ} (h : r.Shifted d r')
    (hn : ∀ output, r.outcome = .ok output → r'.outcome = .ok output →
      r.state.Shifted d r'.state → (next r.state).Shifted d (next' r'.state)) :
    (r.andThen next).Shifted d (r'.andThen next') := by
  cases h with
  | @ok output s s' log log' states logs =>
    have rest := hn output rfl rfl states
    unfold Report.andThen
    dsimp only at rest ⊢
    generalize next s = q at rest ⊢
    generalize next' s' = q' at rest ⊢
    cases rest with
    | ok states logs' => exact .ok states (logs.append logs')
    | error errors logs' => exact .error errors (logs.append logs')
  | error errors logs => exact .error errors logs

end Report.Shifted

namespace Follows

variable {τ : Type} {left : State → Prop} {s state : State} {v : Reading τ} {log : Log}

theorem left_of_error {e : MatchError} (h : Follows left s ⟨.error e, state, log⟩ v) :
    left state := by
  cases h with
  | failed _ kept | aborted _ kept => exact kept

theorem ready_of_ok {r : Report τ} {depth : Nat} (h : Follows left s r v)
    (ready : s.Ready depth) {output : Output τ} (succeeded : r.outcome = .ok output) :
    r.state.Ready depth := by
  cases h with
  | matched between => exact ready.goTo between _
  | failed | aborted => cases succeeded

end Follows

/-! ## Steps -/

namespace Step

variable {τ : Type} {d : Int} {depth : Nat}

/-- With `depth` rules open, the step does the same from two states of which the same is
ahead. -/
def Shifts (d : Int) (depth : Nat) (step : Step τ) : Prop :=
  ∀ s s' : State, s.Ready depth → s'.Ready depth → s.Shifted d s' → (step s).Shifted d (step s')

theorem shifts_fail {e e' : MatchError} (h : e.Shifted d e') (s s' : State) :
    (fail e s : Report τ).Shifted d (fail e' s') := .error h Log.shifted_empty

theorem shifts_failHere (kind : FailureKind) : (failHere kind : Step τ).Shifts d depth :=
  fun s s' _ _ same => shifts_fail (MatchError.shifted_of kind same.location) s s'

theorem shifts_char (accepts : Char → Bool) (expected : String) :
    (char accepts expected : Step τ).Shifts d depth := by
  intro s s' ready ready' same
  unfold char Reader.peek
  rw [← same.ahead]
  cases next : s.reader.remaining with
  | nil => exact shifts_failHere _ s s' ready ready' same
  | cons c rest =>
    simp only [List.getElem?_cons_zero]
    split
    · have one : s.reader.remaining.take 1 = [c] := by rw [next]; rfl
      have moved := same.movedOver ready.valid ready'.valid (t := [c]) next
      rw [Reader.advance_eq_movedOver, Reader.advance_eq_movedOver, ← same.ahead, one]
      exact .ok moved Log.shifted_empty
    · exact shifts_failHere _ s s' ready ready' same

theorem shifts_text (t : Text) (otherwise : FailureKind) :
    (text t otherwise : Step τ).Shifts d depth := by
  intro s s' ready ready' same
  unfold text Reader.isNext
  rw [← same.ahead]
  split
  · next next =>
    obtain ⟨rest, whole⟩ := List.isPrefixOf_iff_prefix.mp next
    have moved := same.movedOver ready.valid ready'.valid whole.symm
    rw [Reader.advanceBytes_eq_movedOver ready.valid whole.symm,
      Reader.advanceBytes_eq_movedOver ready'.valid (same.ahead.symm.trans whole.symm)]
    exact .ok moved Log.shifted_empty
  · exact shifts_failHere _ s s' ready ready' same

theorem shifts_endOfInput : (endOfInput : Step τ).Shifts d depth := by
  intro s s' ready ready' same
  have ends : s.reader.atEnd = s'.reader.atEnd := by
    rw [Bool.eq_iff_iff, Reader.atEnd_iff ready.valid, Reader.atEnd_iff ready'.valid, same.ahead]
  unfold endOfInput
  rw [ends]
  split
  · exact .ok same Log.shifted_empty
  · exact shifts_failHere _ s s' ready ready' same

theorem shifts_load (name : String) : (load name : Step τ).Shifts d depth := by
  intro s s' ready ready' same
  unfold load
  rw [← same.saved]
  split
  · exact shifts_text _ _ s s' ready ready' same
  · exact shifts_failHere _ s s' ready ready' same

variable {step : Step τ} {f : Meaning τ}

/-- A save point before the steps brings both readers back to where they were. -/
theorem shifted_guarded {step step' : Step τ} {f f' : Meaning τ} (drifts : step.Drifts depth f)
    (drifts' : step'.Drifts depth f') {s s' : State} (ready : s.Ready depth)
    (ready' : s'.Ready depth)
    (inner : (step { s with reader := s.reader.save }).Shifted d
      (step' { s' with reader := s'.reader.save })) :
    (guarded step s).Shifted d (guarded step' s') := by
  have follows : Follows _ _ _ (f s.point s.saved) :=
    drifts { s with reader := s.reader.save } ⟨ready.valid, ready.depth⟩
  have follows' : Follows _ _ _ (f' s'.point s'.saved) :=
    drifts' { s' with reader := s'.reader.save } ⟨ready'.valid, ready'.depth⟩
  unfold Step.guarded
  generalize step { s with reader := s.reader.save } = r at follows inner ⊢
  generalize step' { s' with reader := s'.reader.save } = r' at follows' inner ⊢
  generalize f s.point s.saved = v at follows
  generalize f' s'.point s'.saved = v' at follows'
  cases inner with
  | ok states logs =>
    -- Both matches have kept the save points, so the ones discarded are those made before.
    cases follows with
    | matched between =>
      cases follows' with
      | matched between' => exact .ok ⟨states.location, states.ahead, states.saved⟩ logs
  | error errors logs =>
    dsimp only
    rw [settle_load _ follows.left_of_error, settle_load _ follows'.left_of_error]
    exact .error errors logs

theorem Shifts.guarded (h : step.Shifts d depth) (drifts : step.Drifts depth f) :
    (guarded step).Shifts d depth := fun s s' ready ready' same =>
  shifted_guarded drifts drifts ready ready' (h { s with reader := s.reader.save }
    { s' with reader := s'.reader.save } ⟨ready.valid, ready.depth⟩ ⟨ready'.valid, ready'.depth⟩
    ⟨same.location, same.ahead, same.saved⟩)

theorem Shifts.optional (h : step.Shifts d depth) (means : step.Means depth f) :
    (optional step).Shifts d depth := by
  intro s s' ready ready' same
  have follows := means.drifts.guarded s ready
  have follows' := means.drifts.guarded s' ready'
  have inner := h.guarded means.drifts s s' ready ready' same
  unfold Step.optional absorb
  generalize Step.guarded step s = r at follows inner ⊢
  generalize Step.guarded step s' = r' at follows' inner ⊢
  cases inner with
  | ok states logs => exact .ok states logs
  | error errors logs =>
    dsimp only
    rw [errors.isFatal_eq, follows.left_of_error, follows'.left_of_error]
    split
    · exact .error errors logs
    · exact .ok same logs

theorem Shifts.absent (h : step.Shifts d depth) (means : step.Means depth f) :
    (absent step).Shifts d depth := by
  intro s s' ready ready' same
  have back := backTo_eq_of_follows ready.valid (means s ready)
  have back' := backTo_eq_of_follows ready'.valid (means s' ready')
  have inner := h s s' ready ready' same
  unfold Step.absent
  rw [back, back']
  generalize step s = r at inner ⊢
  generalize step s' = r' at inner ⊢
  cases inner with
  | ok states logs => exact .error (MatchError.shifted_of .unexpected same.location) logs
  | error errors logs =>
    dsimp only
    rw [errors.isFatal_eq]
    split
    · exact .error errors logs
    · exact .ok same logs

theorem Shifts.mapOutput (h : step.Shifts d depth) (g : Output τ → Output τ) :
    Shifts d depth fun s => (step s).mapOutput g := fun s s' ready ready' same =>
  (h s s' ready ready' same).mapOutput g

theorem Shifts.mark (h : step.Shifts d depth) : (mark step).Shifts d depth := by
  intro s s' ready ready' same
  have inner := h s s' ready ready' same
  unfold Step.mark
  generalize step s = r at inner ⊢
  generalize step s' = r' at inner ⊢
  cases inner with
  | ok states logs =>
    exact .ok states (logs.append ⟨.cons ⟨same.location, states.location, rfl⟩ .nil, .nil⟩)
  | error errors logs => exact .error errors logs

theorem Shifts.save (h : step.Shifts d depth) (name : String) :
    (save name step).Shifts d depth := by
  intro s s' ready ready' same
  have inner := h s s' ready ready' same
  unfold Step.save
  generalize step s = r at inner ⊢
  generalize step s' = r' at inner ⊢
  cases inner with
  | ok states logs =>
    exact .ok ⟨states.location, states.ahead, congrArg (List.cons _) states.saved⟩ logs
  | error errors logs => exact .error errors logs

theorem Shifts.opened (h : step.Shifts d (depth + 1)) : (opened step).Shifts d depth := by
  intro s s' ready ready' same
  have inner := h { s with depth := s.depth + 1 } { s' with depth := s'.depth + 1 }
    ⟨ready.valid, congrArg Nat.succ ready.depth⟩ ⟨ready'.valid, congrArg Nat.succ ready'.depth⟩
    ⟨same.location, same.ahead, same.saved⟩
  unfold Step.opened
  generalize step { s with depth := s.depth + 1 } = r at inner ⊢
  generalize step { s' with depth := s'.depth + 1 } = r' at inner ⊢
  cases inner with
  | ok states logs => exact .ok ⟨states.location, states.ahead, states.saved⟩ logs
  | error errors logs => exact .error errors logs

/-! ## Repetitions and choices -/

theorem shifted_enough {start start' : Location} (begun : start.Shifted d start') (min count : Nat)
    {cause cause' : Option MatchError}
    (causes : Option.Rel (MatchError.Shifted d) cause cause') {s s' : State}
    (same : s.Shifted d s') :
    (enough start min count cause s : Report τ).Shifted d (enough start' min count cause' s') := by
  unfold enough
  split
  · cases causes with
    | none => exact shifts_fail (MatchError.shifted_of _ begun) s s'
    | some cause => exact shifts_fail (cause.causedBy _ begun) s s'
  · exact .ok same Log.shifted_empty

theorem Shifts.repeatFrom (h : step.Shifts d depth) (means : step.Means depth f)
    {start start' : Location} (begun : start.Shifted d start') (min : Nat) (max : Option Nat)
    {bound : Nat} : ∀ {count : Nat} {s s' : State}, s.Ready depth → s'.Ready depth →
      s.Shifted d s' → (repeatFrom step start min max bound count s).Shifted d
        (repeatFrom step start' min max bound count s') := by
  induction bound with
  | zero => exact fun _ _ same => shifted_enough begun min _ .none same
  | succ bound ih =>
    intro count s s' ready ready' same
    have follows := means s ready
    have follows' := means s' ready'
    have back := backTo_eq_of_follows ready.valid follows
    have back' := backTo_eq_of_follows ready'.valid follows'
    have inner := h s s' ready ready' same
    unfold Step.repeatFrom
    by_cases full : max.any (· ≤ count) = true
    · rw [if_pos full, if_pos full]
      exact shifted_enough begun min count .none same
    rw [if_neg full, if_neg full]
    generalize step s = r at follows back inner ⊢
    generalize step s' = r' at follows' back' inner ⊢
    cases inner with
    | @ok output t t' log log' states logs =>
      have still : t.reader.position = s.reader.position ↔ t'.reader.position = s'.reader.position := by
        have there := states.location
        have here := same.location
        unfold Location.Shifted at there here
        unfold Reader.position
        omega
      dsimp only
      by_cases stays : t.reader.position = s.reader.position
      · rw [if_pos stays, if_pos (still.mp stays)]
        exact .ok states logs
      · rw [if_neg stays, if_neg fun h => stays (still.mpr h)]
        refine Report.Shifted.andThen (.ok states logs) fun _ _ _ states => ?_
        exact ih (follows.ready_of_ok ready rfl) (follows'.ready_of_ok ready' rfl) states
    | @error e e' t t' log log' errors logs =>
      have fatal := errors.isFatal_eq
      cases mild : e'.isFatal with
      | true =>
        simp only [fatal, mild, if_true]
        exact .error errors logs
      | false =>
        simp only [fatal, mild, back, back', Bool.false_eq_true, if_false]
        exact (shifted_enough begun min count (.some errors) same).after logs

theorem Shifts.repetition (h : step.Shifts d depth) (means : step.Means depth f) (min : Nat)
    (max : Option Nat) : (repetition step min max).Shifts d depth := by
  intro s s' ready ready' same
  unfold Step.repetition
  rw [← same.ahead]
  refine shifted_guarded (drifts_repeatFrom means _ min max _ 0)
    (drifts_repeatFrom means _ min max _ 0) ready ready' ?_
  exact h.repeatFrom means same.location min max ⟨ready.valid, ready.depth⟩
    ⟨ready'.valid, ready'.depth⟩ ⟨same.location, same.ahead, same.saved⟩

/-- The next alternative is tried from where the one that failed began. -/
theorem Shifts.orElse (h : step.Shifts d depth) (means : step.Means depth f) {s s' : State}
    (ready : s.Ready depth) (ready' : s'.Ready depth) (same : s.Shifted d s')
    {best best' : Option MatchError} (furthest : Option.Rel (MatchError.Shifted d) best best')
    {next next' : Option MatchError → Step τ}
    (hn : ∀ {best best'}, Option.Rel (MatchError.Shifted d) best best' →
      (next best s).Shifted d (next' best' s')) :
    (orElse s best step next s).Shifted d (orElse s' best' step next' s') := by
  have back := backTo_eq_of_follows ready.valid (means s ready)
  have back' := backTo_eq_of_follows ready'.valid (means s' ready')
  have inner := h s s' ready ready' same
  unfold Step.orElse
  generalize step s = r at back inner ⊢
  generalize step s' = r' at back' inner ⊢
  cases inner with
  | ok states logs => exact .ok states logs
  | @error e e' t t' log log' errors logs =>
    have fatal := errors.isFatal_eq
    cases mild : e'.isFatal with
    | true =>
      simp only [back, back', fatal, mild, if_true]
      exact .error errors logs
    | false =>
      simp only [back, back', fatal, mild, Bool.false_eq_true, if_false]
      exact (hn (.some (errors.further furthest))).after logs

end Step

/-! ## Matchers and rules -/

namespace Engine

variable {π τ : Type} [CharTest π] {d : Int} {depth : Nat}
  {enter : String → Matcher π → Step τ} {call : String → Matcher π → Meaning τ}

theorem shifts_evalSequence (e : Engine π τ) {ms : List (Matcher π)}
    (means : ∀ m ∈ ms, (e.eval enter m).Means depth (e.denote call m))
    (h : ∀ m ∈ ms, (e.eval enter m).Shifts d depth) :
    (e.evalSequence enter ms).Shifts d depth := by
  induction ms with
  | nil => exact fun _ _ _ _ same => .ok same Log.shifted_empty
  | cons m ms ih =>
    obtain ⟨meansFirst, means⟩ := List.forall_mem_cons.mp means
    obtain ⟨first, h⟩ := List.forall_mem_cons.mp h
    intro s s' ready ready' same
    refine (first s s' ready ready' same).andThen fun output ok ok' states => ?_
    exact ih means h _ _ ((meansFirst s ready).ready_of_ok ready ok)
      ((meansFirst s' ready').ready_of_ok ready' ok') states

theorem shifted_evalChoice (e : Engine π τ) {ms : List (Matcher π)}
    (means : ∀ m ∈ ms, (e.eval enter m).Means depth (e.denote call m))
    (h : ∀ m ∈ ms, (e.eval enter m).Shifts d depth) {s s' : State} (ready : s.Ready depth)
    (ready' : s'.Ready depth) (same : s.Shifted d s') {best best' : Option MatchError}
    (furthest : Option.Rel (MatchError.Shifted d) best best') :
    (e.evalChoice enter s best ms s).Shifted d (e.evalChoice enter s' best' ms s') := by
  induction ms generalizing best best' with
  | nil =>
    cases furthest with
    | none => exact Step.shifts_fail (MatchError.shifted_of .exhausted same.location) s s'
    | some cause => exact Step.shifts_fail (cause.causedBy .exhausted same.location) s s'
  | cons m ms ih =>
    obtain ⟨meansFirst, means⟩ := List.forall_mem_cons.mp means
    obtain ⟨first, h⟩ := List.forall_mem_cons.mp h
    exact first.orElse meansFirst ready ready' same furthest (ih means h)

/-- A matcher does the same from both states if rules do. -/
theorem shifts_eval (e : Engine π τ)
    (means : ∀ name m, (enter name m).Means depth (call name m))
    (h : ∀ name m, (enter name m).Shifts d depth) (m : Matcher π) :
    (e.eval enter m).Shifts d depth := by
  have meansEval := e.means_eval_of_enter means
  induction m with
  | char cls => exact Step.shifts_char _ _
  | text t => exact Step.shifts_text _ _
  | endOfInput => exact Step.shifts_endOfInput
  | sequence ms ih =>
    exact (e.shifts_evalSequence (fun m _ => meansEval m) ih).guarded
      (e.drifts_evalSequence fun m _ => meansEval m)
  | choice ms ih =>
    exact fun s s' ready ready' same =>
      e.shifted_evalChoice (fun m _ => meansEval m) ih ready ready' same .none
  | repetition m min max ih => exact ih.repetition (meansEval m) min max
  | optional m ih => exact ih.optional (meansEval m)
  | absent m ih => exact ih.absent (meansEval m)
  | ref name =>
    unfold eval
    cases e.table.rule? name with
    | some rule => exact h rule.name rule.definition
    | none => exact Step.shifts_failHere _
  | rule name m _ => exact h name m
  | ignore m ih | join m ih => exact ih.mapOutput _
  | mark m ih => exact ih.mark
  | save name m ih => exact ih.save name
  | load name => exact Step.shifts_load name

omit [CharTest π] in
theorem shifts_traced (e : Engine π τ) (name : String) {step : Step τ}
    (h : step.Shifts d depth) : (e.traced name step).Shifts d depth := by
  intro s s' ready ready' same
  have inner := h s s' ready ready' same
  have depths : s.depth = s'.depth := ready.depth.trans ready'.depth.symm
  have entered : Log.Shifted d ⟨[], [.entered name s.reader.location s.depth]⟩
      ⟨[], [.entered name s'.reader.location s'.depth]⟩ :=
    ⟨.nil, .cons (depths ▸ .entered same.location) .nil⟩
  unfold traced
  split
  · generalize step s = r at inner ⊢
    generalize step s' = r' at inner ⊢
    cases inner with
    | ok states logs =>
      exact .ok states (entered.append (logs.append
        ⟨.nil, .cons (.matched same.location states.location) .nil⟩))
    | error errors logs =>
      exact .error errors (entered.append (logs.append
        ⟨.nil, .cons (.failed same.location errors) .nil⟩))
  · exact inner

theorem shifts_enter (e : Engine π τ) {levels : Nat}
    (size : e.settings.maxDepth - depth = levels) (name : String) (m : Matcher π) :
    (e.enter levels name m).Shifts d depth := by
  induction levels generalizing depth name m with
  | zero => exact Step.shifts_failHere _
  | succ levels ih =>
    intro s s' ready ready' same
    have under : ¬ e.settings.maxDepth ≤ depth := by omega
    have means : ∀ name m, (e.enter levels name m).Means (depth + 1) (e.applyRule levels name m) :=
      e.means_enter (by omega)
    have body := e.shifts_eval means (fun name m => ih (by omega) name m) m
    unfold enter
    rw [ready.depth, ready'.depth, if_neg under, if_neg under]
    exact (e.shifts_traced name body.opened).mapOutput (e.shape name) s s' ready ready' same

theorem shifts_step (e : Engine π τ) (m : Matcher π) : (e.step m).Shifts d depth := by
  intro s s' ready ready' same
  unfold step
  rw [ready.depth, ready'.depth]
  exact e.shifts_eval (e.means_enter rfl) (e.shifts_enter rfl) m s s' ready ready' same

end Engine

/-! ## Runs -/

/-- The second run tells of its text what the first one tells of the other: all is the same
but for offsets, which lie `d` bytes further on. -/
structure Run.Shifted {τ : Type} (d : Int) (x y : Run τ) : Prop where
  success : x.result.success = y.result.success
  fragments : x.result.fragments = y.result.fragments
  values : x.result.values = y.result.values
  matched : x.result.matched = y.result.matched
  first : x.result.span.first.Shifted d y.result.span.first
  last : x.result.span.last.Shifted d y.result.span.last
  errors : Option.Rel (MatchError.Shifted d) x.result.error? y.result.error?
  messages : x.result.error?.map (·.chain.map (·.message)) =
    y.result.error?.map (·.chain.map (·.message))
  log : x.log.Shifted d y.log
  location : x.reader.location.Shifted d y.reader.location
  /-- The readers are left with the same text ahead, so that the next runs agree as well. -/
  ahead : x.reader.remaining = y.reader.remaining

theorem State.remaining_goTo {s : State} {p : Point} {t : Text} (valid : s.reader.Valid)
    (between : s.point.Over t p) (saved : Saved) : (s.goTo p saved).reader.remaining = p.ahead :=
  congrArg Point.ahead (State.point_goTo valid between saved)

/-- The text between where a match began and where it has led. -/
theorem State.slice_goTo {s : State} {p : Point} {t : Text} (valid : s.reader.Valid)
    (between : s.point.Over t p) (saved : Saved) :
    (s.goTo p saved).reader.slice s.reader.location.offset
      (s.goTo p saved).reader.location.offset = some t := by
  rw [State.reader_goTo between saved, Reader.movedOver, Location.advanceOver_offset]
  exact Reader.slice_position valid between.1

namespace Engine

variable {π τ : Type} [CharTest π]

theorem shifted_execute (e : Engine π τ) (m : Matcher π) {reader reader' : Reader}
    (valid : reader.Valid) (valid' : reader'.Valid) (same : reader.remaining = reader'.remaining) :
    (e.execute m reader).Shifted (reader'.position - reader.position) (e.execute m reader') := by
  have start : reader.location.Shifted (reader'.position - reader.position) reader'.location := by
    unfold Location.Shifted Reader.position
    omega
  have follows := e.means_step_zero m ⟨reader, [], 0⟩ ⟨valid, rfl⟩
  have follows' := e.means_step_zero m ⟨reader', [], 0⟩ ⟨valid', rfl⟩
  have inner := e.shifts_step m ⟨reader, [], 0⟩ ⟨reader', [], 0⟩ ⟨valid, rfl⟩ ⟨valid', rfl⟩
    ⟨start, same, rfl⟩
  unfold execute
  generalize e.step m ⟨reader, [], 0⟩ = r at follows inner ⊢
  generalize e.step m ⟨reader', [], 0⟩ = r' at follows' inner ⊢
  generalize e.denote _ m _ _ = v at follows
  generalize e.denote _ m _ _ = v' at follows'
  cases inner with
  | ok states logs =>
    cases follows with
    | @matched output last saved log t between =>
      cases follows' with
      | @matched _ last' saved' log' t' between' =>
        -- The same text is ahead before and behind the two matches, so the same was matched.
        have behind : last.ahead = last'.ahead := by
          have ahead := states.ahead
          rwa [State.remaining_goTo valid between, State.remaining_goTo valid' between'] at ahead
        have matched : t = t' := by
          have whole := calc
            t ++ last.ahead = reader.remaining := between.1.symm
            _ = reader'.remaining := same
            _ = t' ++ last'.ahead := between'.1
            _ = t' ++ last.ahead := by rw [behind]
          exact List.append_cancel_right whole
        have slice := State.slice_goTo valid between saved
        have slice' := State.slice_goTo valid' between' saved'
        refine ⟨rfl, rfl, rfl, ?_, start, states.location, .none, rfl, logs, states.location,
          states.ahead⟩
        dsimp only at slice slice' ⊢
        rw [slice, slice', matched]
  | error errors logs =>
    have left := follows.left_of_error
    have left' := follows'.left_of_error
    subst left left'
    exact ⟨rfl, rfl, rfl, rfl, start, start, .some errors, congrArg some errors.messages_eq, logs,
      start, same⟩

/-- A checked matcher that is run from two readers with the same text ahead does the same
from both, wherever they stand, whatever lies before and whatever save points they have:
the results, the errors with all their causes and what is noted are the same, and every
offset differs by as much as the two readers were apart. Each reader keeps its text and its
save points, and can be run from again. -/
theorem run_shifted {t : RuleTable π τ} {m : Matcher π} (checked : t.problem? m = none)
    (settings : Settings) {reader reader' : Reader} (valid : reader.Valid)
    (valid' : reader'.Valid) (same : reader.remaining = reader'.remaining) :
    ∃ x y, Engine.run ⟨t, settings⟩ m reader = .ok x ∧
      Engine.run ⟨t, settings⟩ m reader' = .ok y ∧
      x.Shifted (reader'.position - reader.position) y ∧
      reader.Kept x.reader ∧ reader'.Kept y.reader := by
  let e : Engine π τ := ⟨t, settings⟩
  have kept : reader.Kept (e.execute m reader).reader :=
    e.kept_step m (s := ⟨reader, [], 0⟩) valid
  have kept' : reader'.Kept (e.execute m reader').reader :=
    e.kept_step m (s := ⟨reader', [], 0⟩) valid'
  exact ⟨e.execute m reader, e.execute m reader', run_eq_execute checked, run_eq_execute checked,
    e.shifted_execute m valid valid' same, kept, kept'⟩

/-- Nested pairs, each with a key that has to come again, from the front of a text and from
three bytes into another one, on its second line and with save points. -/
theorem shifted_nested_pairs :
    let key : Matcher Empty := .mark (.save "key" (.char (.range 'a' 'c')))
    let pair : Matcher Empty :=
      .sequence [.char (.only '('), key, .optional (.ref "pair"), .load "key", .char (.only ')')]
    let m : Matcher Empty := .repetition (.ref "pair") 1 (some 3)
    let size : Factory Nat := fun _ fragments values => values.foldl Nat.add fragments.length
    let rules : List (Rule Empty Nat) := [⟨"pair", pair, default, some size⟩]
    let t : RuleTable Empty Nat := ⟨rules, NullMap.compute rules, some "pair", {}⟩
    let ahead : Text := ['(', 'a', '(', 'b', 'b', ')', 'b', ')', '(', 'c']
    let reader := Reader.ofText ahead
    let reader' := ((Reader.ofText ('é' :: '\n' :: ahead)).advance 2).save.save
    t.problem? m = none ∧ reader.Valid ∧ reader'.Valid ∧ reader.remaining = reader'.remaining ∧
      ∃ x y, Engine.run ⟨t, {}⟩ m reader = .ok x ∧ Engine.run ⟨t, {}⟩ m reader' = .ok y ∧
        x.result.success = true ∧ x.Shifted 3 y ∧ reader.Kept x.reader ∧ reader'.Kept y.reader := by
  intro key pair m size rules t ahead reader reader'
  have checked : t.problem? m = none := by decide
  have valid : reader.Valid := Reader.valid_ofText ahead
  have valid' : reader'.Valid := rfl
  have same : reader.remaining = reader'.remaining := by decide
  have apart : ((reader'.position : Int) - reader.position) = 3 := by decide
  obtain ⟨x, y, ran, ran', shifted, kept, kept'⟩ := run_shifted checked {} valid valid' same
  have success : x.result.success = true := by
    rw [← execute_of_run checked ran]
    decide +kernel
  exact ⟨checked, valid, valid', same, x, y, ran, ran', success, apart ▸ shifted, kept, kept'⟩

end Engine

end Peg
