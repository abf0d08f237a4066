import Peg.Proofs.NullableMatches
import Peg.Proofs.Refinement

/-!
# Unbounded loops move on

That a formed matcher matches without consuming anything is told of matches by
`Engine.movesUnless_denote`. Here it is told of steps: a step that succeeds and leaves the
reader where it was is that of a nullable matcher (`Engine.isNullable_of_still`).

The checks refuse an unbounded repetition of a nullable matcher. So in a checked matcher
and in the rules of a built table every success within such a repetition moves the reader,
the end at a match of no width is never taken, and the repetition is the loop without it
(`Engine.repetition_eq_loop`).
-/

namespace Peg

/-! ## Steps that succeed -/

namespace Follows

variable {τ : Type} {left : State → Prop} {s : State} {r : Report τ} {v : Reading τ}

/-- A success that leaves the reader where it was is a match of nothing. -/
theorem matched_of_still (h : Follows left s r v) {output : Output τ}
    (succeeded : r.outcome = .ok output)
    (still : r.state.reader.position = s.reader.position) :
    ∃ last saved, v.verdict = .matched output last saved ∧ last.ahead = s.point.ahead := by
  cases h with
  | @matched _ last saved log t between =>
    cases succeeded
    exact ⟨last, saved, rfl, (State.position_goTo_eq_iff between saved).mp still⟩
  | failed | aborted => cases succeeded

theorem position_le (h : Follows left s r v) {output : Output τ}
    (succeeded : r.outcome = .ok output) : s.reader.position ≤ r.state.reader.position := by
  cases h with
  | @matched _ last saved log t between =>
    rw [State.reader_goTo between saved, Reader.movedOver, Reader.position, Reader.position,
      Location.advanceOver_offset]
    exact Nat.le_add_right _ _
  | failed | aborted => cases succeeded

end Follows

/-! ## The loop without an end at a match of no width -/

namespace Step

variable {τ : Type}

/-- Repeats a step until it fails, also when it consumes nothing. The first argument bounds
the number of successes. -/
def loopFrom (step : Step τ) (start : Location) (min : Nat) : Nat → (count : Nat) → Step τ
  | 0, count => enough start min count none
  | bound + 1, count => fun s =>
    let r := step s
    match r.outcome with
    | .ok _ => r.andThen (loopFrom step start min bound (count + 1))
    | .error e =>
      if e.isFatal then r
      else
        let back := r.backTo s
        match back.outcome with
        | .ok _ => back
        | .error e =>
          if e.isFatal then back else (enough start min count (some e) back.state).after back.log

/-- If every success moves the reader, no success ends the loop. There are at most as many
as characters ahead, so any larger bound will do. -/
theorem repeatFrom_eq_loopFrom {depth : Nat} {step step' : Step τ} {f : Meaning τ}
    (means : step.Means depth f) (moves : f.MovesUnless false)
    (same : ∀ s : State, s.depth = depth → step' s = step s) (start : Location) (min : Nat)
    {bound bound' : Nat} : ∀ {count : Nat} {s : State}, s.Ready depth →
      s.point.ahead.length < bound → s.point.ahead.length < bound' →
      repeatFrom step start min none bound count s = loopFrom step' start min bound' count s := by
  induction bound generalizing bound' with
  | zero => exact fun _ few => absurd few (Nat.not_lt_zero _)
  | succ bound ih =>
    intro count s ready few few'
    obtain ⟨bound', rfl⟩ := Nat.exists_eq_add_one_of_ne_zero (Nat.ne_zero_of_lt few')
    have inner := means s ready
    have moved := moves s.point s.saved
    unfold repeatFrom loopFrom
    rw [same s ready.depth]
    simp only [Option.any_none, Bool.false_eq_true, if_false]
    generalize step s = r at inner ⊢
    generalize f s.point s.saved = v at inner moved
    cases inner with
    | @matched output last saved log t between =>
      have ahead : last.ahead ≠ s.point.ahead := fun still =>
        absurd (moved _ _ _ rfl still) Bool.false_ne_true
      have away : (s.goTo last saved).reader.position ≠ s.reader.position := fun still =>
        ahead ((State.position_goTo_eq_iff between saved).mp still)
      have fewer := between.length_lt ahead
      have point := State.point_goTo ready.valid between saved
      simp only [if_neg away]
      refine Report.andThen_congr (ih (ready.goTo between saved) ?_ ?_)
      · rw [point]
        omega
      · rw [point]
        omega
    | failed | aborted => rfl

end Step

/-! ## Unbounded repetitions -/

/-- The matcher or a rule of the table holds an unbounded repetition of `inner`. -/
def RuleTable.Loops {π τ : Type} (t : RuleTable π τ) (m inner : Matcher π) (min : Nat) : Prop :=
  .repetition inner min none ∈ m.subtrees ∨
    ∃ r ∈ t.rules, .repetition inner min none ∈ r.body.subtrees

/-- What is repeated without bound is formed and not nullable. -/
theorem RuleTable.Loops.inner {π τ : Type} {t : RuleTable π τ} {m inner : Matcher π} {min : Nat}
    (h : t.Loops m inner min) (sound : t.Sound) (formed : m.Formed t.nullable.holds) :
    inner.Formed t.nullable.holds ∧ inner.isNullable t.nullable.holds = false := by
  have loop : (Matcher.repetition inner min none).Formed t.nullable.holds := by
    rcases h with inside | ⟨r, hr, inside⟩
    · exact formed.subtree inside
    · exact (sound.formed r hr).subtree inside
  exact ⟨loop.child List.mem_cons_self, loop.node⟩

/-! ## Checked matchers -/

namespace Engine

variable {π τ : Type} [CharTest π] {e : Engine π τ} {m : Matcher π} {s : State}

theorem movesUnless_step (sound : e.table.Sound) (formed : m.Formed e.table.nullable.holds)
    (levels : Nat) : (e.denote (e.applyRule levels) m).MovesUnless (e.table.isNullable m) :=
  movesUnless_denote sound (e.ahead_applyRule levels)
    (fun name _ => movesUnless_applyRule sound levels name) formed

/-- A formed matcher that matches without moving the reader is nullable. -/
theorem isNullable_of_still (sound : e.table.Sound) (formed : m.Formed e.table.nullable.holds)
    (valid : s.reader.Valid) {output : Output τ} (matched : (e.step m s).outcome = .ok output)
    (still : (e.step m s).state.reader.position = s.reader.position) :
    e.table.isNullable m = true := by
  have follows := e.means_step s.depth m s ⟨valid, rfl⟩
  obtain ⟨last, saved, verdict, same⟩ := follows.matched_of_still matched still
  exact movesUnless_step sound formed _ _ _ _ _ _ verdict same

/-- A formed matcher that is not nullable moves the reader when it matches. -/
theorem position_lt (sound : e.table.Sound) (formed : m.Formed e.table.nullable.holds)
    (consumes : e.table.isNullable m = false) (valid : s.reader.Valid) {output : Output τ}
    (matched : (e.step m s).outcome = .ok output) :
    s.reader.position < (e.step m s).state.reader.position := by
  have follows := e.means_step s.depth m s ⟨valid, rfl⟩
  refine Nat.lt_of_le_of_ne (follows.position_le matched) fun still => ?_
  have nullable := isNullable_of_still sound formed valid matched still.symm
  exact absurd (consumes.symm.trans nullable) Bool.false_ne_true

/-- An unbounded repetition of a formed matcher that is not nullable is the plain loop. -/
theorem repetition_eq_loop (sound : e.table.Sound) (formed : m.Formed e.table.nullable.holds)
    (consumes : e.table.isNullable m = false) (valid : s.reader.Valid) (min : Nat) {bound : Nat}
    (enough : s.reader.remaining.length < bound) :
    e.step (.repetition m min none) s =
      Step.guarded (Step.loopFrom (e.step m) s.reader.location min bound 0) s := by
  have means : (e.eval (e.enter (e.settings.maxDepth - s.depth)) m).Means s.depth _ :=
    e.means_eval_of_enter (e.means_enter rfl) m
  have moves := movesUnless_step sound formed (e.settings.maxDepth - s.depth)
  rw [consumes] at moves
  refine Step.guarded_congr (Step.repeatFrom_eq_loopFrom means moves (fun s' same => ?_) _ min
    ⟨valid, rfl⟩ (Nat.lt_succ_self _) enough)
  rw [step, same]

/-- Beside the rules of a built table, optimized or not, a checked matcher that matches
without moving the reader is nullable, whatever is saved and however many rules are open.
Every success within an unbounded repetition of the matcher or of a rule moves the reader,
so the repetition is the loop that does not ask whether it does. -/
theorem step_nullable {g : Grammar π τ} {t : RuleTable π τ} {events : List TableEvent}
    (built : g.build = .ok (t, events)) {e : Engine π τ} (beside : e.table ∈ [t, t.optimized.1])
    {m : Matcher π} (checked : e.table.problem? m = none) {s : State} (valid : s.reader.Valid) :
    (∀ output, (e.step m s).outcome = .ok output →
      (e.step m s).state.reader.position = s.reader.position → e.table.isNullable m = true) ∧
    ∀ inner min, e.table.Loops m inner min →
      (∀ output, (e.step inner s).outcome = .ok output →
        s.reader.position < (e.step inner s).state.reader.position) ∧
      ∀ bound, s.reader.remaining.length < bound →
        e.step (.repetition inner min none) s =
          Step.guarded (Step.loopFrom (e.step inner) s.reader.location min bound 0) s := by
  have sound : e.table.Sound := by
    rcases List.mem_pair.mp beside with same | same
    · exact same ▸ RuleTable.Sound.of_build built
    · exact same ▸ (RuleTable.Sound.of_build built).optimized
  have formed := (RuleTable.problem?_eq_none_iff.mp checked).2
  refine ⟨fun output matched still => isNullable_of_still sound formed valid matched still,
    fun inner min loop => ?_⟩
  obtain ⟨formed', consumes⟩ := loop.inner sound formed
  exact ⟨fun output matched => position_lt sound formed' consumes valid matched,
    fun bound enough => repetition_eq_loop sound formed' consumes valid min enough⟩

/-- The saved key is empty, so demanding it matches nothing in front of `")"`. Before `"q)"`
the items of a loop, which may hold items in turn, move the reader. -/
theorem nullable_empty_key :
    let item : Matcher Empty :=
      .choice [.save "key" (.char (.range 'p' 'q')), .char (.only 'r'),
        .sequence [.char (.only '('), .optional (.ref "items"), .load "key", .char (.only ')')]]
    let items : Matcher Empty := .repetition (.ref "item") 1 none
    let rules : List (Rule Empty Nat) :=
      [⟨"items", items, default, none⟩, ⟨"item", item, default, none⟩]
    let g : Grammar Empty Nat := ⟨rules, some "items", {}⟩
    let t : RuleTable Empty Nat := ⟨rules, NullMap.compute rules, some "items", {}⟩
    let e : Engine Empty Nat := ⟨t.optimized.1, {}⟩
    let m : Matcher Empty := .sequence [.load "key", .optional (.ref "items")]
    let still : State := ⟨(Reader.ofText ['(', ')']).advance 1, [("key", [])], 3⟩
    let moving : State := ⟨(Reader.ofText ['(', 'q', ')']).advance 1, [("key", [])], 3⟩
    g.build = .ok (t, [.built 2 "items" false]) ∧ e.table.problem? m = none ∧
      still.reader.Valid ∧ moving.reader.Valid ∧ e.table.Loops m (.ref "item") 1 ∧
      e.table.isNullable m = true ∧
      moving.reader.position < (e.step (.ref "item") moving).state.reader.position ∧
      e.step (.repetition (.ref "item") 1 none) moving =
        Step.guarded (Step.loopFrom (e.step (.ref "item")) moving.reader.location 1 9 0) moving := by
  intro item items rules g t e m still moving
  have built : g.build = .ok (t, [.built 2 "items" false]) :=
    Grammar.build_of_problem? (by decide) rfl
  have beside : e.table ∈ [t, t.optimized.1] := List.mem_cons_of_mem _ List.mem_cons_self
  have checked : e.table.problem? m = none := by decide
  have loop : e.table.Loops m (.ref "item") 1 :=
    .inr ⟨t.optimized.1.rules[0], List.mem_cons_self, by decide⟩
  obtain ⟨nullable, _⟩ := step_nullable built beside checked (s := still) rfl
  obtain ⟨_, loops⟩ := step_nullable built beside checked (s := moving) rfl
  obtain ⟨moves, plain⟩ := loops _ _ loop
  have matched : (e.step m still).outcome = .ok ⟨[[]], []⟩ := by decide +kernel
  have stays : (e.step m still).state.reader.position = still.reader.position := by
    decide +kernel
  have matched' : (e.step (.ref "item") moving).outcome = .ok ⟨[['q']], []⟩ := by
    decide +kernel
  exact ⟨built, checked, rfl, rfl, loop, nullable _ matched stays, moves _ matched',
    plain 9 (by decide)⟩

end Engine

end Peg
