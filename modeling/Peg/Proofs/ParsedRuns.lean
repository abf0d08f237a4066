import Peg.Match.Run
import Peg.Proofs.Adequacy
import Peg.Proofs.ReaderStates
import Peg.Proofs.Refinement

/-!
# Runs tell what matchers parse

The rules of `Parses` pass everything by value. A match moves a reader, makes and takes
back save points and changes the saved texts in place. For checked matchers beside the
rules of a built table both come to the same, within a match at any depth and for a whole
run (`Engine.run_parses`).
-/

namespace Peg

variable {π τ : Type}

/-- The report of a step from `s` tells the outcome. After a match the reader has moved
over the text that was matched and as many rules are open as before, after a failure the
state is as it was. -/
inductive Report.Tells (limit : Nat) (s : State) : Report τ → Outcome τ → Prop
  | ok {output : Output τ} {front rest : Text} {saved : Saved} {log : Log} :
      s.reader.remaining = front ++ rest →
      Tells limit s ⟨.ok output, ⟨s.reader.movedOver front, saved, s.depth⟩, log⟩
        (.ok output rest saved)
  | fail {error : MatchError} {log : Log} :
      error.isFatal = false → Tells limit s ⟨.error error, s, log⟩ .fail
  | abort {l : Location} {log : Log} :
      Tells limit s ⟨.error (.of (.depthLimit limit) l), s, log⟩ .abort

/-- The run of a reader tells the outcome. -/
inductive Run.Tells (limit : Nat) (reader : Reader) : Run τ → Outcome τ → Prop
  | ok {output : Output τ} {front rest : Text} {saved : Saved} {log : Log} :
      reader.remaining = front ++ rest →
      Tells limit reader
        ⟨⟨.ok output, ⟨reader.location, reader.location.advanceOver front⟩, front⟩,
          reader.movedOver front, log⟩
        (.ok output rest saved)
  | fail {error : MatchError} {log : Log} :
      error.isFatal = false →
      Tells limit reader ⟨⟨.error error, .point reader.location, []⟩, reader, log⟩ .fail
  | abort {l : Location} {log : Log} :
      Tells limit reader
        ⟨⟨.error (.of (.depthLimit limit) l), .point reader.location, []⟩, reader, log⟩ .abort

/-- A run that succeeds tells a match that yields what it reports, over the text it reports. -/
theorem Run.Tells.eq_ok {limit : Nat} {reader : Reader} {r : Run τ} {v : Outcome τ}
    (h : r.Tells limit reader v) (success : r.result.success = true) :
    ∃ rest saved, reader.remaining = r.result.matched ++ rest ∧
      v = .ok ⟨r.result.fragments, r.result.values⟩ rest saved := by
  cases h with
  | ok ahead => exact ⟨_, _, ahead, rfl⟩
  | fail _ => cases success
  | abort => cases success

/-- A step that follows a meaning tells the outcome that the meaning gives. -/
theorem Follows.tells {limit : Nat} {s : State} {r : Report τ} {v : Reading τ} {o : Outcome τ}
    (h : Follows (· = s) s r v) (gives : v.Gives limit o) : r.Tells limit s o := by
  cases h with
  | @matched output last saved log t between =>
    cases gives with
    | ok =>
      have moved : s.goTo last saved = ⟨s.reader.movedOver t, saved, s.depth⟩ :=
        congrArg (State.mk · saved s.depth) (State.reader_goTo between saved)
      rw [moved]
      exact .ok between.1
  | failed mild same =>
    cases gives with
    | fail =>
      cases same
      exact .fail mild
  | aborted fatal same =>
    cases gives with
    | abort =>
      cases same
      exact .abort

namespace Engine

variable [CharTest π]

theorem execute_tells {e : Engine π τ} {m : Matcher π} {reader : Reader} {limit : Nat}
    {o : Outcome τ} (valid : reader.Valid)
    (h : (e.step m ⟨reader, [], 0⟩).Tells limit ⟨reader, [], 0⟩ o) :
    (e.execute m reader).Tells limit reader o := by
  unfold execute
  generalize e.step m ⟨reader, [], 0⟩ = r at h ⊢
  cases h with
  | @ok output front rest saved log ahead =>
    -- The text reported as matched is cut out between the two locations.
    have slice : (reader.movedOver front).slice reader.location.offset
        (reader.location.advanceOver front).offset = some front := by
      rw [Location.advanceOver_offset]
      exact Reader.slice_position valid ahead
    have matched : ((reader.movedOver front).slice reader.location.offset
        (reader.location.advanceOver front).offset).getD [] = front := by
      rw [slice, Option.getD_some]
    dsimp only [Reader.movedOver] at matched ⊢
    rw [matched]
    exact .ok ahead
  | fail mild => exact .fail mild
  | abort => exact .abort

/-- Beside the rules of a built table, a checked matcher comes to exactly one outcome, and
matching tells it: within a match, at any depth and with any texts saved, and as a run. -/
theorem run_parses {g : Grammar π τ} {t : RuleTable π τ} {events : List TableEvent}
    (built : g.build = .ok (t, events)) {m : Matcher π} (checked : t.problem? m = none)
    (settings : Settings) {reader : Reader} (reachable : reader.Reachable) :
    (∀ depth saved, ∃ v : Outcome τ,
      (∀ v', Parses t settings.maxDepth depth m reader.remaining saved v' ↔ v' = v) ∧
      (Engine.step ⟨t, settings⟩ m ⟨reader, saved, depth⟩).Tells settings.maxDepth
        ⟨reader, saved, depth⟩ v) ∧
    ∃ (r : Run τ) (v : Outcome τ), Engine.run ⟨t, settings⟩ m reader = .ok r ∧
      (∀ v', Parses t settings.maxDepth 0 m reader.remaining [] v' ↔ v' = v) ∧
      r.Tells settings.maxDepth reader v := by
  let e : Engine π τ := ⟨t, settings⟩
  have sound := RuleTable.Sound.of_build built
  obtain ⟨closed, formed⟩ := RuleTable.problem?_eq_none_iff.mp checked
  have runnable := Matcher.runnable_of_formed closed formed
  have within : ∀ depth saved, ∃ v : Outcome τ,
      (∀ v', Parses t settings.maxDepth depth m reader.remaining saved v' ↔ v' = v) ∧
      (e.step m ⟨reader, saved, depth⟩).Tells settings.maxDepth ⟨reader, saved, depth⟩ v := by
    intro depth saved
    obtain ⟨v, only, gives⟩ := exists_parses settings sound depth runnable reader.point saved
    have follows := e.means_step depth m ⟨reader, saved, depth⟩ ⟨reachable.valid, rfl⟩
    exact ⟨v, only, follows.tells gives⟩
  obtain ⟨v, only, tells⟩ := within 0 []
  exact ⟨within, e.execute m reader, v, run_eq_execute checked, only,
    execute_tells reachable.valid tells⟩

/-- Nested blocks, each of which may save a key anew before it demands the key. In
`"xa((b=b)b)"`, from behind the first character, the inner block changes the key. A block counts
the fragments in it, those of the blocks inside once more for each block around them. -/
theorem nested_blocks_parse :
    let key : Matcher Empty := .save "key" (.char (.range 'a' 'b'))
    let block : Matcher Empty :=
      .sequence [.char (.only '('), .optional (.sequence [key, .char (.only '=')]),
        .repetition (.ref "block") 0 none, .load "key", .char (.only ')')]
    let m : Matcher Empty := .sequence [key, .ref "block"]
    let size : Factory Nat := fun _ fragments values => values.foldl Nat.add fragments.length
    let rules : List (Rule Empty Nat) := [⟨"block", block, default, some size⟩]
    let g : Grammar Empty Nat := ⟨rules, none, {}⟩
    let t : RuleTable Empty Nat := ⟨rules, NullMap.compute rules, none, {}⟩
    let reader := (Reader.ofText ['x', 'a', '(', '(', 'b', '=', 'b', ')', 'b', ')']).advance 1
    let matched : Text := ['a', '(', '(', 'b', '=', 'b', ')', 'b', ')']
    g.build = .ok (t, [.built 1 "<none>" false]) ∧ t.problem? m = none ∧ reader.Reachable ∧
      ∃ (r : Run Nat) (v : Outcome Nat) (saved : Saved), Engine.run ⟨t, {}⟩ m reader = .ok r ∧
        (∀ v', Parses t 200 0 m reader.remaining [] v' ↔ v' = v) ∧ r.Tells 200 reader v ∧
        r.result.success = true ∧ r.result.matched = matched ∧
        r.result.fragments = matched.map ([·]) ∧ r.result.values = [13] ∧
        v = .ok ⟨matched.map ([·]), [13]⟩ [] saved := by
  intro key block m size rules g t reader matched
  have built : g.build = .ok (t, [.built 1 "<none>" false]) :=
    Grammar.build_of_problem? (by decide) rfl
  have checked : t.problem? m = none := by decide
  have reachable : reader.Reachable := .advance 1 (.ofText _)
  obtain ⟨r, v, ran, only, tells⟩ := (run_parses built checked {} reachable).2
  have same : Engine.execute ⟨t, {}⟩ m reader = r := execute_of_run checked ran
  have success : r.result.success = true := by
    rw [← same]
    decide +kernel
  have covered : r.result.matched = matched := by
    rw [← same]
    decide +kernel
  have fragments : r.result.fragments = matched.map ([·]) := by
    rw [← same]
    decide +kernel
  have values : r.result.values = [13] := by
    rw [← same]
    decide +kernel
  obtain ⟨rest, saved, ahead, outcome⟩ := tells.eq_ok success
  have whole : reader.remaining = matched := by decide
  rw [covered, whole] at ahead
  obtain rfl : rest = [] := List.self_eq_append_right.mp ahead
  rw [fragments, values] at outcome
  exact ⟨built, checked, reachable, r, v, saved, ran, only, tells, success, covered, fragments,
    values, outcome⟩

end Engine

end Peg
