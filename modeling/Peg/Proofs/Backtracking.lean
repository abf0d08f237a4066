import Peg.Proofs.ReaderStates
import Peg.Proofs.Refinement
import Peg.Proofs.Trace

/-!
# Failures undo, successes move forward

Matching goes back in two ways, by save points and by jumps, and puts the saved texts
back where it does so. Whichever of them a matcher uses, and however its parts are
nested, the caller sees nothing of a failed attempt, and of a successful one only the
reader further on and the texts that were saved (`Engine.step_orderly`).
-/

namespace Peg

/-- What a step that is made in the state `s` may leave. -/
structure Report.Orderly {τ : Type} (s : State) (r : Report τ) : Prop where
  /-- A failure of any kind leaves nothing behind: the reader with its save points, the
  saved texts and the number of rules open are as before. -/
  restored : ∀ error, r.outcome = .error error → r.state = s
  /-- A success moves the reader over text that was ahead, and keeps the text, the save
  points and the number of rules open. -/
  forward : ∀ output, r.outcome = .ok output →
    r.state.reader.text = s.reader.text ∧ r.state.reader.saves = s.reader.saves ∧
    r.state.depth = s.depth ∧
    ∃ front rest, s.reader.remaining = front ++ rest ∧
      r.state.reader.location = s.reader.location.advanceOver front
  /-- Every rule that is entered is left again. -/
  closed : Bracketed s.depth r.log.trace

namespace Engine

variable {π τ : Type} [CharTest π]

/-- A failing match changes nothing, and a succeeding one only moves forward. This
holds of any matcher, also of one that names missing rules, for any texts saved and
for any number of rules open before. -/
theorem step_orderly (e : Engine π τ) (m : Matcher π) {s : State}
    (reachable : s.reader.Reachable) : (e.step m s).Orderly s := by
  have follows := e.means_step s.depth m s ⟨reachable.valid, rfl⟩
  obtain ⟨closed, _⟩ := e.traces_step m s rfl
  generalize e.step m s = r at follows closed ⊢
  generalize e.denote _ m s.point s.saved = v at follows
  cases follows with
  | @matched output last saved log t between =>
    refine ⟨fun error failed => ?_, fun _ _ => ?_, closed⟩
    · cases failed
    · exact ⟨rfl, rfl, rfl, t, last.ahead, between.1, between.2⟩
  | failed mild same | aborted fatal same =>
    refine ⟨fun _ _ => same, fun output matched => ?_, closed⟩
    cases matched

/-- In `"aac"`, behind the first character and with a save point there, a rule is applied
and `"x"` is saved anew before the match fails. -/
theorem orderly_failed_save :
    let e : Engine Empty Nat := ⟨.empty, {}⟩
    let s : State := ⟨((Reader.ofText ['a', 'a', 'c']).advance 1).save, [("x", ['z'])], 7⟩
    let m : Matcher Empty :=
      .sequence [.save "x" (.rule "a" (.char (.only 'a'))), .char (.only 'b')]
    s.reader.Reachable ∧ (e.step m s).Orderly s := by
  intro e s m
  have reachable : s.reader.Reachable := .save (.advance 1 (.ofText _))
  exact ⟨reachable, step_orderly e m reachable⟩

end Engine

end Peg
