import Mathlib.Data.List.Induction
import Peg.Match.Run
import Peg.Proofs.Backtracking

/-!
# Sessions of a reader

A session is a list of requests to one reader: to move over text, to make save points and
to take them back, to jump, and to run matchers. Whatever is asked in whatever order, the
reader and its save points stand between two characters of its text, and what is refused
changes nothing (`Reader.session_keeps_cursor`).

A jump takes the line and the column it is given as they are. If each goes to where the
reader has stood before, lines and columns are those that counting over the text gives
(`Location.Counted`), also behind runs that have failed.
-/

namespace Peg

/-- The location is what counting over the text up to its offset gives. -/
def Location.Counted (t : Text) (l : Location) : Prop :=
  ∃ front, t.takeBytes? l.offset = some front ∧ l = Location.start.advanceOver front

theorem Location.counted_iff {t : Text} {l : Location} :
    l.Counted t ↔ ∃ front rest, t = front ++ rest ∧ l = Location.start.advanceOver front := by
  constructor
  · rintro ⟨front, cut, counted⟩
    obtain ⟨rest, whole, _⟩ := Text.takeBytes?_eq_some_iff.mp cut
    exact ⟨front, rest, whole, counted⟩
  · rintro ⟨front, rest, rfl, rfl⟩
    refine ⟨front, ?_, rfl⟩
    rw [Location.advanceOver_offset, Location.start, Nat.zero_add]
    exact Text.takeBytes?_byteSize_append front rest

theorem Text.le_byteSize_of_isBoundary {t : Text} {n : Nat} (boundary : t.isBoundary n = true) :
    n ≤ t.byteSize := by
  obtain ⟨rest, cut⟩ := Option.isSome_iff_exists.mp boundary
  obtain ⟨front, rfl, rfl⟩ := Text.dropBytes?_eq_some_iff.mp cut
  rw [Text.byteSize_append]
  exact Nat.le_add_right _ _

/-! ## Requests -/

/-- What can be asked of a reader. -/
inductive Request : Type 1 where
  | advance (n : Nat)
  | read (n : Nat)
  | readText (n : Nat)
  | save
  | load
  | discard
  | rewind (l : Location)
  | run {π τ : Type} [CharTest π] (e : Engine π τ) (m : Matcher π)
  | runRule {π τ : Type} [CharTest π] (e : Engine π τ) (name : String)
  | runRoot {π τ : Type} [CharTest π] (e : Engine π τ)

namespace Reader

variable {r : Reader}

/-- The reader that a run leaves. If the grammar is wrong there is no run. -/
def leftBy {τ : Type} (r : Reader) : Except GrammarError (Run τ) → Reader
  | .ok run => run.reader
  | .error _ => r

/-- The reader after a request, also after one that it refuses. -/
def serve (r : Reader) : Request → Reader
  | .advance n => r.advance n
  | .read n => (r.read n).2
  | .readText n => (r.readText n).2
  | .save => r.save
  | .load => r.load.2
  | .discard => r.discard.2
  | .rewind l => (r.rewind l).2
  | @Request.run _ _ _ e m => r.leftBy (e.run m r)
  | @Request.runRule _ _ _ e name => r.leftBy (e.runRule name r)
  | @Request.runRoot _ _ _ e => r.leftBy (e.runRoot r)

/-- The reader of a text after some requests. -/
def session (t : Text) (requests : List Request) : Reader := requests.foldl serve (ofText t)

theorem session_append (t : Text) (before after : List Request) :
    session t (before ++ after) = after.foldl serve (session t before) :=
  List.foldl_append

/-! ## What a request can do -/

theorem read_eq_advance (r : Reader) (n : Nat) : ∃ k, (r.read n).2 = r.advance k := by
  unfold read
  split
  · exact ⟨n + 1, rfl⟩
  · exact ⟨0, rfl⟩

theorem readText_eq_advance (valid : r.Valid) (n : Nat) :
    ∃ k, (r.readText n).2 = r.advance k := by
  rw [readText_eq valid]
  dsimp only
  split
  · exact ⟨n, rfl⟩
  · exact ⟨0, rfl⟩

/-- A run leaves the reader where it was or further on, with the same save points. -/
theorem execute_eq_advance {π τ : Type} [CharTest π] (e : Engine π τ) (m : Matcher π)
    (reachable : r.Reachable) : ∃ k, (e.execute m r).reader = r.advance k := by
  have orderly := e.step_orderly m (s := ⟨r, [], 0⟩) reachable
  show ∃ k, (e.step m ⟨r, [], 0⟩).state.reader = r.advance k
  cases outcome : (e.step m ⟨r, [], 0⟩).outcome with
  | error error =>
    rw [orderly.restored error outcome]
    exact ⟨0, rfl⟩
  | ok output =>
    obtain ⟨text, saves, _, front, rest, ahead, location⟩ := orderly.forward output outcome
    refine ⟨front.length, ?_⟩
    rw [← movedOver_eq_advance ahead, movedOver, ← text, ← saves, ← location]

theorem leftBy_eq_advance {τ : Type} {result : Except GrammarError (Run τ)}
    (h : ∀ run, result = .ok run → ∃ k, run.reader = r.advance k) :
    ∃ k, r.leftBy result = r.advance k := by
  cases result with
  | ok run => exact h run rfl
  | error _ => exact ⟨0, rfl⟩

/-- Save points and jumps apart, a request moves the reader over characters ahead. -/
theorem serve_cases (reachable : r.Reachable) (q : Request) :
    (∃ k, r.serve q = r.advance k) ∨ q = .save ∨ q = .load ∨ q = .discard ∨
      ∃ l, q = .rewind l := by
  cases q with
  | advance n => exact .inl ⟨n, rfl⟩
  | read n => exact .inl (r.read_eq_advance n)
  | readText n => exact .inl (readText_eq_advance reachable.valid n)
  | save => exact .inr (.inl rfl)
  | load => exact .inr (.inr (.inl rfl))
  | discard => exact .inr (.inr (.inr (.inl rfl)))
  | rewind l => exact .inr (.inr (.inr (.inr ⟨l, rfl⟩)))
  | run e m | runRule e name | runRoot e =>
    refine .inl (leftBy_eq_advance fun run ran => ?_)
    simp only [Engine.run, Engine.runRule, Engine.runRoot] at ran
    split at ran
    all_goals cases ran
    all_goals exact execute_eq_advance _ _ reachable

/-! ## What is refused -/

theorem load_of_error {fault : ReaderFault} (refused : r.load.1 = .error fault) :
    r.load.2 = r := by
  unfold load at refused ⊢
  split at refused
  · rfl
  · cases refused

theorem discard_of_error {fault : ReaderFault} (refused : r.discard.1 = .error fault) :
    r.discard.2 = r := by
  unfold discard at refused ⊢
  split at refused
  · rfl
  · cases refused

theorem rewind_of_error {l : Location} {fault : ReaderFault}
    (refused : (r.rewind l).1 = .error fault) : (r.rewind l).2 = r := by
  unfold rewind at refused ⊢
  split at refused
  · cases refused
  · next inside => rw [if_neg inside]

/-! ## Cursors between characters -/

theorem Reachable.serve (reachable : r.Reachable) (q : Request) : (r.serve q).Reachable := by
  rcases serve_cases reachable q with ⟨k, moved⟩ | rfl | rfl | rfl | ⟨l, rfl⟩
  · exact moved ▸ reachable.advance k
  · exact reachable.save
  · exact reachable.load
  · exact reachable.discard
  · exact reachable.rewind l

/-! ## Lines and columns that are counted -/

/-- The locations of the cursor and of all save points are counted. -/
def Counted (r : Reader) : Prop := ∀ l ∈ r.location :: r.saves, l.Counted r.text

theorem counted_ofText (t : Text) : (ofText t).Counted := by
  intro l member
  obtain rfl := List.mem_singleton.mp member
  exact Location.counted_iff.mpr ⟨[], t, rfl, rfl⟩

theorem Counted.advance (counted : r.Counted) (n : Nat) : (r.advance n).Counted := by
  intro l member
  rcases List.mem_cons.mp member with rfl | saved
  · obtain ⟨front, rest, whole, place⟩ :=
      Location.counted_iff.mp (counted r.location List.mem_cons_self)
    have offset : r.position = front.byteSize := by
      rw [position, place, Location.advanceOver_offset, Location.start, Nat.zero_add]
    have ahead : r.remaining = rest := by
      rw [remaining, whole, offset, Text.dropBytes?_byteSize_append, Option.getD_some]
    refine Location.counted_iff.mpr ⟨front ++ rest.take n, rest.drop n, ?_, ?_⟩
    · rw [List.append_assoc, List.take_append_drop]
      exact whole
    · rw [Location.advanceOver_append, ← place, ← ahead]
      rfl
  · exact counted l (List.mem_cons_of_mem _ saved)

theorem Counted.save (counted : r.Counted) : r.save.Counted := by
  intro l member
  rcases List.mem_cons.mp member with rfl | earlier
  · exact counted r.location List.mem_cons_self
  · exact counted l earlier

theorem Counted.load (counted : r.Counted) : r.load.2.Counted := by
  unfold Reader.load
  split
  · exact counted
  · next saved saves found =>
    intro l member
    exact counted l (List.mem_cons_of_mem _ (found ▸ member))

theorem Counted.discard (counted : r.Counted) : r.discard.2.Counted := by
  unfold Reader.discard
  split
  · exact counted
  · next saved saves found =>
    intro l member
    rcases List.mem_cons.mp member with rfl | earlier
    · exact counted r.location List.mem_cons_self
    · exact counted l (List.mem_cons_of_mem _ (found ▸ List.mem_cons_of_mem _ earlier))

theorem Counted.rewind (counted : r.Counted) {l : Location} (target : l.Counted r.text) :
    (r.rewind l).2.Counted := by
  unfold Reader.rewind
  split
  · intro l' member
    rcases List.mem_cons.mp member with rfl | saved
    · exact target
    · exact counted l' (List.mem_cons_of_mem _ saved)
  · exact counted

/-- A request keeps the locations counted. A jump has to be to one that is. -/
theorem Counted.serve (counted : r.Counted) (reachable : r.Reachable) (q : Request)
    (target : ∀ l, q = .rewind l → l.Counted r.text) : (r.serve q).Counted := by
  rcases serve_cases reachable q with ⟨k, moved⟩ | rfl | rfl | rfl | ⟨l, rfl⟩
  · exact moved ▸ counted.advance k
  · exact counted.save
  · exact counted.load
  · exact counted.discard
  · exact counted.rewind (target l rfl)

/-! ## Sessions -/

theorem text_serve (reachable : r.Reachable) (q : Request) : (r.serve q).text = r.text := by
  rcases serve_cases reachable q with ⟨k, moved⟩ | rfl | rfl | rfl | ⟨l, rfl⟩
  · rw [moved]
    rfl
  · rfl
  · show r.load.2.text = r.text
    unfold load
    split <;> rfl
  · show r.discard.2.text = r.text
    unfold discard
    split <;> rfl
  · show (r.rewind l).2.text = r.text
    unfold rewind
    split <;> rfl

theorem reachable_session (t : Text) (requests : List Request) :
    (session t requests).Reachable ∧ (session t requests).text = t := by
  induction requests using List.reverseRecOn with
  | nil => exact ⟨.ofText t, rfl⟩
  | append_singleton before q ih =>
    obtain ⟨reachable, text⟩ := ih
    rw [session_append]
    exact ⟨reachable.serve q, (text_serve reachable q).trans text⟩

/-- Each jump goes to where the reader stood after some of the requests before it. -/
def JumpsBack (t : Text) (requests : List Request) : Prop :=
  ∀ i l, requests[i]? = some (.rewind l) →
    ∃ j ≤ i, (session t (requests.take j)).location = l

/-- The induction is on how many of the requests have been served: the place that a jump
goes to was come to with fewer. -/
theorem counted_session_take {t : Text} {requests : List Request}
    (back : JumpsBack t requests) (i : Nat) : (session t (requests.take i)).Counted := by
  induction i using Nat.strongRecOn with
  | ind i ih =>
    cases i with
    | zero => exact counted_ofText t
    | succ i =>
      have counted := ih i (Nat.lt_succ_self i)
      rw [List.take_add_one, session_append]
      cases next : requests[i]? with
      | none => exact counted
      | some q =>
        obtain ⟨reachable, text⟩ := reachable_session t (requests.take i)
        refine counted.serve reachable q fun l jump => ?_
        obtain ⟨j, le, place⟩ := back i l (jump ▸ next)
        have earlier := ih j (Nat.lt_succ_of_le le) _ List.mem_cons_self
        rw [place, (reachable_session t (requests.take j)).2] at earlier
        rw [text]
        exact earlier

/-- After any requests the reader has its text, and it and all its save points stand between
two characters of it. A return, a drop of a save point or a jump that is refused changes
nothing. If each jump went to where the reader had stood before, all locations are counted. -/
theorem session_keeps_cursor (t : Text) (requests : List Request) :
    let r := session t requests
    r.text = t ∧
    (∀ l ∈ r.location :: r.saves, l.offset ≤ t.byteSize ∧ t.isBoundary l.offset = true) ∧
    (∀ fault, r.load.1 = .error fault → r.load.2 = r) ∧
    (∀ fault, r.discard.1 = .error fault → r.discard.2 = r) ∧
    (∀ l fault, (r.rewind l).1 = .error fault → (r.rewind l).2 = r) ∧
    (JumpsBack t requests → ∀ l ∈ r.location :: r.saves, l.Counted t) := by
  intro r
  obtain ⟨reachable, text⟩ := reachable_session t requests
  refine ⟨text, fun l member => ?_, fun fault => ?_, fun fault => ?_, fun l fault => ?_,
    fun back => ?_⟩
  · have boundary : t.isBoundary l.offset = true := by
      rw [← text]
      rcases List.mem_cons.mp member with rfl | saved
      · exact reachable.valid
      · exact reachable.sound.saves l saved
    exact ⟨Text.le_byteSize_of_isBoundary boundary, boundary⟩
  · exact load_of_error
  · exact discard_of_error
  · exact rewind_of_error
  · have counted := counted_session_take back requests.length
    rw [List.take_length] at counted
    rw [← text]
    exact counted

/-- Over `"é\nab"` a run that fails in the second line, one that matches up to `"b"`, and
then a jump back into the first line. -/
theorem cursor_kept_two_lines :
    let t : Text := ['é', '\n', 'a', 'b']
    let e : Engine Empty Nat := ⟨.empty, {}⟩
    let line (c : Char) : Matcher Empty := .sequence [.char (.only '\n'), .char (.only c)]
    let requests : List Request :=
      [.advance 1, .save, .run e (line 'b'), .run e (line 'a'), .save, .rewind ⟨1, 2, 2⟩, .read 0]
    let r : Reader := ⟨t, ⟨2, 1, 3⟩, [⟨2, 2, 4⟩, ⟨1, 2, 2⟩]⟩
    JumpsBack t requests ∧ session t requests = r ∧ ∀ l ∈ r.location :: r.saves, l.Counted t := by
  intro t e line requests r
  have back : JumpsBack t requests := by
    intro i l jump
    obtain ⟨rfl, rfl⟩ : i = 5 ∧ l = ⟨1, 2, 2⟩ := by
      rcases i with _ | _ | _ | _ | _ | _ | _ | i
      all_goals cases jump
      exact ⟨rfl, rfl⟩
    exact ⟨1, by decide, by decide⟩
  have final : session t requests = r := by decide +kernel
  obtain ⟨_, _, _, _, _, counted⟩ := session_keeps_cursor t requests
  have places := counted back
  rw [final] at places
  exact ⟨back, final, places⟩

end Reader

end Peg
