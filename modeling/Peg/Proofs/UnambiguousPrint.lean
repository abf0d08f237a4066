import Peg.Proofs.OptimizedMeaning
import Peg.Proofs.PrintedExpressions

/-!
# Printed expressions are unambiguous

The phrase that is read of a printed matcher means what the matcher means
(`Engine.sameMeaning_phrase`). What is read depends on the text alone, so legible matchers that
print the same match the same (`Engine.run_print_agree`).

It takes legible matchers. The printer writes a dash in a set as it writes the dash of a range,
it puts no parentheses around a lookahead that is repeated, and it takes a choice with one child
for a single operand even where that child shows an operator
(`Engine.print_ambiguous`).
-/

namespace Peg

namespace Output

variable {τ : Type}

theorem empty_append (o : Output τ) : empty.append o = o := rfl

theorem append_empty (o : Output τ) : o.append empty = o := by
  simp [append, empty]

theorem append_append (a b c : Output τ) : (a.append b).append c = a.append (b.append c) := by
  simp [append]

end Output

namespace Reading

variable {τ : Type}

@[simp] theorem resume_just_matched (output : Output τ) (last : Point) (saved : Saved)
    (matched : Output τ → Point → Saved → Reading τ) (failed : Location → Reading τ) :
    (just (.matched output last saved)).resume matched failed = matched output last saved := rfl

@[simp] theorem resume_just_failed (reach : Location)
    (matched : Output τ → Point → Saved → Reading τ) (failed : Location → Reading τ) :
    (just (.failed reach)).resume matched failed = failed reach := rfl

theorem mapOutput_of_forall {f : Output τ → Output τ} (same : ∀ o, f o = o) (r : Reading τ) :
    r.mapOutput f = r := by
  obtain ⟨verdict, marks⟩ := r
  cases verdict with
  | matched output last saved => rw [mapOutput_matched, same]
  | failed reach => exact mapOutput_failed f reach marks
  | aborted failure => rfl

end Reading

namespace Engine

variable {π τ : Type} [CharTest π] (e : Engine π τ) {call : String → Matcher π → Meaning τ}

/-! ## Rows of matchers -/

theorem denoteSequence_nil (p : Point) (saved : Saved) :
    e.denoteSequence call [] p saved = .just (.matched .empty p saved) := by
  rw [denoteSequence]

theorem denoteSequence_append (as bs : List (Matcher π)) (p : Point) (saved : Saved) :
    e.denoteSequence call (as ++ bs) p saved =
      (e.denoteSequence call as p saved).onMatch fun output last saved =>
        (e.denoteSequence call bs last saved).mapOutput output.append := by
  induction as generalizing p saved with
  | nil =>
    rw [List.nil_append, denoteSequence_nil, Reading.onMatch, Reading.resume_just_matched]
    exact (Reading.mapOutput_of_forall Output.empty_append _).symm
  | cons a as ih =>
    rw [List.cons_append, denoteSequence_cons, denoteSequence_cons]
    simp only [ih, Reading.mapOutput, Reading.onMatch, Reading.resume_resume,
      Reading.resume_just_matched, Reading.resume_just_failed, Output.append_append]

theorem denoteSequence_single (m : Matcher π) : e.denoteSequence call [m] = e.denote call m := by
  funext p saved
  rw [denoteSequence_cons]
  simp only [denoteSequence_nil, Reading.mapOutput, Reading.onMatch, Reading.resume_just_matched,
    Output.append_empty]
  exact Reading.mapOutput_of_forall (fun _ => rfl) _

/-! ## Matchers of one meaning -/

/-- The matchers mean the same beside the rules, however many of these may still be opened. -/
def SameMeaning (a b : Matcher π) : Prop :=
  ∀ levels, e.denote (e.applyRule levels) a = e.denote (e.applyRule levels) b

/-- All of the ones in a row mean what all of the others do. -/
def SameRow (as bs : List (Matcher π)) : Prop :=
  ∀ levels, e.denoteSequence (e.applyRule levels) as = e.denoteSequence (e.applyRule levels) bs

/-- Trying the ones means what trying the others does. -/
def SameAttempts (as bs : List (Matcher π)) : Prop :=
  ∀ levels, e.attempts (e.applyRule levels) as = e.attempts (e.applyRule levels) bs

variable {e} {m : Matcher π} {as bs cs ds : List (Matcher π)}

theorem SameRow.append (first : e.SameRow as bs) (second : e.SameRow cs ds) :
    e.SameRow (as ++ cs) (bs ++ ds) := by
  intro levels
  funext p saved
  rw [denoteSequence_append, denoteSequence_append, first levels, second levels]

theorem SameAttempts.append (first : e.SameAttempts as bs) (second : e.SameAttempts cs ds) :
    e.SameAttempts (as ++ cs) (bs ++ ds) :=
  fun levels => e.attempts_append (first levels) (second levels)

theorem SameMeaning.attempts {a b : Matcher π} (same : e.SameMeaning a b) :
    e.SameAttempts [a] [b] := by
  intro levels
  funext reach p saved
  unfold Engine.attempts
  rw [denoteChoice_cons, denoteChoice_cons, same levels]

theorem denote_ofItems (ms : List (Matcher π)) :
    e.denote call (.ofItems ms) = e.denoteSequence call ms := by
  unfold Matcher.ofItems
  split
  · exact (e.denoteSequence_single _).symm
  · rw [denote]

theorem sameMeaning_ofAlternatives (ms : List (Matcher π)) :
    e.SameMeaning (.ofAlternatives ms) (.choice ms) := by
  intro levels
  unfold Matcher.ofAlternatives
  split
  · exact e.denote_choice_single (e.ahead_applyRule levels) _
  · rfl

theorem sameMeaning_choice (same : e.SameAttempts as bs) :
    e.SameMeaning (.choice as) (.choice bs) := by
  intro levels
  funext p saved
  rw [denote_choice_eq_attempts, denote_choice_eq_attempts, same levels]

/-- One character is matched by the text that it is. -/
theorem denote_text_single (c : Char) :
    e.denote call (.text [c]) = e.denote call (.char (.only c)) := by
  funext p saved
  rw [denote, denote]
  by_cases next : [c] <+: p.ahead
  · obtain ⟨rest, whole⟩ := next
    have accepted : (CharClass.only c : CharClass π).accepts c = true := by simp [CharClass.accepts]
    rw [Meaning.char_eq_of_accepts whole.symm accepted]
    exact if_pos ⟨rest, whole⟩
  · have refused : ∀ x rest, p.ahead = x :: rest →
        ¬ (CharClass.only c : CharClass π).accepts x = true := by
      intro x rest ahead accepted
      obtain rfl : x = c := by simpa [CharClass.accepts] using accepted
      exact next ⟨rest, ahead.symm⟩
    rw [Meaning.char_eq_of_refuses refused]
    exact if_neg next

/-! ## Phrases mean what they are read of -/

theorem sameRow_enclosed (legible : m.Legible) (same : e.SameMeaning m.phrase.value m) :
    e.SameRow (m.enclosed .unary m.phrase).row [m] := by
  intro levels
  have single := Phrase.choices_eq_nil
    (Matcher.outline_enclosed_ne_choice (Matcher.outline_phrase legible))
  rw [← denote_ofItems, ← Phrase.value_of_choices_eq_nil single, Matcher.value_enclosed,
    same levels, denoteSequence_single]

theorem sameAttempts_enclosed (same : e.SameMeaning m.phrase.value m) (place : Matcher.Binding) :
    e.SameAttempts ((m.enclosed place m.phrase).alternatives.map .ofItems) [m] := by
  intro levels
  have value : e.SameMeaning (m.enclosed place m.phrase).value m := by
    rw [Matcher.value_enclosed]
    exact same
  have choice : e.SameMeaning (.choice ((m.enclosed place m.phrase).alternatives.map .ofItems)) m :=
    fun levels => (sameMeaning_ofAlternatives _ levels).symm.trans (value levels)
  exact (e.attempts_choice _).trans (choice.attempts levels)

theorem sameRow_phraseOfSequence {ms : List (Matcher π)} (some : ms ≠ [])
    (legible : ∀ m ∈ ms, m.Legible) (same : ∀ m ∈ ms, e.SameMeaning m.phrase.value m) :
    e.SameRow (Matcher.phraseOfSequence ms).row ms := by
  induction ms with
  | nil => exact absurd rfl some
  | cons m ms ih =>
    obtain ⟨legibleFirst, legible⟩ := List.forall_mem_cons.mp legible
    obtain ⟨first, same⟩ := List.forall_mem_cons.mp same
    cases ms with
    | nil => exact sameRow_enclosed legibleFirst first
    | cons m' ms =>
      have rows : (Matcher.phraseOfSequence (m :: m' :: ms)).row =
          (m.enclosed .unary m.phrase).row ++ (Matcher.phraseOfSequence (m' :: ms)).row :=
        Phrase.row_followedBy _ _
      rw [rows]
      exact (sameRow_enclosed legibleFirst first).append (ih nofun legible same)

theorem sameAttempts_phraseOfChoice {ms : List (Matcher π)} (some : ms ≠ [])
    (same : ∀ m ∈ ms, e.SameMeaning m.phrase.value m) :
    e.SameAttempts ((Matcher.phraseOfChoice ms).alternatives.map .ofItems) ms := by
  induction ms with
  | nil => exact absurd rfl some
  | cons m ms ih =>
    obtain ⟨first, same⟩ := List.forall_mem_cons.mp same
    cases ms with
    | nil => exact sameAttempts_enclosed first _
    | cons m' ms =>
      have alternatives : (Matcher.phraseOfChoice (m :: m' :: ms)).alternatives =
          (m.enclosed .sequence m.phrase).alternatives ++
            (Matcher.phraseOfChoice (m' :: ms)).alternatives := Phrase.alternatives_orElse _ _
      rw [alternatives, List.map_append]
      exact (sameAttempts_enclosed first _).append (ih nofun same)

variable {known : String → Bool}

/-- What is read of a legible matcher means what the matcher means. -/
theorem sameMeaning_phrase (formed : m.Formed known) (legible : m.Legible) :
    e.SameMeaning m.phrase.value m := by
  induction m using Matcher.induct_children with
  | step m ih =>
    have same : ∀ c ∈ m.children, e.SameMeaning c.phrase.value c := fun c hc =>
      ih c hc (formed.child hc) (legible.child hc)
    intro levels
    cases m with
    | char cls =>
      cases cls with
      | only c => exact denote_text_single c
      | range | oneOf | satisfying => rfl
    | text | endOfInput => rfl
    | sequence ms =>
      have single : (Matcher.phraseOfSequence ms).choices = [] :=
        Matcher.choices_phraseOfSequence fun m hm => Matcher.outline_phrase (legible.child hm)
      rw [Matcher.phrase, Phrase.value_of_choices_eq_nil single, denote_ofItems, denote,
        sameRow_phraseOfSequence formed.node (fun m hm => legible.child hm) same levels]
    | choice ms =>
      exact (sameMeaning_ofAlternatives _ levels).trans
        (sameMeaning_choice (sameAttempts_phraseOfChoice formed.node same) levels)
    | repetition m min max =>
      show e.denote _ (.repetition m.phrase.value min max) = _
      rw [denote, denote, same m List.mem_cons_self levels]
    | optional m =>
      show e.denote _ (.optional m.phrase.value) = _
      rw [denote, denote, same m List.mem_cons_self levels]
    | absent m =>
      have outline := Matcher.outline_phrase (legible.child List.mem_cons_self)
      obtain ⟨choices, items⟩ := Matcher.item_of_absent outline legible.node
      rw [Matcher.phrase, Phrase.value_negated choices items, Matcher.value_enclosed, denote,
        denote, same m List.mem_cons_self levels]
    | ref name =>
      show e.denote _ (.ref (String.ofList name.toList)) = _
      rw [String.ofList_toList]
    | load name =>
      show e.denote _ (.load (String.ofList name.toList)) = _
      rw [String.ofList_toList]
    | rule name m =>
      show e.applyRule levels name m.phrase.value = e.applyRule levels name m
      cases levels with
      | zero => rfl
      | succ levels => rw [applyRule, applyRule, same m List.mem_cons_self levels]
    | ignore m =>
      show e.denote _ (.ignore m.phrase.value) = _
      rw [denote, denote, same m List.mem_cons_self levels]
    | join m =>
      show e.denote _ (.join m.phrase.value) = _
      rw [denote, denote, same m List.mem_cons_self levels]
    | mark m =>
      show e.denote _ (.mark m.phrase.value) = _
      rw [denote, denote, same m List.mem_cons_self levels]
    | save name m =>
      show e.denote _ (.save name m.phrase.value) = _
      rw [denote, denote, same m List.mem_cons_self levels]

/-! ## Runs -/

/-- Beside the rules of a table, checked matchers are run from where a reader has been left. If
they are legible, have no tests and only plain names, and print the same, they match the same:
both fail, or both consume the same text and yield the same of it. -/
theorem run_print_agree {t : RuleTable π τ} {a b : Matcher π} (checkedA : t.problem? a = none)
    (checkedB : t.problem? b = none) (plainA : a.Plain) (plainB : b.Plain) (legibleA : a.Legible)
    (legibleB : b.Legible) (same : a.render = b.render) (settings : Settings) {reader : Reader}
    (reachable : reader.Reachable) :
    ∃ x y, Engine.run ⟨t, settings⟩ a reader = .ok x ∧ Engine.run ⟨t, settings⟩ b reader = .ok y ∧
      x.Agree y := by
  let e : Engine π τ := ⟨t, settings⟩
  have formedA := (RuleTable.problem?_eq_none_iff.mp checkedA).2
  have formedB := (RuleTable.problem?_eq_none_iff.mp checkedB).2
  have printed : a.print = b.print := String.ofList_injective same
  have read : a.phrase.value = b.phrase.value := by
    rw [← Matcher.ofPrint_print formedA plainA legibleA, printed,
      Matcher.ofPrint_print formedB plainB legibleB]
  have meaning : e.SameMeaning b a := fun levels => by
    rw [← sameMeaning_phrase formedA legibleA levels, read, sameMeaning_phrase formedB legibleB]
  exact ⟨e.execute a reader, e.execute b reader, run_eq_execute checkedA, run_eq_execute checkedB,
    agree_execute reachable.valid (meaning settings.maxDepth)⟩

/-- Two ways to build `'x' word !'\'' ('-' | $){2,12}`. -/
theorem print_agree_nested :
    let word : Matcher Empty := .repetition (.char (.range 'a' 'z')) 1 none
    let rules : List (Rule Empty Nat) := [⟨"word", word, default, none⟩]
    let t : RuleTable Empty Nat := ⟨rules, NullMap.compute rules, none, {}⟩
    let a : Matcher Empty := .sequence [.sequence [.char (.only 'x')],
      .choice [.sequence [.ref "word", .absent (.text ['\''])]],
      .repetition (.choice [.text ['-'], .endOfInput]) 2 (some 12)]
    let b : Matcher Empty := .sequence [.text ['x'], .ref "word", .absent (.char (.only '\'')),
      .repetition (.sequence [.choice [.char (.only '-'), .endOfInput]]) 2 (some 12)]
    let reader := (Reader.ofText ['é', 'x', 'a', 'b', '-', '-', '-', '.']).advance 1
    t.problem? a = none ∧ t.problem? b = none ∧ a.Plain ∧ b.Plain ∧ a.Legible ∧ b.Legible ∧
      a.render = b.render ∧ a ≠ b ∧ reader.Reachable ∧
      ∃ x y, Engine.run ⟨t, {}⟩ a reader = .ok x ∧ Engine.run ⟨t, {}⟩ b reader = .ok y ∧
        x.Agree y ∧ x.result.matched = ['x', 'a', 'b', '-', '-', '-'] := by
  intro word rules t a b reader
  have checkedA : t.problem? a = none := by decide
  have checkedB : t.problem? b = none := by decide
  have plainA : a.Plain := Matcher.plain_of_words rfl (by decide)
  have plainB : b.Plain := Matcher.plain_of_words rfl (by decide)
  have legibleA : a.Legible := by decide
  have legibleB : b.Legible := by decide
  have same : a.render = b.render := by decide +kernel
  have reachable : reader.Reachable := .advance 1 (.ofText _)
  obtain ⟨x, y, ranA, ranB, agree⟩ :=
    run_print_agree checkedA checkedB plainA plainB legibleA legibleB same {} reachable
  have execute : Engine.execute ⟨t, {}⟩ a reader = x := execute_of_run checkedA ranA
  have matched : x.result.matched = ['x', 'a', 'b', '-', '-', '-'] := by
    rw [← execute]
    decide +kernel
  exact ⟨checkedA, checkedB, plainA, plainB, legibleA, legibleB, same, by decide, reachable, x, y,
    ranA, ranB, agree, matched⟩

/-- The range from `+` to `a` and the set of `+`, `-` and `a` print the same, and only one of
them matches a comma. -/
theorem print_ambiguous :
    let range : Matcher Empty := .char (.range '+' 'a')
    let set : Matcher Empty := .char (.oneOf ['+', '-', 'a'])
    let g : Grammar Empty Nat := ⟨[], none, {}⟩
    let t : RuleTable Empty Nat := ⟨[], NullMap.compute ([] : List (Rule Empty Nat)), none, {}⟩
    g.build = .ok (t, [.built 0 "<none>" false]) ∧ t.problem? range = none ∧
      t.problem? set = none ∧ range.Plain ∧ set.Plain ∧ range.render = set.render ∧
      ∃ x y, Engine.run ⟨t, {}⟩ range (.ofText [',']) = .ok x ∧
        Engine.run ⟨t, {}⟩ set (.ofText [',']) = .ok y ∧
        x.result.success = true ∧ y.result.success = false := by
  intro range set g t
  refine ⟨Grammar.build_of_problem? (by decide) rfl, by decide, by decide, by decide, by decide,
    by decide, _, _, rfl, rfl, ?_, ?_⟩
  · decide +kernel
  · decide +kernel

/-- An option of a lookahead, and the lookahead of an option. -/
example : (Matcher.optional (.absent (.char (.only 'a'))) : Matcher Empty).print =
    (Matcher.absent (.optional (.char (.only 'a'))) : Matcher Empty).print := by decide

/-- A repeated row, and a row that ends with a repetition. -/
example : (Matcher.repetition (.choice [.sequence [.ref "a", .ref "b"]]) 0 none :
      Matcher Empty).print =
    (Matcher.sequence [.ref "a", .repetition (.ref "b") 0 none] : Matcher Empty).print := by decide

end Engine

end Peg
