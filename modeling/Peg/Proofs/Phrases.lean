import Mathlib.Logic.Function.Iterate
import Peg.Matcher.Printer
import Peg.Proofs.Form

/-!
# Phrases

What has been read of an expression is a phrase: the alternatives that are complete, the items
before the one that is being read, how often that is negated, and its operand as far as it has
been read.

`Matcher.phrase` is what a matcher looks like to a reader. It is not always what the matcher is:
one character stands for a text, and a sequence or a choice with one child cannot be seen.

* `Matcher.Plain` leaves out tests and names that could be taken for more than a name. Names made
  of letters, digits and underscores are not among these (`Matcher.plain_of_words`).
* `Matcher.Legible` leaves out the three ways in which the printer hides what an operator is
  applied to or what a set holds.
* `Matcher.outline_phrase`: in legible matchers, what is outermost is what a reader sees
  outermost.
-/

namespace Peg

variable {π : Type}

/-! ## Phrases -/

/-- What an open parenthesis belongs to. -/
inductive Opener where
  | group
  | rule (name : String)
  | ignore
  | join
  | mark
  | save (name : String)

/-- What stands in the place of the parentheses when they are closed. -/
def Opener.close : Opener → Matcher π → Matcher π
  | group, m => m
  | rule name, m => .rule name m
  | ignore, m => .ignore m
  | join, m => .join m
  | mark, m => .mark m
  | save name, m => .save name m

/-- An operand, as far as it has been read. -/
inductive Operand (π : Type) where
  | none
  /-- A word, which may go on. -/
  | word (w : Text)
  /-- A word with a colon and another word, which may be empty and may go on. -/
  | labelled (label w : Text)
  /-- A literal or a set up to its closing sign, perhaps with a backslash behind it. -/
  | quoted (closing : Char) (t : Text) (escaped : Bool)
  /-- A repetition with its bounds up to the closing brace. -/
  | counted (m : Matcher π) (bounds : Text)
  | whole (m : Matcher π)

namespace Operand

/-- The operand, if nothing more of it follows. -/
def value : Operand π → Matcher π
  | word w => .ref (String.ofList w)
  | labelled _ w => .load (String.ofList w)
  | whole m => m
  | none | quoted _ _ _ | counted _ _ => .endOfInput

/-- What a parenthesis behind the operand belongs to. -/
def opener : Operand π → Opener
  | word w =>
    if w = "ignore".toList then .ignore
    else if w = "join".toList then .join
    else if w = "mark".toList then .mark
    else .group
  | labelled label w => if w = [] then .rule (String.ofList label) else .save (String.ofList w)
  | none | quoted _ _ _ | counted _ _ | whole _ => .group

/-- Nothing more of the operand has to follow. -/
def isComplete : Operand π → Bool
  | word _ | labelled _ _ | whole _ => true
  | none | quoted _ _ _ | counted _ _ => false

end Operand

/-- Children in a row; one child stands for itself. -/
def Matcher.ofItems : List (Matcher π) → Matcher π
  | [m] => m
  | ms => .sequence ms

/-- Alternatives; one alternative stands for itself. -/
def Matcher.ofAlternatives : List (Matcher π) → Matcher π
  | [m] => m
  | ms => .choice ms

/-- An expression, as far as it has been read. -/
structure Phrase (π : Type) where
  /-- The alternatives that are complete. -/
  choices : List (List (Matcher π))
  /-- The items of the last alternative that are complete. -/
  items : List (Matcher π)
  /-- How often the item being read is negated. -/
  bangs : Nat
  operand : Operand π

namespace Phrase

def start : Phrase π := ⟨[], [], 0, .none⟩

def only (o : Operand π) : Phrase π := ⟨[], [], 0, o⟩

/-- The item being read. -/
def last (p : Phrase π) : Matcher π := Matcher.absent^[p.bangs] p.operand.value

/-- The items of the last alternative. -/
def row (p : Phrase π) : List (Matcher π) := p.items ++ [p.last]

def alternatives (p : Phrase π) : List (List (Matcher π)) := p.choices ++ [p.row]

/-- The expression, if nothing more of it follows. -/
def value (p : Phrase π) : Matcher π := .ofAlternatives (p.alternatives.map .ofItems)

def negated (p : Phrase π) : Phrase π := { p with bangs := p.bangs + 1 }

/-- Both phrases in a row. -/
def followedBy (p q : Phrase π) : Phrase π :=
  { q with choices := p.choices ++ q.choices, items := p.row ++ q.items }

/-- Both phrases as alternatives. -/
def orElse (p q : Phrase π) : Phrase π := { q with choices := p.alternatives ++ q.choices }

theorem row_followedBy (p q : Phrase π) : (p.followedBy q).row = p.row ++ q.row :=
  List.append_assoc p.row q.items [q.last]

theorem alternatives_orElse (p q : Phrase π) :
    (p.orElse q).alternatives = p.alternatives ++ q.alternatives :=
  List.append_assoc p.alternatives q.choices [q.row]

theorem value_of_choices_eq_nil {p : Phrase π} (single : p.choices = []) :
    p.value = .ofItems p.row := by
  rw [value, alternatives, single]
  rfl

theorem value_negated {p : Phrase π} (choices : p.choices = []) (items : p.items = []) :
    p.negated.value = .absent p.value := by
  rw [value_of_choices_eq_nil choices, value_of_choices_eq_nil (p := p.negated) choices, row, row,
    items, show p.negated.items = [] from items]
  exact Function.iterate_succ_apply' Matcher.absent p.bangs p.operand.value

end Phrase

/-! ## What matchers look like -/

namespace Matcher

/-- The phrase in parentheses, where the place wants a tighter binding. -/
def enclosed (place : Binding) (m : Matcher π) (shown : Phrase π) : Phrase π :=
  if m.binding.rank < place.rank then .only (.whole shown.value) else shown

mutual

/-- What is read of the printed matcher. -/
def phrase : Matcher π → Phrase π
  | char (.only c) => .only (.whole (.text [c]))
  | char cls => .only (.whole (.char cls))
  | text t => .only (.whole (.text t))
  | endOfInput => .only (.whole .endOfInput)
  | sequence ms => phraseOfSequence ms
  | choice ms => phraseOfChoice ms
  | repetition m min max => .only (.whole (.repetition (phrase m).value min max))
  | optional m => .only (.whole (.optional (phrase m).value))
  | absent m => (enclosed .unary m (phrase m)).negated
  | ref name => .only (.word name.toList)
  | rule name m => .only (.whole (.rule name (phrase m).value))
  | ignore m => .only (.whole (.ignore (phrase m).value))
  | join m => .only (.whole (.join (phrase m).value))
  | mark m => .only (.whole (.mark (phrase m).value))
  | save name m => .only (.whole (.save name (phrase m).value))
  | load name => .only (.labelled "load".toList name.toList)

def phraseOfSequence : List (Matcher π) → Phrase π
  | [] => .start
  | [m] => enclosed .unary m (phrase m)
  | m :: ms => (enclosed .unary m (phrase m)).followedBy (phraseOfSequence ms)

def phraseOfChoice : List (Matcher π) → Phrase π
  | [] => .start
  | [m] => enclosed .sequence m (phrase m)
  | m :: ms => (enclosed .sequence m (phrase m)).orElse (phraseOfChoice ms)

end

end Matcher

/-- The operator that is outermost in print and not in parentheses. -/
inductive Outline where
  | choice
  | sequence
  | absent
  | operand
deriving DecidableEq

/-- The outermost operator that has been read. -/
def Phrase.outline (p : Phrase π) : Outline :=
  if p.choices ≠ [] then .choice
  else if p.items ≠ [] then .sequence
  else if p.bangs ≠ 0 then .absent
  else .operand

namespace Matcher

/-- The outermost operator that is printed. -/
def outline : Matcher π → Outline
  | choice [m] => if m.binding = .choice then .operand else outline m
  | choice (_ :: _ :: _) => .choice
  | sequence [m] => if m.binding = .unary then outline m else .operand
  | sequence (_ :: _ :: _) => .sequence
  | absent _ => .absent
  | _ => .operand

/-- The signs that end a word. -/
def signs : List Char :=
  [' ', '|', '!', '(', ')', '\'', '[', '$', '*', '+', '?', '{', ':']

def isSign (c : Char) : Bool := c ∈ signs

/-- Letters, digits, underscores and whatever is not ASCII. -/
def isWordChar (c : Char) : Bool := c.isAlphanum || c == '_' || 127 < c.toNat

theorem isSign_eq_false {c : Char} (h : isWordChar c = true) : isSign c = false := by
  have others : signs.all (fun c => !isWordChar c) = true := by decide
  refine decide_eq_false fun sign => ?_
  have other := List.all_eq_true.mp others c sign
  simp [h] at other

def name? : Matcher π → Option String
  | ref name | rule name _ | save name _ | load name => some name
  | _ => none

/-- The names of rules and of saved texts in the matcher. -/
def names (m : Matcher π) : List String := m.subtrees.filterMap name?

/-- The node is no test, and its name has no signs in it. -/
def isPlain : Matcher π → Bool
  | char (.satisfying _) => false
  | ref name | rule name _ | save name _ | load name => name.toList.all (!isSign ·)
  | _ => true

/-- In print, the set is no range, and the operator applies to what it is applied to. -/
def isLegible : Matcher π → Bool
  | char (.oneOf [_, c, _]) => c ≠ '-'
  | repetition m _ _ | optional m => m.binding ≠ .unary || m.outline = .operand
  | absent m => m.binding ≠ .unary || m.outline ≠ .sequence
  | _ => true

/-- There are no tests, and names have no signs in them. -/
def Plain (m : Matcher π) : Prop := m.Every fun n => n.isPlain = true

/-- What is printed can be told from what other matchers print. -/
def Legible (m : Matcher π) : Prop := m.Every fun n => n.isLegible = true

instance (m : Matcher π) : Decidable m.Plain :=
  inferInstanceAs (Decidable (∀ n ∈ m.subtrees, n.isPlain = true))

instance (m : Matcher π) : Decidable m.Legible :=
  inferInstanceAs (Decidable (∀ n ∈ m.subtrees, n.isLegible = true))

/-- A matcher without tests is plain if its names are made of letters, digits, underscores and
characters that are not ASCII. -/
theorem plain_of_words {m : Matcher π} (noTests : m.tests = [])
    (words : ∀ name ∈ m.names, name.toList.all isWordChar = true) : m.Plain := by
  intro n hn
  have plain (name : String) (named : n.name? = some name) :
      name.toList.all (!isSign ·) = true := by
    have word := List.all_eq_true.mp (words name (List.mem_filterMap.mpr ⟨n, hn, named⟩))
    refine List.all_eq_true.mpr fun c hc => ?_
    rw [isSign_eq_false (word c hc)]
    rfl
  cases n with
  | char cls =>
    cases cls with
    | satisfying p =>
      have test : p ∈ m.tests := List.mem_filterMap.mpr ⟨_, hn, rfl⟩
      rw [noTests] at test
      cases test
    | only | range | oneOf => rfl
  | ref name | rule name m | save name m | load name => exact plain name rfl
  | _ => rfl

end Matcher

/-! ## Outlines of phrases -/

namespace Phrase

variable {p q : Phrase π}

theorem choices_eq_nil (h : p.outline ≠ .choice) : p.choices = [] := by
  by_contra some
  exact h (if_pos some)

theorem items_eq_nil (notChoice : p.outline ≠ .choice) (notSequence : p.outline ≠ .sequence) :
    p.items = [] := by
  by_contra some
  refine notSequence ?_
  rw [outline, if_neg (not_not.mpr (choices_eq_nil notChoice)), if_pos some]

theorem eq_only (h : p.outline = .operand) : p = .only p.operand := by
  have choices : p.choices = [] := choices_eq_nil (by simp [h])
  have items : p.items = [] := items_eq_nil (by simp [h]) (by simp [h])
  have bangs : p.bangs = 0 := by
    by_contra some
    simp [outline, choices, items, some] at h
  obtain ⟨_, _, _, o⟩ := p
  cases choices
  cases items
  cases bangs
  rfl

theorem outline_negated (choices : p.choices = []) (items : p.items = []) :
    p.negated.outline = .absent := by
  simp [outline, negated, choices, items]

theorem outline_followedBy (hp : p.choices = []) (hq : q.choices = []) :
    (p.followedBy q).outline = .sequence := by
  simp [outline, followedBy, hp, hq, row]

theorem outline_orElse (p q : Phrase π) : (p.orElse q).outline = .choice := by
  simp [outline, orElse, alternatives]

end Phrase

namespace Matcher

theorem binding_of_outline {m : Matcher π} (h : m.outline = .choice) : m.binding = .choice := by
  induction m with
  | choice ms ih =>
    match ms, h with
    | [m], h =>
      rw [outline] at h
      split at h
      · cases h
      · next loose => exact absurd (ih m List.mem_cons_self h) loose
    | _ :: _ :: _, _ => rfl
  | sequence ms ih =>
    match ms, h with
    | [m], h =>
      rw [outline] at h
      split at h
      · next tight =>
        have loose := ih m List.mem_cons_self h
        rw [tight] at loose
        cases loose
      · cases h
  | _ => cases h

theorem enclosed_unary (m : Matcher π) (p : Phrase π) :
    m.enclosed .unary p = if m.binding = .unary then p else .only (.whole p.value) := by
  unfold enclosed
  cases m.binding <;> rfl

theorem enclosed_sequence (m : Matcher π) (p : Phrase π) :
    m.enclosed .sequence p = if m.binding = .choice then .only (.whole p.value) else p := by
  unfold enclosed
  cases m.binding <;> rfl

/-- Among the operands of a sequence no alternatives are seen outside parentheses. -/
theorem outline_enclosed_ne_choice {m : Matcher π} (h : m.phrase.outline = m.outline) :
    (m.enclosed .unary m.phrase).outline ≠ .choice := by
  rw [enclosed_unary]
  split
  · next tight =>
    intro loose
    have loose := binding_of_outline (h ▸ loose)
    rw [tight] at loose
    cases loose
  · nofun

theorem choices_phraseOfSequence {ms : List (Matcher π)}
    (h : ∀ m ∈ ms, m.phrase.outline = m.outline) : (phraseOfSequence ms).choices = [] := by
  induction ms with
  | nil => rfl
  | cons m ms ih =>
    obtain ⟨first, h⟩ := List.forall_mem_cons.mp h
    have single := Phrase.choices_eq_nil (outline_enclosed_ne_choice first)
    cases ms with
    | nil => exact single
    | cons m' ms =>
      show (m.enclosed .unary m.phrase).choices ++ (phraseOfSequence (m' :: ms)).choices = []
      rw [single, ih h]
      rfl

theorem Plain.child {m c : Matcher π} (h : m.Plain) (hc : c ∈ m.children) : c.Plain :=
  (every_iff.mp h).2 c hc

theorem Plain.node {m : Matcher π} (h : m.Plain) : m.isPlain = true := (every_iff.mp h).1

theorem Legible.child {m c : Matcher π} (h : m.Legible) (hc : c ∈ m.children) : c.Legible :=
  (every_iff.mp h).2 c hc

theorem Legible.node {m : Matcher π} (h : m.Legible) : m.isLegible = true := (every_iff.mp h).1

/-- Behind a legible lookahead stands a single item. -/
theorem item_of_absent {m : Matcher π} (same : m.phrase.outline = m.outline)
    (legible : (absent m).isLegible = true) :
    (m.enclosed .unary m.phrase).choices = [] ∧ (m.enclosed .unary m.phrase).items = [] := by
  have notChoice := outline_enclosed_ne_choice same
  have notSequence : (m.enclosed .unary m.phrase).outline ≠ .sequence := by
    rw [enclosed_unary]
    split
    · next tight =>
      rw [same]
      simpa [isLegible, tight] using legible
    · nofun
  exact ⟨Phrase.choices_eq_nil notChoice, Phrase.items_eq_nil notChoice notSequence⟩

/-- What is outermost in a legible matcher is what a reader sees outermost. -/
theorem outline_phrase {m : Matcher π} (legible : m.Legible) : m.phrase.outline = m.outline := by
  induction m with
  | sequence ms ih =>
    have same : ∀ m ∈ ms, m.phrase.outline = m.outline := fun m hm => ih m hm (legible.child hm)
    match ms, same with
    | [], _ => rfl
    | [m], same =>
      rw [phrase, phraseOfSequence, outline, enclosed_unary, apply_ite Phrase.outline,
        same m List.mem_cons_self]
      rfl
    | m :: m' :: ms, same =>
      obtain ⟨first, rest⟩ := List.forall_mem_cons.mp same
      exact Phrase.outline_followedBy (Phrase.choices_eq_nil (outline_enclosed_ne_choice first))
        (choices_phraseOfSequence rest)
  | choice ms ih =>
    have same : ∀ m ∈ ms, m.phrase.outline = m.outline := fun m hm => ih m hm (legible.child hm)
    match ms, same with
    | [], _ => rfl
    | [m], same =>
      rw [phrase, phraseOfChoice, outline, enclosed_sequence, apply_ite Phrase.outline,
        same m List.mem_cons_self]
      rfl
    | m :: m' :: ms, _ => exact Phrase.outline_orElse _ _
  | absent m ih =>
    obtain ⟨choices, items⟩ := item_of_absent (ih (legible.child List.mem_cons_self)) legible.node
    exact Phrase.outline_negated choices items
  | char cls => cases cls <;> rfl
  | _ => rfl

/-- Parentheses do not matter to what is read. -/
theorem value_enclosed (place : Binding) (m : Matcher π) :
    (m.enclosed place m.phrase).value = m.phrase.value := by
  unfold enclosed
  split
  · rfl
  · rfl

/-- Behind a legible repetition or option stands a single operand. -/
theorem enclosed_eq_only {m : Matcher π} (legible : m.Legible)
    (applies : m.binding ≠ .unary ∨ m.outline = .operand) :
    m.enclosed .unary m.phrase = .only (m.enclosed .unary m.phrase).operand := by
  refine Phrase.eq_only ?_
  rw [enclosed_unary]
  split
  · next tight =>
    rw [outline_phrase legible]
    exact applies.resolve_left (not_not.mpr tight)
  · rfl

variable {known : String → Bool}

theorem isComplete_enclosed {m : Matcher π} (h : m.phrase.operand.isComplete = true)
    (place : Binding) : (m.enclosed place m.phrase).operand.isComplete = true := by
  unfold enclosed
  split
  · rfl
  · exact h

theorem isComplete_phraseOfSequence {ms : List (Matcher π)} (some : ms ≠ [])
    (h : ∀ m ∈ ms, m.phrase.operand.isComplete = true) :
    (phraseOfSequence ms).operand.isComplete = true := by
  induction ms with
  | nil => exact absurd rfl some
  | cons m ms ih =>
    obtain ⟨first, h⟩ := List.forall_mem_cons.mp h
    cases ms with
    | nil => exact isComplete_enclosed first _
    | cons m' ms => exact ih nofun h

theorem isComplete_phraseOfChoice {ms : List (Matcher π)} (some : ms ≠ [])
    (h : ∀ m ∈ ms, m.phrase.operand.isComplete = true) :
    (phraseOfChoice ms).operand.isComplete = true := by
  induction ms with
  | nil => exact absurd rfl some
  | cons m ms ih =>
    obtain ⟨first, h⟩ := List.forall_mem_cons.mp h
    cases ms with
    | nil => exact isComplete_enclosed first _
    | cons m' ms => exact ih nofun h

/-- Nothing has to follow what a formed matcher prints. -/
theorem isComplete_phrase {m : Matcher π} (formed : m.Formed known) :
    m.phrase.operand.isComplete = true := by
  induction m with
  | sequence ms ih =>
    exact isComplete_phraseOfSequence formed.node fun m hm => ih m hm (formed.child hm)
  | choice ms ih =>
    exact isComplete_phraseOfChoice formed.node fun m hm => ih m hm (formed.child hm)
  | absent m ih => exact isComplete_enclosed (ih (formed.child List.mem_cons_self)) _
  | char cls => cases cls <;> rfl
  | _ => rfl

end Matcher

end Peg
