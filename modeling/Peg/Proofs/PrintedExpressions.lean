import Mathlib.Data.List.TakeWhile
import Peg.Proofs.Phrases

/-!
# Reading printed expressions

A printed expression is read from left to right, character by character, into a phrase. At an
open parenthesis a new phrase begins, and the phrases around it wait on a stack. No character
needs one behind it to be understood, so reading is one step after the other (`Scan.feed`), and a
text can be read in pieces.

* `Matcher.reads_print`: what a legible matcher prints is read as its phrase, wherever that can
  begin.
* `Matcher.ofPrint_print`: so the print alone gives the phrase.
-/

namespace Peg

variable {π : Type}

/-! ## Reading -/

/-- The character that stands behind a backslash, as it is meant. -/
def unescaped (c : Char) : Char :=
  if c = 'n' then '\n' else if c = 'r' then '\r' else if c = 't' then '\t' else c

/-- What a literal or a set says. -/
def Matcher.ofQuoted (closing : Char) : Text → Matcher π
  | [lo, '-', hi] => if closing = '\'' then .text [lo, '-', hi] else .char (.range lo hi)
  | t => if closing = '\'' then .text t else .char (.oneOf t)

/-- The bounds of a repetition, as they stand between the braces. -/
def readBounds (t : Text) : Nat × Option Nat :=
  let min := Nat.ofDigitChars 10 (t.takeWhile Char.isDigit) 0
  match t.dropWhile Char.isDigit with
  | [] => (min, some min)
  | [_] => (min, none)
  | _ :: max => (min, some (Nat.ofDigitChars 10 max 0))

/-- Goes on with an operand that is being read up to a closing sign. -/
def Operand.inside? (c : Char) : Operand π → Option (Operand π)
  | quoted closing t true => some (quoted closing (t ++ [unescaped c]) false)
  | quoted closing t false =>
    some (if c = '\\' then quoted closing t true
      else if c = closing then whole (.ofQuoted closing t)
      else quoted closing (t ++ [c]) false)
  | counted m bounds =>
    some (if c = '}' then whole (.repetition m (readBounds bounds).1 (readBounds bounds).2)
      else counted m (bounds ++ [c]))
  | none | word _ | labelled _ _ | whole _ => Option.none

/-- Goes on with a word, or begins one. -/
def Operand.spell (w : Text) : Operand π → Operand π
  | none => word w
  | word front => word (front ++ w)
  | labelled label front => labelled label (front ++ w)
  | o => o

/-- Takes the word as a label. -/
def Operand.label : Operand π → Operand π
  | word w => labelled w []
  | o => o

/-- The item is complete, if there is one. -/
def Phrase.separate (p : Phrase π) : Phrase π :=
  match p.operand with
  | .none => p
  | _ => ⟨p.choices, p.row, 0, .none⟩

/-- The items so far are an alternative. -/
def Phrase.alternate (p : Phrase π) : Phrase π := ⟨p.choices ++ [p.items], [], 0, .none⟩

/-- A phrase that is being read, and those around it with the parentheses between them, the
innermost first. -/
structure Scan (π : Type) where
  phrase : Phrase π
  around : List (Opener × Phrase π)

namespace Scan

def put (s : Scan π) (o : Operand π) : Scan π := { s with phrase := { s.phrase with operand := o } }

def close (s : Scan π) : Scan π :=
  match s.around with
  | [] => s
  | (opener, p) :: around => put ⟨p, around⟩ (.whole (opener.close s.phrase.value))

/-- Reads a character that is not inside a literal, a set or bounds. -/
def sign (s : Scan π) (c : Char) : Scan π :=
  let o := s.phrase.operand
  match c with
  | ' ' => { s with phrase := s.phrase.separate }
  | '|' => { s with phrase := s.phrase.alternate }
  | '!' => { s with phrase := s.phrase.negated }
  | '(' => ⟨.start, (o.opener, s.phrase) :: s.around⟩
  | ')' => s.close
  | '\'' => s.put (.quoted '\'' [] false)
  | '[' => s.put (.quoted ']' [] false)
  | '$' => s.put (.whole .endOfInput)
  | '*' => s.put (.whole (.repetition o.value 0 none))
  | '+' => s.put (.whole (.repetition o.value 1 none))
  | '?' => s.put (.whole (.optional o.value))
  | '{' => s.put (.counted o.value [])
  | ':' => s.put o.label
  | c => s.put (o.spell [c])

/-- Reads a character. -/
def step (s : Scan π) (c : Char) : Scan π :=
  match s.phrase.operand.inside? c with
  | some o => s.put o
  | none => s.sign c

/-- Reads a text. -/
def feed (t : Text) (s : Scan π) : Scan π := t.foldl step s

@[simp] theorem feed_nil (s : Scan π) : feed [] s = s := rfl

@[simp] theorem feed_cons (c : Char) (t : Text) (s : Scan π) :
    feed (c :: t) s = feed t (s.step c) := rfl

@[simp] theorem feed_append (t u : Text) (s : Scan π) : feed (t ++ u) s = feed u (feed t s) :=
  List.foldl_append

@[simp] theorem put_put (s : Scan π) (o o' : Operand π) : (s.put o).put o' = s.put o' := rfl

@[simp] theorem operand_put (s : Scan π) (o : Operand π) : (s.put o).phrase.operand = o := rfl

/-- Nothing is being read up to a closing sign. -/
def Outside (s : Scan π) : Prop := ∀ c, s.phrase.operand.inside? c = none

theorem Outside.step_eq {s : Scan π} (h : s.Outside) (c : Char) : s.step c = s.sign c := by
  rw [step, h c]

theorem outside_of_none {s : Scan π} (fresh : s.phrase.operand = .none) : s.Outside :=
  fun _ => fresh ▸ rfl

theorem outside_of_isComplete {s : Scan π} (complete : s.phrase.operand.isComplete = true) :
    s.Outside := by
  intro c
  cases same : s.phrase.operand with
  | none | quoted _ _ _ | counted _ _ =>
    rw [same] at complete
    cases complete
  | word _ | labelled _ _ | whole _ => rfl

/-! ### Literals and sets -/

theorem step_quoted (s : Scan π) {closing : Char} (t : Text) {c : Char} (plain : c ≠ '\\')
    (inner : c ≠ closing) :
    (s.put (.quoted closing t false)).step c = s.put (.quoted closing (t ++ [c]) false) := by
  simp [step, Operand.inside?, plain, inner]

theorem feed_escaped (s : Scan π) (closing : Char) (t : Text) (c : Char) :
    feed ['\\', c] (s.put (.quoted closing t false)) =
      s.put (.quoted closing (t ++ [unescaped c]) false) := by
  simp [step, Operand.inside?]

theorem feed_printChar (s : Scan π) {closing : Char} (h : closing = '\'' ∨ closing = ']') (t : Text)
    (c : Char) : feed (printChar closing c) (s.put (.quoted closing t false)) =
      s.put (.quoted closing (t ++ [c]) false) := by
  unfold printChar
  split
  · next same => exact same ▸ s.feed_escaped closing t 'n'
  split
  · next same => exact same ▸ s.feed_escaped closing t 'r'
  split
  · next same => exact same ▸ s.feed_escaped closing t 't'
  split
  · next same =>
    subst same
    exact s.feed_escaped closing t '\\'
  split
  · next same =>
    have meant : unescaped c = c := by rcases h with rfl | rfl <;> subst same <;> decide
    rw [s.feed_escaped closing t c, meant]
  · next plain inner => exact s.step_quoted t plain inner

theorem feed_printChars (s : Scan π) {closing : Char} (h : closing = '\'' ∨ closing = ']')
    (t u : Text) : feed (printChars closing u) (s.put (.quoted closing t false)) =
      s.put (.quoted closing (t ++ u) false) := by
  induction u generalizing t with
  | nil => rw [List.append_nil]; rfl
  | cons c u ih =>
    show feed (printChar closing c ++ printChars closing u) _ = _
    rw [feed_append, s.feed_printChar h, ih, List.append_assoc]
    rfl

theorem step_closing (s : Scan π) {closing : Char} (h : closing = '\'' ∨ closing = ']') (t : Text) :
    (s.put (.quoted closing t false)).step closing = s.put (.whole (.ofQuoted closing t)) := by
  have apart : closing ≠ '\\' := by rcases h with rfl | rfl <;> decide
  simp [step, Operand.inside?, apart]

/-- Characters between an opening and a closing sign are an operand. -/
theorem feed_quoted {s : Scan π} {opening closing : Char} (h : closing = '\'' ∨ closing = ']')
    (opened : s.step opening = s.put (.quoted closing [] false)) (t : Text) :
    feed (opening :: printChars closing t ++ [closing]) s =
      s.put (.whole (.ofQuoted closing t)) := by
  rw [List.cons_append, feed_cons, feed_append, opened, s.feed_printChars h, List.nil_append]
  exact s.step_closing h t

/-! ### Words -/

theorem sign_of_not_isSign (s : Scan π) {c : Char} (plain : Matcher.isSign c = false) :
    s.sign c = s.put (s.phrase.operand.spell [c]) := by
  unfold sign
  split <;> first | rfl | cases plain

theorem feed_spell {s : Scan π} (outside : s.Outside) {w : Text} (some : w ≠ [])
    (plain : ∀ c ∈ w, Matcher.isSign c = false) :
    feed w s = s.put (s.phrase.operand.spell w) := by
  induction w generalizing s with
  | nil => exact absurd rfl some
  | cons c w ih =>
    obtain ⟨first, plain⟩ := List.forall_mem_cons.mp plain
    rw [feed_cons, outside.step_eq, s.sign_of_not_isSign first]
    cases w with
    | nil => rfl
    | cons c' w =>
      have outside' : (s.put (s.phrase.operand.spell [c])).Outside := by
        intro c'
        have here := outside c'
        rw [operand_put]
        cases same : s.phrase.operand with
        | none | word _ | labelled _ _ | whole _ => rfl
        | quoted _ _ _ | counted _ _ =>
          rw [same] at here
          simp [Operand.spell, here]
      rw [ih outside' (List.cons_ne_nil _ _) plain, operand_put, put_put]
      cases s.phrase.operand <;> simp [Operand.spell]

/-! ### Bounds -/

theorem feed_counted (s : Scan π) (m : Matcher π) {t : Text} (inner : '}' ∉ t) (bounds : Text) :
    feed (t ++ ['}']) (s.put (.counted m bounds)) =
      s.put (.whole (.repetition m (readBounds (bounds ++ t)).1 (readBounds (bounds ++ t)).2)) := by
  induction t generalizing bounds with
  | nil => simp [step, Operand.inside?]
  | cons c t ih =>
    obtain ⟨first, rest⟩ := List.ne_and_not_mem_of_not_mem_cons inner
    have taken : (s.put (.counted m bounds)).step c = s.put (.counted m (bounds ++ [c])) := by
      simp [step, Operand.inside?, first.symm]
    rw [List.cons_append, feed_cons, taken, ih rest, List.append_assoc, List.singleton_append]

theorem isDigit_of_mem_printNat {n : Nat} {c : Char} (hc : c ∈ printNat n) : c.isDigit = true :=
  Nat.isDigit_of_mem_toDigits (by decide) (by decide) hc

theorem readBounds_printNat (n : Nat) : readBounds (printNat n) = (n, some n) := by
  have digits : ∀ c ∈ printNat n, c.isDigit = true := fun _ => isDigit_of_mem_printNat
  rw [readBounds, List.takeWhile_eq_self_iff.mpr digits, List.dropWhile_eq_nil_iff.mpr digits]
  simp [printNat]

theorem readBounds_printNat_append (n : Nat) (max : Text) :
    readBounds (printNat n ++ ',' :: max) =
      (n, if max = [] then none else some (Nat.ofDigitChars 10 max 0)) := by
  have digits : ∀ c ∈ printNat n, c.isDigit = true := fun _ => isDigit_of_mem_printNat
  have value : Nat.ofDigitChars 10 (printNat n) 0 = n := Nat.ofDigitChars_ten_toDigits
  have front : (printNat n ++ ',' :: max).takeWhile Char.isDigit = printNat n := by
    rw [List.takeWhile_append_of_pos digits]
    exact List.append_nil _
  have rest : (printNat n ++ ',' :: max).dropWhile Char.isDigit = ',' :: max := by
    rw [List.dropWhile_append_of_pos digits]
    rfl
  rw [readBounds, front, rest, value]
  cases max with
  | nil => rfl
  | cons c max => rfl

theorem feed_braced {s : Scan π} (outside : s.Outside) {t : Text} (inner : '}' ∉ t) :
    feed ('{' :: t ++ ['}']) s =
      s.put (.whole (.repetition s.phrase.operand.value (readBounds t).1 (readBounds t).2)) := by
  have opened : s.step '{' = s.put (.counted s.phrase.operand.value []) := outside.step_eq _
  rw [List.cons_append, feed_cons, opened]
  exact s.feed_counted _ inner []

theorem feed_printBounds {s : Scan π} (outside : s.Outside) (min : Nat) (max : Option Nat) :
    feed (Matcher.printBounds min max) s =
      s.put (.whole (.repetition s.phrase.operand.value min max)) := by
  have digits {n : Nat} {c : Char} (sign : c.isDigit = false) : c ∉ printNat n := fun hc =>
    absurd (isDigit_of_mem_printNat hc) (Bool.eq_false_iff.mp sign)
  have unclosed {n : Nat} : '}' ∉ printNat n := digits (by decide)
  unfold Matcher.printBounds
  cases max with
  | none =>
    dsimp only
    split
    · next same =>
      subst same
      exact outside.step_eq '*'
    split
    · next same =>
      subst same
      exact outside.step_eq '+'
    · have whole : ('{' :: printNat min ++ [',', '}'] : Text) =
          '{' :: (printNat min ++ [',']) ++ ['}'] := by simp
      rw [whole, feed_braced outside (by simp [unclosed]), readBounds_printNat_append]
      rfl
  | some max =>
    dsimp only
    split
    · next same =>
      subst same
      rw [feed_braced outside unclosed, readBounds_printNat]
    · have whole : ('{' :: printNat min ++ ',' :: printNat max ++ ['}'] : Text) =
          '{' :: (printNat min ++ ',' :: printNat max) ++ ['}'] := by simp
      have some : printNat max ≠ [] := Nat.toDigits_ne_nil
      rw [whole, feed_braced outside (by simp [unclosed]), readBounds_printNat_append, if_neg some]
      simp [printNat]

end Scan

/-! ## Reading what is printed -/

/-- After `q` has been read behind `p`. -/
def Phrase.append (p q : Phrase π) : Phrase π :=
  ⟨p.choices ++ q.choices, p.items ++ q.items, p.bangs + q.bangs, q.operand⟩

/-- Where `p` ends, `q` can begin: if `q` has several items, an item begins there, and if it
has several alternatives, an alternative does. -/
structure Phrase.Admits (p q : Phrase π) : Prop where
  operand : p.operand = .none
  items : q.items ≠ [] → p.bangs = 0
  choices : q.choices ≠ [] → p.items = [] ∧ p.bangs = 0

namespace Scan

def read (q : Phrase π) (s : Scan π) : Scan π := { s with phrase := s.phrase.append q }

theorem read_only (s : Scan π) (o : Operand π) : s.read (.only o) = s.put o := by
  simp [read, put, Phrase.append, Phrase.only]

theorem admits_start (q : Phrase π) : Phrase.start.Admits q :=
  ⟨rfl, fun _ => rfl, fun _ => ⟨rfl, rfl⟩⟩

theorem read_start (q : Phrase π) (around : List (Opener × Phrase π)) :
    (⟨.start, around⟩ : Scan π).read q = ⟨q, around⟩ := by
  simp [read, Phrase.append, Phrase.start]

/-! ### Words, parentheses and what stands between operands -/

theorem toList_ne_nil {name : String} (some : name ≠ "") : name.toList ≠ [] := by
  simpa using some

theorem not_isSign_of_all {w : Text} (plain : w.all (!Matcher.isSign ·) = true) :
    ∀ c ∈ w, Matcher.isSign c = false := fun c hc => by
  simpa using List.all_eq_true.mp plain c hc

theorem feed_word {s : Scan π} (fresh : s.phrase.operand = .none) {w : Text} (some : w ≠ [])
    (plain : w.all (!Matcher.isSign ·) = true) : feed w s = s.put (.word w) := by
  rw [feed_spell (outside_of_none fresh) some (not_isSign_of_all plain), fresh]
  rfl

/-- A word with a colon and a name behind it. -/
theorem feed_labelled {s : Scan π} (fresh : s.phrase.operand = .none) {label w : Text}
    (some : label ≠ []) (plainLabel : label.all (!Matcher.isSign ·) = true) (some' : w ≠ [])
    (plain : w.all (!Matcher.isSign ·) = true) :
    feed (label ++ ':' :: w) s = s.put (.labelled label w) := by
  have colon : (s.put (.word label)).step ':' = s.put (.labelled label []) := rfl
  have outside : (s.put (.labelled label [])).Outside := outside_of_isComplete rfl
  rw [feed_append, feed_word fresh some plainLabel, feed_cons, colon,
    feed_spell outside some' (not_isSign_of_all plain)]
  rfl

/-- Parentheses and what is between them are an operand. -/
theorem feed_parentheses {s : Scan π} (outside : s.Outside) {t : Text} {q : Phrase π}
    (inner : ∀ around, feed t ⟨.start, around⟩ = ⟨q, around⟩)
    (complete : q.operand.isComplete = true) :
    feed ('(' :: t ++ [')']) s = s.put (.whole (s.phrase.operand.opener.close q.value)) := by
  have opened : s.step '(' = ⟨.start, (s.phrase.operand.opener, s.phrase) :: s.around⟩ :=
    outside.step_eq _
  rw [List.cons_append, feed_cons, feed_append, opened, inner]
  exact (outside_of_isComplete complete).step_eq ')'

/-- Behind a complete item, a space begins another. -/
theorem step_space {s : Scan π} (still : s.phrase.bangs = 0) {q : Phrase π}
    (complete : q.operand.isComplete = true) :
    (s.read q).step ' ' =
      ⟨⟨s.phrase.choices ++ q.choices, s.phrase.items ++ q.row, 0, .none⟩, s.around⟩ := by
  have item : (s.phrase.append q).separate =
      ⟨s.phrase.choices ++ q.choices, (s.phrase.append q).row, 0, .none⟩ := by
    unfold Phrase.separate Phrase.append
    cases same : q.operand with
    | none =>
      rw [same] at complete
      cases complete
    | _ => rfl
  have row : (s.phrase.append q).row = s.phrase.items ++ q.row := by
    simp [Phrase.append, Phrase.row, Phrase.last, still]
  rw [Outside.step_eq (outside_of_isComplete complete), ← row]
  exact congrArg (Scan.mk · s.around) item

/-- A bar between spaces begins another alternative. -/
theorem feed_bar {s : Scan π} (empty : s.phrase.items = []) (still : s.phrase.bangs = 0)
    {q : Phrase π} (complete : q.operand.isComplete = true) :
    feed [' ', '|', ' '] (s.read q) =
      ⟨⟨s.phrase.choices ++ q.alternatives, [], 0, .none⟩, s.around⟩ := by
  rw [feed_cons, step_space still complete, empty, Phrase.alternatives, ← List.append_assoc]
  rfl

variable [CharTest π]

/-- What `m` prints is read as its phrase, wherever that can begin. -/
def Reads (m : Matcher π) : Prop :=
  ∀ s : Scan π, s.phrase.Admits m.phrase → feed m.print s = s.read m.phrase

variable {m : Matcher π} {ms : List (Matcher π)}

theorem Reads.within (reads : Reads m) (around : List (Opener × Phrase π)) :
    feed m.print ⟨.start, around⟩ = ⟨m.phrase, around⟩ := by
  rw [reads _ (admits_start _), read_start]

theorem Reads.enclosed (reads : Reads m) (complete : m.phrase.operand.isComplete = true)
    {place : Matcher.Binding} {s : Scan π} (admits : s.phrase.Admits (m.enclosed place m.phrase)) :
    feed (Matcher.enclose place m m.print) s = s.read (m.enclosed place m.phrase) := by
  unfold Matcher.enclose Matcher.enclosed at *
  split
  · next loose =>
    have fresh := admits.operand
    rw [feed_parentheses (outside_of_none fresh) reads.within complete, fresh, read_only]
    rfl
  · next tight =>
    rw [if_neg tight] at admits
    exact reads s admits

theorem feed_printSequence (reads : ∀ m ∈ ms, Reads m)
    (complete : ∀ m ∈ ms, m.phrase.operand.isComplete = true)
    (same : ∀ m ∈ ms, m.phrase.outline = m.outline) (some : ms ≠ []) {s : Scan π}
    (admits : s.phrase.Admits (Matcher.phraseOfSequence ms)) :
    feed (Matcher.printAll .unary [' '] ms) s = s.read (Matcher.phraseOfSequence ms) := by
  induction ms generalizing s with
  | nil => exact absurd rfl some
  | cons m ms ih =>
    obtain ⟨first, reads⟩ := List.forall_mem_cons.mp reads
    obtain ⟨completeFirst, complete⟩ := List.forall_mem_cons.mp complete
    obtain ⟨sameFirst, same⟩ := List.forall_mem_cons.mp same
    cases ms with
    | nil => exact first.enclosed completeFirst admits
    | cons m' ms =>
      -- Several items are to be read, so the first of them begins here, and none has alternatives.
      have single := Phrase.choices_eq_nil (Matcher.outline_enclosed_ne_choice sameFirst)
      have rest := Matcher.choices_phraseOfSequence same
      have still : s.phrase.bangs = 0 := admits.items (by
        simp [Matcher.phraseOfSequence, Phrase.followedBy, Phrase.row])
      have here : s.phrase.Admits (m.enclosed .unary m.phrase) :=
        ⟨admits.operand, fun _ => still, fun several => absurd single several⟩
      show feed (Matcher.enclose .unary m m.print ++ [' '] ++
        Matcher.printAll .unary [' '] (m' :: ms)) s = _
      rw [feed_append, feed_append, first.enclosed completeFirst here, feed_cons, feed_nil,
        step_space still (Matcher.isComplete_enclosed completeFirst _),
        ih reads complete same (List.cons_ne_nil _ _)
          ⟨rfl, fun _ => rfl, fun several => absurd rest several⟩]
      simp [read, Phrase.append, Matcher.phraseOfSequence, Phrase.followedBy, still, single]

theorem feed_printChoice (reads : ∀ m ∈ ms, Reads m)
    (complete : ∀ m ∈ ms, m.phrase.operand.isComplete = true) (some : ms ≠ []) {s : Scan π}
    (admits : s.phrase.Admits (Matcher.phraseOfChoice ms)) :
    feed (Matcher.printAll .sequence [' ', '|', ' '] ms) s =
      s.read (Matcher.phraseOfChoice ms) := by
  induction ms generalizing s with
  | nil => exact absurd rfl some
  | cons m ms ih =>
    obtain ⟨first, reads⟩ := List.forall_mem_cons.mp reads
    obtain ⟨completeFirst, complete⟩ := List.forall_mem_cons.mp complete
    cases ms with
    | nil => exact first.enclosed completeFirst admits
    | cons m' ms =>
      -- Several alternatives are to be read, so the first of them begins here.
      obtain ⟨empty, still⟩ : s.phrase.items = [] ∧ s.phrase.bangs = 0 := admits.choices (by
        simp [Matcher.phraseOfChoice, Phrase.orElse, Phrase.alternatives])
      have here : s.phrase.Admits (m.enclosed .sequence m.phrase) :=
        ⟨admits.operand, fun _ => still, fun _ => ⟨empty, still⟩⟩
      show feed (Matcher.enclose .sequence m m.print ++ [' ', '|', ' '] ++
        Matcher.printAll .sequence [' ', '|', ' '] (m' :: ms)) s = _
      rw [feed_append, feed_append, first.enclosed completeFirst here,
        feed_bar empty still (Matcher.isComplete_enclosed completeFirst _),
        ih reads complete (List.cons_ne_nil _ _) ⟨rfl, fun _ => rfl, fun _ => ⟨rfl, rfl⟩⟩]
      simp [read, Phrase.append, Matcher.phraseOfChoice, Phrase.orElse, still, empty]

/-- What a repetition or an option is applied to, up to it. -/
theorem Reads.applied (reads : Reads m) (complete : m.phrase.operand.isComplete = true)
    (legible : m.Legible) (applies : m.binding ≠ .unary ∨ m.outline = .operand) {s : Scan π}
    (fresh : s.phrase.operand = .none) :
    ∃ o : Operand π, feed (Matcher.enclose .unary m m.print) s = s.put o ∧
      o.value = m.phrase.value ∧ o.isComplete = true := by
  have only := Matcher.enclosed_eq_only legible applies
  have value := Matcher.value_enclosed .unary m
  have completed := Matcher.isComplete_enclosed complete .unary
  have admits : s.phrase.Admits (m.enclosed .unary m.phrase) := by
    rw [only]
    exact ⟨fresh, fun some => absurd rfl some, fun some => absurd rfl some⟩
  refine ⟨_, ?_, ?_, completed⟩
  · rw [reads.enclosed complete admits, only, read_only]
    rfl
  · rw [← value, only]
    rfl

/-! ### Each kind of matcher -/

theorem reads_only (c : Char) : Reads (.char (.only c) : Matcher π) := by
  intro s admits
  have printed : (Matcher.char (.only c) : Matcher π).print =
      '\'' :: printChars '\'' [c] ++ ['\''] := by
    show '\'' :: printChar '\'' c ++ ['\''] = _
    simp [printChars]
  have opened : s.step '\'' = s.put (.quoted '\'' [] false) :=
    (outside_of_none admits.operand).step_eq _
  rw [printed, feed_quoted (.inl rfl) opened, ← read_only]
  rfl

theorem reads_range (lo hi : Char) : Reads (.char (.range lo hi) : Matcher π) := by
  intro s admits
  have dash : printChar ']' '-' = ['-'] := by decide
  have printed : (Matcher.char (.range lo hi) : Matcher π).print =
      '[' :: printChars ']' [lo, '-', hi] ++ [']'] := by
    show '[' :: printChar ']' lo ++ '-' :: printChar ']' hi ++ [']'] = _
    simp [printChars, dash]
  have opened : s.step '[' = s.put (.quoted ']' [] false) :=
    (outside_of_none admits.operand).step_eq _
  rw [printed, feed_quoted (.inr rfl) opened, ← read_only]
  rfl

theorem reads_oneOf {cs : List Char}
    (legible : (Matcher.char (.oneOf cs) : Matcher π).isLegible = true) :
    Reads (.char (.oneOf cs) : Matcher π) := by
  intro s admits
  have meant : (Matcher.ofQuoted ']' cs : Matcher π) = .char (.oneOf cs) := by
    unfold Matcher.ofQuoted
    split
    · cases legible
    · rfl
  have opened : s.step '[' = s.put (.quoted ']' [] false) :=
    (outside_of_none admits.operand).step_eq _
  show feed ('[' :: printChars ']' cs ++ [']']) s = _
  rw [feed_quoted (.inr rfl) opened, meant, ← read_only]
  rfl

theorem reads_text (t : Text) : Reads (.text t : Matcher π) := by
  intro s admits
  have meant : (Matcher.ofQuoted '\'' t : Matcher π) = .text t := by
    unfold Matcher.ofQuoted
    split <;> rfl
  have opened : s.step '\'' = s.put (.quoted '\'' [] false) :=
    (outside_of_none admits.operand).step_eq _
  show feed ('\'' :: printChars '\'' t ++ ['\'']) s = _
  rw [feed_quoted (.inl rfl) opened, meant, ← read_only]
  rfl

theorem reads_endOfInput : Reads (.endOfInput : Matcher π) := by
  intro s admits
  have ended : s.step '$' = s.put (.whole .endOfInput) :=
    (outside_of_none admits.operand).step_eq _
  show feed ['$'] s = _
  rw [feed_cons, feed_nil, ended, ← read_only]
  rfl

theorem Reads.repetition (reads : Reads m) (complete : m.phrase.operand.isComplete = true)
    (legible : m.Legible) (applies : m.binding ≠ .unary ∨ m.outline = .operand) (min : Nat)
    (max : Option Nat) : Reads (.repetition m min max) := by
  intro s admits
  obtain ⟨o, fed, value, completed⟩ := reads.applied complete legible applies admits.operand
  have outside : (s.put o).Outside := outside_of_isComplete completed
  show feed (Matcher.enclose .unary m m.print ++ Matcher.printBounds min max) s = _
  rw [feed_append, fed, feed_printBounds outside, operand_put, value, put_put, ← read_only]
  rfl

theorem Reads.optional (reads : Reads m) (complete : m.phrase.operand.isComplete = true)
    (legible : m.Legible) (applies : m.binding ≠ .unary ∨ m.outline = .operand) :
    Reads (.optional m) := by
  intro s admits
  obtain ⟨o, fed, value, completed⟩ := reads.applied complete legible applies admits.operand
  have marked : (s.put o).step '?' = (s.put o).put (.whole (.optional o.value)) :=
    (outside_of_isComplete completed).step_eq _
  show feed (Matcher.enclose .unary m m.print ++ ['?']) s = _
  rw [feed_append, fed, feed_cons, feed_nil, marked, value, put_put, ← read_only]
  rfl

theorem Reads.absent (reads : Reads m) (complete : m.phrase.operand.isComplete = true)
    (legible : (Matcher.absent m).Legible) : Reads (.absent m) := by
  intro s admits
  have negated : s.step '!' = { s with phrase := s.phrase.negated } :=
    (outside_of_none admits.operand).step_eq _
  obtain ⟨choices, items⟩ :=
    Matcher.item_of_absent (Matcher.outline_phrase (legible.child List.mem_cons_self)) legible.node
  have inner : s.phrase.negated.Admits (m.enclosed .unary m.phrase) :=
    ⟨admits.operand, fun some => absurd items some, fun some => absurd choices some⟩
  show feed ('!' :: Matcher.enclose .unary m m.print) s = _
  rw [feed_cons, negated, reads.enclosed complete inner]
  simp [read, Phrase.append, Phrase.negated, Matcher.phrase, Nat.add_assoc, Nat.add_comm 1]

theorem reads_ref {name : String} (some : name ≠ "")
    (plain : name.toList.all (!Matcher.isSign ·) = true) : Reads (.ref name : Matcher π) := by
  intro s admits
  show feed name.toList s = _
  rw [feed_word admits.operand (toList_ne_nil some) plain, ← read_only]
  rfl

theorem reads_load {name : String} (some : name ≠ "")
    (plain : name.toList.all (!Matcher.isSign ·) = true) : Reads (.load name : Matcher π) := by
  intro s admits
  have printed : (Matcher.load name : Matcher π).print = "load".toList ++ ':' :: name.toList := rfl
  rw [printed, feed_labelled admits.operand (by decide) (by decide) (toList_ne_nil some) plain,
    ← read_only]
  rfl

/-- An operand and parentheses behind it are an operand. -/
theorem Reads.parentheses (reads : Reads m) (complete : m.phrase.operand.isComplete = true)
    (s : Scan π) {o : Operand π} (opens : o.isComplete = true) :
    feed ('(' :: m.print ++ [')']) (s.put o) =
      s.read (.only (.whole (o.opener.close m.phrase.value))) := by
  have outside : (s.put o).Outside := outside_of_isComplete opens
  rw [feed_parentheses outside reads.within complete, put_put, read_only]
  rfl

theorem Reads.rule (reads : Reads m) (complete : m.phrase.operand.isComplete = true)
    {name : String} (some : name ≠ "") (plain : name.toList.all (!Matcher.isSign ·) = true) :
    Reads (.rule name m) := by
  intro s admits
  have colon : (s.put (.word name.toList)).step ':' = s.put (.labelled name.toList []) := rfl
  have printed : (Matcher.rule name m).print =
      name.toList ++ ':' :: ('(' :: m.print ++ [')']) :=
    List.append_assoc name.toList (':' :: '(' :: m.print) [')']
  rw [printed, feed_append, feed_word admits.operand (toList_ne_nil some) plain, feed_cons, colon,
    reads.parentheses complete s rfl]
  simp [Operand.opener, Opener.close, Matcher.phrase]

theorem Reads.save (reads : Reads m) (complete : m.phrase.operand.isComplete = true)
    {name : String} (some : name ≠ "") (plain : name.toList.all (!Matcher.isSign ·) = true) :
    Reads (.save name m) := by
  intro s admits
  have printed : (Matcher.save name m).print =
      ("save".toList ++ ':' :: name.toList) ++ ('(' :: m.print ++ [')']) := by
    show "save:".toList ++ name.toList ++ '(' :: m.print ++ [')'] = _
    simp
  rw [printed, feed_append, feed_labelled admits.operand (by decide) (by decide)
    (toList_ne_nil some) plain, reads.parentheses complete s rfl]
  simp [Operand.opener, Opener.close, Matcher.phrase, some]

/-- A word with a matcher in parentheses. -/
theorem Reads.keyword (reads : Reads m) (complete : m.phrase.operand.isComplete = true)
    {w : Text} (some : w ≠ []) (plain : w.all (!Matcher.isSign ·) = true) {n : Matcher π}
    (printed : n.print = w ++ ('(' :: m.print ++ [')']))
    (meant : n.phrase = .only (.whole ((Operand.word w : Operand π).opener.close m.phrase.value))) :
    Reads n := by
  intro s admits
  rw [printed, feed_append, feed_word admits.operand some plain, reads.parentheses complete s rfl,
    meant]

end Scan

namespace Matcher

variable [CharTest π] {known : String → Bool}

/-- What a matcher of a grammar prints is read as its phrase. -/
theorem reads_print {m : Matcher π} (formed : m.Formed known) (plain : m.Plain)
    (legible : m.Legible) : Scan.Reads m := by
  induction m using induct_children with
  | step m ih =>
    have reads : ∀ c ∈ m.children, Scan.Reads c := fun c hc =>
      ih c hc (formed.child hc) (plain.child hc) (legible.child hc)
    have complete : ∀ c ∈ m.children, c.phrase.operand.isComplete = true := fun c hc =>
      isComplete_phrase (formed.child hc)
    cases m with
    | char cls =>
      cases cls with
      | only c => exact Scan.reads_only c
      | range lo hi => exact Scan.reads_range lo hi
      | oneOf cs => exact Scan.reads_oneOf legible.node
      | satisfying p => cases plain.node
    | text t => exact Scan.reads_text t
    | endOfInput => exact Scan.reads_endOfInput
    | ref name => exact Scan.reads_ref formed.node plain.node
    | load name => exact Scan.reads_load formed.node plain.node
    | sequence ms =>
      exact fun s => Scan.feed_printSequence reads complete
        (fun m hm => outline_phrase (legible.child hm)) formed.node
    | choice ms => exact fun s => Scan.feed_printChoice reads complete formed.node
    | repetition m min max =>
      have applies : m.binding ≠ .unary ∨ m.outline = .operand := by
        simpa [isLegible] using legible.node
      exact (reads m List.mem_cons_self).repetition (complete m List.mem_cons_self)
        (legible.child List.mem_cons_self) applies min max
    | optional m =>
      have applies : m.binding ≠ .unary ∨ m.outline = .operand := by
        simpa [isLegible] using legible.node
      exact (reads m List.mem_cons_self).optional (complete m List.mem_cons_self)
        (legible.child List.mem_cons_self) applies
    | absent m => exact (reads m List.mem_cons_self).absent (complete m List.mem_cons_self) legible
    | rule name m =>
      exact (reads m List.mem_cons_self).rule (complete m List.mem_cons_self) formed.node plain.node
    | save name m =>
      exact (reads m List.mem_cons_self).save (complete m List.mem_cons_self) formed.node plain.node
    | ignore m =>
      exact (reads m List.mem_cons_self).keyword (complete m List.mem_cons_self)
        (w := "ignore".toList) (by decide) (by decide) rfl rfl
    | join m =>
      exact (reads m List.mem_cons_self).keyword (complete m List.mem_cons_self)
        (w := "join".toList) (by decide) (by decide) rfl rfl
    | mark m =>
      exact (reads m List.mem_cons_self).keyword (complete m List.mem_cons_self)
        (w := "mark".toList) (by decide) (by decide) rfl rfl

/-- The matcher that a text is read as. -/
def ofPrint (t : Text) : Matcher π := (Scan.feed t ⟨.start, []⟩).phrase.value

theorem ofPrint_print {m : Matcher π} (formed : m.Formed known) (plain : m.Plain)
    (legible : m.Legible) : ofPrint m.print = m.phrase.value := by
  rw [ofPrint, (reads_print formed plain legible).within]

end Matcher

end Peg
