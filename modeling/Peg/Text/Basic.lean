/-!
# Text

Source text is a list of characters. Positions in it count the bytes of its
UTF-8 encoding, so a position may fall inside a character. The operations here
cut a text at a byte position and refuse such positions.

* `Text.dropBytes?_eq_some_iff` and `Text.takeBytes?_eq_some_iff`: a cut
  succeeds exactly at the ends of the initial segments of the text.
* `Text.charStart?_eq`: characters begin at the ends of the initial segments.
-/

namespace Peg

/-- A text, character by character. -/
abbrev Text := List Char

namespace Text

/-- The length of the UTF-8 encoding in bytes. -/
def byteSize : Text → Nat
  | [] => 0
  | c :: cs => c.utf8Size + byteSize cs

/-- What follows the first `n` bytes. -/
def dropBytes? : Text → Nat → Option Text
  | cs, 0 => some cs
  | [], _ + 1 => none
  | c :: cs, n + 1 =>
    if c.utf8Size ≤ n + 1 then dropBytes? cs (n + 1 - c.utf8Size) else none

/-- The first `n` bytes. -/
def takeBytes? : Text → Nat → Option Text
  | _, 0 => some []
  | [], _ + 1 => none
  | c :: cs, n + 1 =>
    if c.utf8Size ≤ n + 1 then (takeBytes? cs (n + 1 - c.utf8Size)).map (c :: ·) else none

/-- The byte position at which the character with `n` characters before it begins. -/
def charStart? : Text → Nat → Option Nat
  | [], _ => none
  | _ :: _, 0 => some 0
  | c :: cs, n + 1 => (charStart? cs n).map (c.utf8Size + ·)

/-- A byte position that is the end of an initial segment. -/
def isBoundary (t : Text) (n : Nat) : Bool :=
  (t.dropBytes? n).isSome

@[simp] theorem byteSize_nil : byteSize [] = 0 := rfl

@[simp] theorem byteSize_cons (c : Char) (cs : Text) :
    byteSize (c :: cs) = c.utf8Size + byteSize cs := rfl

@[simp] theorem byteSize_append (s t : Text) :
    byteSize (s ++ t) = byteSize s + byteSize t := by
  induction s with
  | nil => simp
  | cons c s ih => simp [ih, Nat.add_assoc]

@[simp] theorem dropBytes?_zero (t : Text) : t.dropBytes? 0 = some t := by
  cases t <;> rfl

@[simp] theorem takeBytes?_zero (t : Text) : t.takeBytes? 0 = some [] := by
  cases t <;> rfl

theorem dropBytes?_byteSize_append (s t : Text) :
    dropBytes? (s ++ t) (byteSize s) = some t := by
  induction s with
  | nil => simp
  | cons c s ih =>
    have positive := c.utf8Size_pos
    obtain ⟨n, size⟩ : ∃ n, c.utf8Size + byteSize s = n + 1 :=
      ⟨c.utf8Size + byteSize s - 1, by omega⟩
    rw [byteSize_cons, size, List.cons_append, dropBytes?, if_pos (by omega), ← size,
      Nat.add_sub_cancel_left, ih]

/-- A cut succeeds exactly behind an initial segment of that many bytes. -/
theorem dropBytes?_eq_some_iff {t rest : Text} {n : Nat} :
    t.dropBytes? n = some rest ↔ ∃ front, t = front ++ rest ∧ byteSize front = n := by
  constructor
  · intro cut
    fun_induction dropBytes? t n with
    | case1 cs => exact ⟨[], by simpa using cut, rfl⟩
    | case2 => simp at cut
    | case3 c cs n fits ih =>
      obtain ⟨front, rfl, size⟩ := ih cut
      exact ⟨c :: front, rfl, by simp only [byteSize_cons]; omega⟩
    | case4 => simp at cut
  · rintro ⟨front, rfl, rfl⟩
    exact dropBytes?_byteSize_append front rest

theorem takeBytes?_byteSize_append (s t : Text) :
    takeBytes? (s ++ t) (byteSize s) = some s := by
  induction s with
  | nil => simp
  | cons c s ih =>
    have positive := c.utf8Size_pos
    obtain ⟨n, size⟩ : ∃ n, c.utf8Size + byteSize s = n + 1 :=
      ⟨c.utf8Size + byteSize s - 1, by omega⟩
    rw [byteSize_cons, size, List.cons_append, takeBytes?, if_pos (by omega), ← size,
      Nat.add_sub_cancel_left, ih, Option.map_some]

/-- The first `n` bytes are an initial segment of that size. -/
theorem takeBytes?_eq_some_iff {t front : Text} {n : Nat} :
    t.takeBytes? n = some front ↔ ∃ rest, t = front ++ rest ∧ byteSize front = n := by
  constructor
  · intro cut
    fun_induction takeBytes? t n generalizing front with
    | case1 cs =>
      obtain rfl : [] = front := by simpa using cut
      exact ⟨cs, rfl, rfl⟩
    | case2 => simp at cut
    | case3 c cs n fits ih =>
      obtain ⟨tail, cutTail, rfl⟩ := Option.map_eq_some_iff.mp cut
      obtain ⟨rest, rfl, size⟩ := ih cutTail
      exact ⟨rest, rfl, by simp only [byteSize_cons]; omega⟩
    | case4 => simp at cut
  · rintro ⟨rest, rfl, rfl⟩
    exact takeBytes?_byteSize_append front rest

/-- A character begins behind the bytes of those before it. -/
theorem charStart?_eq (t : Text) (n : Nat) :
    t.charStart? n = if n < t.length then some (byteSize (t.take n)) else none := by
  induction t generalizing n with
  | nil => rfl
  | cons c t ih =>
    cases n with
    | zero => rfl
    | succ n =>
      rw [charStart?, ih, List.length_cons]
      by_cases inside : n < t.length
      · rw [if_pos inside, if_pos (Nat.succ_lt_succ inside)]
        rfl
      · rw [if_neg inside, if_neg (mt Nat.lt_of_succ_lt_succ inside)]
        rfl

end Text

end Peg
