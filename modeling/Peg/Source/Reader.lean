import Peg.Source.Location

/-!
# Readers

A reader is a cursor over a text. Reading past the end yields nothing. The only
faults are a return to a save point that was never made and a jump to a byte
offset that is no character boundary; a fault leaves the reader as it was.

The text ahead of the cursor (`Reader.remaining`) is what every read looks at,
and `Reader.advance` is the one way to move over it.
-/

namespace Peg

/-- Misuse of a reader. -/
inductive ReaderFault where
  | noSavePoint
  | notABoundary (offset : Nat) (size : Nat)
deriving DecidableEq, Repr

def ReaderFault.render : ReaderFault → String
  | .noSavePoint => "load or discard called with no save point on the stack"
  | .notABoundary offset size =>
    s!"location at byte {offset} is not a character boundary of a {size}-byte text"

/-- A cursor over a text, with the save points made and not yet taken back,
latest first. -/
structure Reader where
  text : Text
  location : Location
  saves : List Location
deriving DecidableEq, Repr

namespace Reader

def ofText (t : Text) : Reader := ⟨t, .start, []⟩

/-! ## Where the reader stands -/

/-- The byte offset of the cursor. -/
def position (r : Reader) : Nat := r.location.offset

/-- The size of the whole text in bytes. -/
def size (r : Reader) : Nat := r.text.byteSize

/-- The text ahead of the cursor. -/
def remaining (r : Reader) : Text := (r.text.dropBytes? r.position).getD []

def atEnd (r : Reader) : Bool := r.size ≤ r.position

/-- The text between two byte offsets, if both are character boundaries and in
order. -/
def slice (r : Reader) (first last : Nat) : Option Text :=
  if first ≤ last then
    (r.text.dropBytes? first).bind (·.takeBytes? (last - first))
  else
    none

/-! ## Looking ahead -/

/-- The character with `n` characters between it and the cursor. -/
def peek (r : Reader) (n : Nat) : Option Char := r.remaining[n]?

/-- The next `n` characters, if there are as many: the bytes in front of the character
behind them, or all that is ahead if they are the last. -/
def peekText (r : Reader) (n : Nat) : Option Text :=
  match r.remaining.charStart? n with
  | some bytes => r.remaining.takeBytes? bytes
  | none => if r.remaining.length = n then some r.remaining else none

def isNext (r : Reader) (t : Text) : Bool := t.isPrefixOf r.remaining

def isNextChar (r : Reader) (c : Char) : Bool := r.peek 0 == some c

/-- How many characters lie between the cursor and the next `c`. -/
def findOffset (r : Reader) (c : Char) : Option Nat := r.remaining.findIdx? (· == c)

/-! ## Moving -/

/-- Moves over `n` characters, or to the end of the text. -/
def advance (r : Reader) (n : Nat) : Reader :=
  { r with location := r.location.advanceOver (r.remaining.take n) }

/-- Moves over `n` bytes, or to the end of the text. The reader stays where it is
if it would come to stand inside a character. -/
def advanceBytes (r : Reader) (n : Nat) : Reader :=
  match r.slice r.position (min (r.position + n) r.size) with
  | some t => { r with location := r.location.advanceOver t }
  | none => r

/-- The character `n` characters ahead, with the cursor moved behind it. -/
def read (r : Reader) (n : Nat) : Option Char × Reader :=
  match r.peek n with
  | some c => (some c, r.advance (n + 1))
  | none => (none, r)

/-- The next `n` characters, with the cursor moved behind them. -/
def readText (r : Reader) (n : Nat) : Option Text × Reader :=
  match r.peekText n with
  | some t => (some t, r.advanceBytes t.byteSize)
  | none => (none, r)

/-! ## Backtracking -/

/-- Makes a save point at the cursor. -/
def save (r : Reader) : Reader :=
  { r with saves := r.location :: r.saves }

/-- Takes back the latest save point and returns to it. -/
def load (r : Reader) : Except ReaderFault Location × Reader :=
  match r.saves with
  | [] => (.error .noSavePoint, r)
  | saved :: saves => (.ok saved, { r with location := saved, saves := saves })

/-- Takes back the latest save point and stays. -/
def discard (r : Reader) : Except ReaderFault Location × Reader :=
  match r.saves with
  | [] => (.error .noSavePoint, r)
  | saved :: saves => (.ok saved, { r with saves := saves })

/-- Jumps to a location. Its offset has to be a character boundary; its line and
column are taken as they are. -/
def rewind (r : Reader) (l : Location) : Except ReaderFault Unit × Reader :=
  if r.text.isBoundary l.offset then
    (.ok (), { r with location := l })
  else
    (.error (.notABoundary l.offset r.size), r)

/-! ## Where the cursor may stand -/

/-- The cursor stands between two characters of the text. -/
def Valid (r : Reader) : Prop := r.text.isBoundary r.position = true

/-- The reader moved over `t`. -/
def movedOver (r : Reader) (t : Text) : Reader :=
  { r with location := r.location.advanceOver t }

theorem valid_ofText (t : Text) : (ofText t).Valid := by
  cases t <;> rfl

/-- What is ahead of a valid cursor, with what lies behind it, is the text. -/
theorem Valid.split {r : Reader} (valid : r.Valid) :
    ∃ front, r.text = front ++ r.remaining ∧ front.byteSize = r.position := by
  obtain ⟨rest, cut⟩ := Option.isSome_iff_exists.mp valid
  have ahead : r.remaining = rest := by
    rw [remaining, cut, Option.getD_some]
  rw [ahead]
  exact Text.dropBytes?_eq_some_iff.mp cut

/-- A move over text that is ahead leaves the rest of it ahead. -/
theorem dropBytes?_movedOver {r : Reader} {t rest : Text} (valid : r.Valid)
    (ahead : r.remaining = t ++ rest) :
    (r.movedOver t).text.dropBytes? (r.movedOver t).position = some rest := by
  obtain ⟨front, whole, size⟩ := valid.split
  refine Text.dropBytes?_eq_some_iff.mpr ⟨front ++ t, ?_, ?_⟩
  · rw [movedOver, whole, ahead, List.append_assoc]
  · rw [movedOver, position, Location.advanceOver_offset, Text.byteSize_append, size, position]

theorem remaining_movedOver {r : Reader} {t rest : Text} (valid : r.Valid)
    (ahead : r.remaining = t ++ rest) : (r.movedOver t).remaining = rest := by
  rw [remaining, dropBytes?_movedOver valid ahead, Option.getD_some]

theorem valid_movedOver {r : Reader} {t rest : Text} (valid : r.Valid)
    (ahead : r.remaining = t ++ rest) : (r.movedOver t).Valid := by
  rw [Valid, Text.isBoundary, dropBytes?_movedOver valid ahead, Option.isSome_some]

/-- Moving over characters is moving over the text that they are. -/
theorem advance_eq_movedOver (r : Reader) (n : Nat) :
    r.advance n = r.movedOver (r.remaining.take n) := rfl

/-- Moving over a text that is ahead is moving over as many characters. -/
theorem movedOver_eq_advance {r : Reader} {front rest : Text}
    (ahead : r.remaining = front ++ rest) : r.movedOver front = r.advance front.length := by
  rw [advance_eq_movedOver, ahead, List.take_left]

theorem remaining_advance {r : Reader} (valid : r.Valid) (n : Nat) :
    (r.advance n).remaining = r.remaining.drop n :=
  remaining_movedOver valid (List.take_append_drop n r.remaining).symm

/-- The bytes of a text that is ahead are that text. -/
theorem slice_position {r : Reader} {t rest : Text} (valid : r.Valid)
    (ahead : r.remaining = t ++ rest) :
    r.slice r.position (r.position + t.byteSize) = some t := by
  obtain ⟨front, whole, size⟩ := valid.split
  rw [slice, if_pos (Nat.le_add_right _ _), whole, ← size, Text.dropBytes?_byteSize_append,
    Nat.add_sub_cancel_left, ahead]
  exact Text.takeBytes?_byteSize_append t rest

/-- Moving over the bytes of a text that is ahead is moving over that text. -/
theorem advanceBytes_eq_movedOver {r : Reader} {t rest : Text} (valid : r.Valid)
    (ahead : r.remaining = t ++ rest) : r.advanceBytes t.byteSize = r.movedOver t := by
  obtain ⟨front, whole, size⟩ := valid.split
  have within : min (r.position + t.byteSize) r.size = r.position + t.byteSize := by
    rw [Reader.size, whole, ahead, Text.byteSize_append, Text.byteSize_append, ← size]
    omega
  rw [advanceBytes, within, slice_position valid ahead]
  rfl

/-- The bytes of a text that is ahead are as far to go as its characters. -/
theorem advanceBytes_eq_advance {r : Reader} {t rest : Text} (valid : r.Valid)
    (ahead : r.remaining = t ++ rest) : r.advanceBytes t.byteSize = r.advance t.length :=
  (advanceBytes_eq_movedOver valid ahead).trans (movedOver_eq_advance ahead)

theorem peekText_eq (r : Reader) (n : Nat) :
    r.peekText n = if n ≤ r.remaining.length then some (r.remaining.take n) else none := by
  rw [peekText, Text.charStart?_eq]
  rcases Nat.lt_trichotomy n r.remaining.length with fewer | all | more
  · rw [if_pos fewer, if_pos (Nat.le_of_lt fewer)]
    exact Text.takeBytes?_eq_some_iff.mpr
      ⟨r.remaining.drop n, (List.take_append_drop n r.remaining).symm, rfl⟩
  · have last : r.remaining.length ≤ n := Nat.le_of_eq all.symm
    rw [if_neg (Nat.not_lt.mpr last), if_pos (Nat.le_of_eq all), List.take_of_length_le last]
    exact if_pos all.symm
  · rw [if_neg (Nat.not_lt.mpr (Nat.le_of_lt more)), if_neg (Nat.not_le.mpr more)]
    exact if_neg (Nat.ne_of_lt more)

theorem peekText_eq_some_iff {r : Reader} {n : Nat} {t : Text} :
    r.peekText n = some t ↔ n ≤ r.remaining.length ∧ t = r.remaining.take n := by
  rw [peekText_eq, Option.ite_none_right_eq_some, Option.some_inj, eq_comm (b := t)]

/-- Reading a text that is there moves over its characters. -/
theorem readText_eq {r : Reader} (valid : r.Valid) (n : Nat) :
    r.readText n = (r.peekText n, if (r.peekText n).isSome then r.advance n else r) := by
  unfold readText
  split
  · next t found =>
    obtain ⟨enough, rfl⟩ := peekText_eq_some_iff.mp found
    have moved := advanceBytes_eq_advance valid (List.take_append_drop n r.remaining).symm
    rw [List.length_take_of_le enough] at moved
    rw [moved, found]
    rfl
  · next none => rw [none]; rfl

/-- A reader can go back to where another cursor over its text stands. -/
theorem rewind_location {r s : Reader} (valid : s.Valid) (same : r.text = s.text) :
    r.rewind s.location = (.ok (), { r with location := s.location }) := by
  have boundary : r.text.isBoundary s.location.offset = true := same ▸ valid
  rw [rewind, if_pos boundary]

end Reader

end Peg
