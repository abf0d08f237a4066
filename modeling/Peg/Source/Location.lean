import Peg.Text.Basic

/-!
# Locations

A location names a point of a text by line and column, and by the byte offset
at which it lies. Lines and columns count from one, columns count characters.
Locations are compared by line and column alone.
-/

namespace Peg

/-- A point of a text. -/
structure Location where
  line : Nat
  column : Nat
  offset : Nat
deriving DecidableEq, Repr

namespace Location

/-- Where every text begins. -/
def start : Location := ⟨1, 1, 0⟩

instance : Inhabited Location := ⟨start⟩

/-- The location behind one more character. -/
def advance (l : Location) (c : Char) : Location :=
  if c = '\n' then ⟨l.line + 1, 1, l.offset + c.utf8Size⟩
  else ⟨l.line, l.column + 1, l.offset + c.utf8Size⟩

/-- The location behind all of `t`. -/
def advanceOver (l : Location) (t : Text) : Location :=
  t.foldl advance l

/-- Earlier lines come first, and within a line earlier columns. -/
def order (a b : Location) : Ordering :=
  (compare a.line b.line).then (compare a.column b.column)

/-- The two locations have one line and one column, whatever their offsets. -/
def samePlace (a b : Location) : Bool :=
  a.line == b.line && a.column == b.column

def render (l : Location) : String :=
  s!"{l.line}:{l.column}"

@[simp] theorem advance_offset (l : Location) (c : Char) :
    (l.advance c).offset = l.offset + c.utf8Size := by
  unfold advance
  split <;> rfl

@[simp] theorem advanceOver_nil (l : Location) : l.advanceOver [] = l := rfl

@[simp] theorem advanceOver_cons (l : Location) (c : Char) (t : Text) :
    l.advanceOver (c :: t) = (l.advance c).advanceOver t := rfl

@[simp] theorem advanceOver_append (l : Location) (s t : Text) :
    l.advanceOver (s ++ t) = (l.advanceOver s).advanceOver t :=
  List.foldl_append

@[simp] theorem advanceOver_offset (l : Location) (t : Text) :
    (l.advanceOver t).offset = l.offset + t.byteSize := by
  induction t generalizing l with
  | nil => rfl
  | cons c t ih => simp [ih, Nat.add_assoc]

end Location

/-- The stretch of a text between two locations. -/
structure Span where
  first : Location
  last : Location
deriving DecidableEq, Repr

namespace Span

/-- The stretch of no width at `l`. -/
def point (l : Location) : Span := ⟨l, l⟩

/-- The stretch of no width at the start of a text. -/
def origin : Span := point .start

def isEmpty (s : Span) : Bool :=
  s.first.offset == s.last.offset

/-- The width in bytes, zero when the ends are out of order. -/
def byteSize (s : Span) : Nat :=
  s.last.offset - s.first.offset

/-- Both ends of the two stretches have one line and one column. -/
def samePlace (s t : Span) : Bool :=
  s.first.samePlace t.first && s.last.samePlace t.last

def render (s : Span) : String :=
  s!"{s.first.render}-{s.last.render}"

end Span

end Peg
