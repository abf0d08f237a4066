import Peg.Json.Value

/-!
# Reading JSON

A reader for JSON texts, strict in all things: blanks are the four that the format
knows, numbers have no superfluous zeros, strings no bare control characters, and
nothing but blanks may follow the value.
-/

namespace Peg.Json

def isBlank (c : Char) : Bool := c == ' ' || c == '\t' || c == '\n' || c == '\r'

def skipBlanks (cs : Text) : Text := cs.dropWhile isBlank

/-! ## Strings -/

/-- A piece of a string: a character, or a 16-bit unit given by its number. -/
inductive Piece where
  | plain (c : Char)
  | unit (n : Nat)
deriving DecidableEq, Repr

def hexDigit? (c : Char) : Option Nat :=
  if c.isDigit then some (c.toNat - '0'.toNat)
  else if 'a' ≤ c && c ≤ 'f' then some (c.toNat - 'a'.toNat + 10)
  else if 'A' ≤ c && c ≤ 'F' then some (c.toNat - 'A'.toNat + 10)
  else none

def hexUnit? (a b c d : Char) : Option Nat :=
  match hexDigit? a, hexDigit? b, hexDigit? c, hexDigit? d with
  | some a, some b, some c, some d => some (((a * 16 + b) * 16 + c) * 16 + d)
  | _, _, _, _ => none

/-- The character that a backslash makes of the one behind it. -/
def unescape? : Char → Option Char
  | '"' => some '"'
  | '\\' => some '\\'
  | '/' => some '/'
  | 'b' => some '\x08'
  | 'f' => some '\x0c'
  | 'n' => some '\n'
  | 'r' => some '\r'
  | 't' => some '\t'
  | _ => none

/-- The pieces of a string up to its closing quote, and what follows that. -/
def readPieces? : Text → Option (List Piece × Text)
  | [] => none
  | '"' :: rest => some ([], rest)
  | '\\' :: 'u' :: a :: b :: c :: d :: rest =>
    match hexUnit? a b c d, readPieces? rest with
    | some n, some (pieces, rest) => some (.unit n :: pieces, rest)
    | _, _ => none
  | '\\' :: c :: rest =>
    match unescape? c, readPieces? rest with
    | some c, some (pieces, rest) => some (.plain c :: pieces, rest)
    | _, _ => none
  | c :: rest =>
    if c = '\\' || c.toNat < 32 then none
    else (readPieces? rest).map fun (pieces, rest) => (.plain c :: pieces, rest)

def isHighUnit (n : Nat) : Bool := 0xd800 ≤ n && n < 0xdc00

def isLowUnit (n : Nat) : Bool := 0xdc00 ≤ n && n < 0xe000

/-- The characters of the pieces. Two units that form a surrogate pair are one
character, and a unit of such a pair means nothing alone. -/
def joinPieces? : List Piece → Option Text
  | [] => some []
  | .plain c :: rest => (joinPieces? rest).map (c :: ·)
  | .unit high :: .unit low :: rest =>
    if isHighUnit high && isLowUnit low then
      let c := Char.ofNat (0x10000 + (high - 0xd800) * 0x400 + (low - 0xdc00))
      (joinPieces? rest).map (c :: ·)
    else if isHighUnit high || isLowUnit high then none
    else (joinPieces? (.unit low :: rest)).map (Char.ofNat high :: ·)
  | .unit n :: rest =>
    if isHighUnit n || isLowUnit n then none
    else (joinPieces? rest).map (Char.ofNat n :: ·)

/-- A string behind its opening quote. -/
def readString? (cs : Text) : Option (Option String × Text) :=
  (readPieces? cs).map fun (pieces, rest) => ((joinPieces? pieces).map String.ofList, rest)

/-! ## Numbers -/

/-- At least one digit. -/
def readDigits? (cs : Text) : Option (Text × Text) :=
  let digits := cs.takeWhile Char.isDigit
  if digits.isEmpty then none else some (digits, cs.dropWhile Char.isDigit)

/-- A whole number without superfluous zeros. -/
def readWhole? (cs : Text) : Option (Text × Text) :=
  match readDigits? cs with
  | some ('0' :: _ :: _, _) => none
  | other => other

/-- The digits behind a point, if there is one. -/
def readFraction? : Text → Option (Text × Text)
  | '.' :: rest => (readDigits? rest).map fun (digits, rest) => ('.' :: digits, rest)
  | rest => some ([], rest)

/-- The power of ten, if there is one. -/
def readExponent? : Text → Option (Text × Text)
  | [] => some ([], [])
  | e :: rest =>
    if e = 'e' || e = 'E' then
      let (sign, rest) : Text × Text :=
        match rest with
        | '+' :: rest => (['+'], rest)
        | '-' :: rest => (['-'], rest)
        | rest => ([], rest)
      (readDigits? rest).map fun (digits, rest) => (e :: sign ++ digits, rest)
    else some ([], e :: rest)

def readNumber? (cs : Text) : Option (Text × Text) :=
  let (sign, cs) : Text × Text :=
    match cs with
    | '-' :: rest => (['-'], rest)
    | cs => ([], cs)
  match readWhole? cs with
  | none => none
  | some (whole, cs) =>
    match readFraction? cs with
    | none => none
    | some (fraction, cs) =>
      (readExponent? cs).map fun (power, rest) => (sign ++ whole ++ fraction ++ power, rest)

/-! ## Values -/

mutual

/-- A value and what follows it. The first argument bounds the number of calls. -/
def readValue? : Nat → Text → Option (Value × Text)
  | 0, _ => none
  | bound + 1, cs =>
    match skipBlanks cs with
    | 'n' :: 'u' :: 'l' :: 'l' :: rest => some (.null, rest)
    | 't' :: 'r' :: 'u' :: 'e' :: rest => some (.bool true, rest)
    | 'f' :: 'a' :: 'l' :: 's' :: 'e' :: rest => some (.bool false, rest)
    | '"' :: rest => (readString? rest).map fun (contents, rest) => (.string contents, rest)
    | '[' :: rest =>
      match skipBlanks rest with
      | ']' :: rest => some (.array [], rest)
      | rest => (readItems? bound rest).map fun (items, rest) => (.array items, rest)
    | '{' :: rest =>
      match skipBlanks rest with
      | '}' :: rest => some (.object [], rest)
      | rest => (readMembers? bound rest).map fun (members, rest) => (.object members, rest)
    | cs => (readNumber? cs).map fun (token, rest) => (.number token, rest)

/-- The items of an array up to its end. -/
def readItems? : Nat → Text → Option (List Value × Text)
  | 0, _ => none
  | bound + 1, cs =>
    match readValue? bound cs with
    | none => none
    | some (item, rest) =>
      match skipBlanks rest with
      | ']' :: rest => some ([item], rest)
      | ',' :: rest => (readItems? bound rest).map fun (items, rest) => (item :: items, rest)
      | _ => none

/-- The members of an object up to its end. -/
def readMembers? : Nat → Text → Option (List (Option String × Value) × Text)
  | 0, _ => none
  | bound + 1, cs =>
    match skipBlanks cs with
    | '"' :: rest =>
      match readString? rest with
      | none => none
      | some (name, rest) =>
        match skipBlanks rest with
        | ':' :: rest =>
          match readValue? bound rest with
          | none => none
          | some (value, rest) =>
            match skipBlanks rest with
            | '}' :: rest => some ([(name, value)], rest)
            | ',' :: rest =>
              (readMembers? bound rest).map fun (members, rest) =>
                ((name, value) :: members, rest)
            | _ => none
        | _ => none
    | _ => none

end

/-- The value of a text. No call is made without a character for it or for the
call before it, so twice the length of the text bounds their number. -/
def Value.read? (text : Text) : Option Value :=
  match readValue? (2 * text.length + 2) text with
  | some (value, rest) => if (skipBlanks rest).isEmpty then some value else none
  | none => none

end Peg.Json
