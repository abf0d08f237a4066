import Peg.Matcher.Printer

/-!
# JSON values

A value as it stands in a JSON text. Numbers keep the characters they are written
with, and a string whose escapes name half of a surrogate pair has no contents;
both matter only to someone who wants the number or the string.
-/

namespace Peg.Json

inductive Value where
  | null
  | bool (b : Bool)
  | number (token : Text)
  | string (contents : Option String)
  | array (items : List Value)
  | object (members : List (Option String × Value))
deriving Repr

namespace Value

instance : Inhabited Value := ⟨null⟩

/-- The largest count that can be told: the largest number of 64 bits. -/
def maxCount : Nat := 0xffffffffffffffff

/-- A number written with digits alone and not too large. -/
def count? : Value → Option Nat
  | number token =>
    if token.all Char.isDigit then
      let n := token.foldl (fun n c => 10 * n + (c.toNat - '0'.toNat)) 0
      if n ≤ maxCount then some n else none
    else none
  | _ => none

def bool? : Value → Option Bool
  | bool b => some b
  | _ => none

def string? : Value → Option String
  | string contents => contents
  | _ => none

def ofCount (n : Nat) : Value := number (printNat n)

def ofString (s : String) : Value := string (some s)

/-- An object whose members all have a name that can be read. -/
def ofMembers (members : List (String × Value)) : Value :=
  object (members.map fun (name, value) => (some name, value))

/-- The values for the given names among the members of an object. A member of
another name is passed over, but each name has to be readable, and none of those
given may occur twice. -/
def members? (names : List String) : List (Option String × Value) → Option (List (Option Value))
  | [] => some (names.map fun _ => none)
  | (none, _) :: _ => none
  | (some name, value) :: rest =>
    match members? names rest with
    | none => none
    | some found =>
      if name ∈ names then
        if (names.zip found).any fun (other, value) => other == name && value.isSome then none
        else some (names.zipWith (fun other old => if other = name then some value else old) found)
      else some found

/-- A record with fields of the given names. It is written as an object, or as the
array of its fields in order, of which some may be missing at the end. -/
def fields? (names : List String) : Value → Option (List (Option Value))
  | object members => members? names members
  | array items =>
    if items.length ≤ names.length then
      some (items.map some ++ (names.drop items.length).map fun _ => none)
    else none
  | _ => none

end Value

end Peg.Json
