import Peg.Text.Basic
import Peg.Text.Unprintable

/-!
# Quoted text

Characters and texts between quotes, on one line and with every character
visible: the common control characters, the backslash and the quote itself are
written with a backslash, and a character that shows nothing of its own is
written as its code point in hexadecimal.
-/

namespace Peg.Text

/-- One character between quotes `quote`. -/
def quoteInner (quote c : Char) : Text :=
  if c = '\x00' then ['\\', '0']
  else if c = '\t' then ['\\', 't']
  else if c = '\r' then ['\\', 'r']
  else if c = '\n' then ['\\', 'n']
  else if c = '\\' then ['\\', '\\']
  else if c = quote then ['\\', c]
  else if isUnprintable c then ['\\', 'u', '{'] ++ Nat.toDigits 16 c.toNat ++ ['}']
  else [c]

/-- A character in single quotes. -/
def quoteChar (c : Char) : String :=
  String.ofList ('\'' :: quoteInner '\'' c ++ ['\''])

/-- A text in double quotes. -/
def quote (t : Text) : String :=
  String.ofList ('"' :: t.flatMap (quoteInner '"') ++ ['"'])

end Peg.Text
