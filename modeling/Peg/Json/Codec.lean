import Peg.Json.Reader
import Peg.Match.Error
import Peg.Settings

/-!
# Values of the library in JSON

Locations, spans, settings and kinds of failure, read from JSON values and written
as such. Settings may leave fields out. A kind of failure is written under its
name: alone if it has no fields, and else as an object with one member.
-/

namespace Peg

open Json (Value)

/-! ## Locations and spans -/

def Location.ofJson? (v : Value) : Option Location :=
  match v.fields? ["line", "column", "offset"] with
  | some [some line, some column, some offset] =>
    match line.count?, column.count?, offset.count? with
    | some line, some column, some offset => some ⟨line, column, offset⟩
    | _, _, _ => none
  | _ => none

def Location.toJson (l : Location) : Value :=
  .ofMembers
    [("line", .ofCount l.line), ("column", .ofCount l.column), ("offset", .ofCount l.offset)]

def Span.ofJson? (v : Value) : Option Span :=
  match v.fields? ["start", "end"] with
  | some [some first, some last] =>
    match Location.ofJson? first, Location.ofJson? last with
    | some first, some last => some ⟨first, last⟩
    | _, _ => none
  | _ => none

def Span.toJson (s : Span) : Value :=
  .ofMembers [("start", s.first.toJson), ("end", s.last.toJson)]

/-! ## Settings -/

/-- A field that may be missing, in which case it has a default. -/
def Json.Value.orDefault? {α : Type} (read? : Value → Option α) (default : α) :
    Option Value → Option α
  | none => some default
  | some v => read? v

def Settings.ofJson? (v : Value) : Option Settings :=
  match v.fields? ["max_depth", "optimize", "trace_rules"] with
  | some [maxDepth, optimize, traceRules] =>
    let standard : Settings := {}
    match Value.orDefault? Value.count? standard.maxDepth maxDepth,
        Value.orDefault? Value.bool? standard.optimize optimize,
        Value.orDefault? Value.bool? standard.traceRules traceRules with
    | some maxDepth, some optimize, some traceRules => some ⟨maxDepth, optimize, traceRules⟩
    | _, _, _ => none
  | _ => none

def Settings.toJson (s : Settings) : Value :=
  .ofMembers
    [("max_depth", .ofCount s.maxDepth), ("optimize", .bool s.optimize),
      ("trace_rules", .bool s.traceRules)]

/-- Why a text gives no settings. -/
inductive SettingsTextError where
  | notSettings
  | invalid (error : SettingsError)
deriving DecidableEq, Repr

/-- The settings in a JSON text. -/
def Settings.read (text : Text) : Except SettingsTextError Settings :=
  match (Value.read? text).bind Settings.ofJson? with
  | none => .error .notSettings
  | some s => s.validate.mapError .invalid

/-! ## Kinds of failure -/

namespace FailureKind

/-- The fields of a kind of failure, by its name and in order. -/
def fieldNames? : String → Option (List String)
  | "SyntaxMismatch" => some ["expected"]
  | "RepetitionUnderflow" => some ["min", "matched"]
  | "UnknownBackreference" => some ["name"]
  | "BackreferenceMismatch" => some ["name", "expected"]
  | "RecursionLimit" => some ["depth"]
  | "Internal" => some ["reason"]
  | _ => none

/-- The kinds of failure without fields. -/
def plain? : String → Option FailureKind
  | "AlternationExhausted" => some .exhausted
  | "UnexpectedMatch" => some .unexpected
  | _ => none

/-- A kind of failure from its name and the values of its fields. -/
def ofFields? : String → List (Option Value) → Option FailureKind
  | "SyntaxMismatch", [some expected] => expected.string?.map .mismatch
  | "RepetitionUnderflow", [some min, some matched] =>
    match min.count?, matched.count? with
    | some min, some matched => some (.underflow min matched)
    | _, _ => none
  | "UnknownBackreference", [some name] => name.string?.map .unknownSave
  | "BackreferenceMismatch", [some name, some expected] =>
    match name.string?, expected.string? with
    | some name, some expected => some (.saveMismatch name expected.toList)
    | _, _ => none
  | "RecursionLimit", [some depth] => depth.count?.map .depthLimit
  | "Internal", [some reason] => reason.string?.map .internal
  | _, _ => none

def ofJson? : Value → Option FailureKind
  | .string (some name) => plain? name
  | .object [(some name, v)] =>
    match plain? name, v with
    | some kind, .null => some kind
    | some _, _ => none
    | none, _ => (fieldNames? name).bind fun names => (v.fields? names).bind (ofFields? name)
  | _ => none

def toJson : FailureKind → Value
  | mismatch expected =>
    .ofMembers [("SyntaxMismatch", .ofMembers [("expected", .ofString expected)])]
  | exhausted => .ofString "AlternationExhausted"
  | underflow min matched =>
    .ofMembers [("RepetitionUnderflow",
      .ofMembers [("min", .ofCount min), ("matched", .ofCount matched)])]
  | unexpected => .ofString "UnexpectedMatch"
  | unknownSave name =>
    .ofMembers [("UnknownBackreference", .ofMembers [("name", .ofString name)])]
  | saveMismatch name expected =>
    .ofMembers [("BackreferenceMismatch",
      .ofMembers [("name", .ofString name), ("expected", .ofString (String.ofList expected))])]
  | depthLimit depth => .ofMembers [("RecursionLimit", .ofMembers [("depth", .ofCount depth)])]
  | internal reason => .ofMembers [("Internal", .ofMembers [("reason", .ofString reason)])]

end FailureKind

end Peg
