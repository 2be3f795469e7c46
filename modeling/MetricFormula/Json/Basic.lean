import MetricFormula.Number.Binary64
import MetricFormula.Table

/-! JSON values. Objects keep the order of their fields. -/

namespace MetricFormula

/-- Integers that fit 64 bits, signed or unsigned, are kept apart from all other numbers. -/
inductive Json where
  | null
  | bool (value : Bool)
  | integer (value : Int)
  | float (value : Binary64)
  | string (value : String)
  | array (items : List Json)
  | object (fields : List (String × Json))

namespace Json

def string? : Json → Option String
  | .string s => some s
  | _ => none

/-- The string in a field of an object. -/
def stringField? (name : String) (fields : List (String × Json)) : Option String :=
  (Entries.find? name fields).bind string?

/-- The first thing wrong with a text that is read as JSON. -/
inductive Problem where
  /-- No JSON text begins like this. -/
  | malformed
  /-- The text ends too early. -/
  | unfinished
  /-- The text is JSON so far, but not of the shape that was asked for. -/
  | shape
  deriving DecidableEq

/-- Only the kind of problem is told, not where it is. -/
def Problem.message : Problem → String
  | .malformed => "malformed value"
  | .unfinished => "unexpected end of the text"
  | .shape => "unexpected kind of value"

/-- Reads a value from the front of a text and returns what follows it. -/
abbrev Reader (α : Type) := List Char → Except Problem (α × List Char)

end Json

end MetricFormula
