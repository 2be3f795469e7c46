import MetricFormula.Json.Record
import MetricFormula.Text.Replace

/-! Textual fixups of formulas, made before they are read. -/

namespace MetricFormula

structure Substitution where
  old : String
  new : String

structure FixupTable where
  substitutions : List Substitution

namespace FixupTable

def empty : FixupTable := ⟨[]⟩

/-- Makes every substitution in turn; an empty text is never replaced. -/
def apply (t : FixupTable) (formula : String) : String :=
  (t.substitutions.filter fun s => s.old != "").foldl (fun text s => replaceText s.old s.new text) formula

/-! ## JSON -/

open Json.Reader

def readSubstitution (bound : Nat) : Json.Reader Substitution := fun cs => do
  match ← record bound [⟨"from", none⟩, ⟨"to", none⟩] (expectString bound) cs with
  | ([old, new], rest) => return (⟨old, new⟩, rest)
  | _ => .error .shape

/-- A record whose only field is a list of substitutions, empty if it is not given. -/
def readTable (bound : Nat) : Json.Reader FixupTable := fun cs => do
  let (values, rest) ←
    record bound [⟨"substitutions", some []⟩] (expectArray bound (readSubstitution bound)) cs
  return (⟨values.flatten⟩, rest)

def ofJson (text : String) : Except Json.Problem FixupTable := Json.read readTable text

def toJson (t : FixupTable) : Json :=
  .object [("substitutions", .array (t.substitutions.map fun s =>
    .object [("from", .string s.old), ("to", .string s.new)]))]

end FixupTable

end MetricFormula
