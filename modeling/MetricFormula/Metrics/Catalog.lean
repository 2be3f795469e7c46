import MetricFormula.Json.Record

/-! The catalog of known events. -/

namespace MetricFormula

/-- Small letters for the capital letters of ASCII, and nothing else changed. -/
def foldCase (s : String) : String := String.ofList (s.toList.map Char.toLower)

/-- Names of events with their capital letters folded, so that case does not matter. -/
structure EventCatalog where
  folded : List String

namespace EventCatalog

def ofNames (names : List String) : EventCatalog := ⟨names.map foldCase⟩

def contains (c : EventCatalog) (name : String) : Bool := c.folded.contains (foldCase name)

/-- The number of distinct names. -/
def size (c : EventCatalog) : Nat := c.folded.eraseDups.length

/-! ## JSON -/

open Json.Reader

def readName (bound : Nat) : Json.Reader String := fun cs => do
  match ← record bound [⟨"EventName", none⟩] (expectString bound) cs with
  | ([name], rest) => return (name, rest)
  | _ => .error .shape

/-- An array of records with an event name each. -/
def readCatalog (bound : Nat) : Json.Reader EventCatalog := fun cs => do
  let (names, rest) ← expectArray bound (readName bound) cs
  return (ofNames names, rest)

def ofJson (text : String) : Except Json.Problem EventCatalog := Json.read readCatalog text

end EventCatalog

end MetricFormula
