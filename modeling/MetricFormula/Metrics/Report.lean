import MetricFormula.Expr.RetireLatency
import MetricFormula.FormulaSet.CrossReference
import MetricFormula.Json.Basic
import MetricFormula.Metrics.Catalog
import MetricFormula.Metrics.Fixups

/-! Lists of metrics: their formulas made canonical, all else kept as it is. -/

namespace MetricFormula.Metrics

def nameField : String := "MetricName"

def formulaField : String := "MetricExpr"

def thresholdField : String := "MetricThreshold"

/-- How the retire-latency placeholder is written in metric files. -/
def placeholderMark : String := "$PEBS"

structure Options where
  fixups : FixupTable
  /-- Without a catalog no event is unknown. -/
  catalog : Option EventCatalog
  /-- Whether metrics are expressed in terms of each other. -/
  crossReference : Bool

/-- The fields of a JSON object. -/
abbrev Fields := List (String × Json)

/-- What becomes of an object of the list. -/
inductive Entry where
  /-- It has no formula and is kept as it is. -/
  | plain (fields : Fields)
  /-- Its formula was added to the set. Its threshold may be unreadable. -/
  | metric (name : String) (fields : Fields) (badThreshold : Option FormulaError)
  /-- Its formula cannot be read, or its name is taken. -/
  | refused (name : String) (error : FormulaError)

structure Report where
  /-- The objects that are kept, in order. -/
  metrics : List Json
  /-- The names of refused metrics, with the reason. -/
  skipped : List (String × String)
  /-- The names of metrics whose threshold is left as written, with the reason. -/
  badThresholds : List (String × String)
  /-- Metrics and the unknown events that they refer to. -/
  unknownEvents : List (String × String)
  /-- The names of metrics that were expressed in terms of others. -/
  crossReferenced : List String

/-- Reads the text of a formula as metric files write it. -/
def prepare (options : Options) (text : String) : Except FormulaError Expr :=
  let fixed := options.fixups.apply text
  if containsText placeholderMark fixed then
    (parseFormula (replaceText placeholderMark placeholder.name fixed)).map Expr.expandPlaceholders
  else parseFormula fixed

/-- The fields with a canonical threshold. -/
def canonicalThreshold (options : Options) (fields : Fields) : Except FormulaError Fields :=
  match Json.stringField? thresholdField fields with
  | none => .ok fields
  | some text => (prepare options text).map fun e =>
    Entries.insert thresholdField (.string e.simplify.print) fields

/-- Takes in an object, and its formula into the set. -/
def takeIn (options : Options) (set : FormulaSet) (fields : Fields) : Entry × FormulaSet :=
  match Json.stringField? nameField fields, Json.stringField? formulaField fields with
  | some name, some text => match prepare options text >>= set.push name with
    | .error e => (.refused name e, set)
    | .ok set => match canonicalThreshold options fields with
      | .ok fields => (.metric name fields none, set)
      | .error e => (.metric name fields (some e), set)
  | _, _ => (.plain fields, set)

/-- Takes in the objects of a list; all other values are dropped. -/
def takeInAll (options : Options) (set : FormulaSet) : List Json → List Entry × FormulaSet
  | [] => ([], set)
  | .object fields :: rest =>
    let (entry, set) := takeIn options set fields
    let (entries, set) := takeInAll options set rest
    (entry :: entries, set)
  | _ :: rest => takeInAll options set rest

namespace Entry

def skipped? : Entry → Option (String × String)
  | .refused name e => some (name, e.message)
  | _ => none

def badThreshold? : Entry → Option (String × String)
  | .metric name _ (some e) => some (name, e.message)
  | _ => none

/-- The object that is kept, its formula taken from the final definitions. -/
def output? (definitions : FormulaSet) : Entry → Option Json
  | .plain fields => some (.object fields)
  | .metric name fields _ => match definitions.get? name with
    | some e => some (.object (Entries.insert formulaField (.string e.print) fields))
    | none => some (.object fields)
  | .refused .. => none

end Entry

/-- The events of a definition that are neither in the catalog nor names of metrics; a name that begins with `#` is a
constant. -/
def unknownIn (catalog : EventCatalog) (metricNames : List String) (e : Expr) : List String :=
  e.eventNames.filter fun name =>
    !(name.toList.head? == some '#' || metricNames.contains (foldCase name) || catalog.contains name)

def unknownEvents (catalog : EventCatalog) (definitions : FormulaSet) : List (String × String) :=
  let metricNames := definitions.names.map foldCase
  definitions.entries.flatMap fun (metric, e) =>
    (unknownIn catalog metricNames e).map fun event => (metric, event)

/-- Processes a list of metrics. -/
def process (options : Options) (metrics : List Json) : Report :=
  let (entries, set) := takeInAll options .empty metrics
  let updates := if options.crossReference then set.crossReference else []
  let definitions : FormulaSet := (set.map Expr.simplify).insertAll updates
  { metrics := entries.filterMap (Entry.output? definitions)
    skipped := entries.filterMap Entry.skipped?
    badThresholds := entries.filterMap Entry.badThreshold?
    unknownEvents := match options.catalog with
      | some catalog => unknownEvents catalog definitions
      | none => []
    crossReferenced := updates.map Prod.fst }

end MetricFormula.Metrics
