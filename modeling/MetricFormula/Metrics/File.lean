import MetricFormula.FileSystem
import MetricFormula.Json.Printer
import MetricFormula.Metrics.Report

/-! Metric files with their fixups and catalogs. -/

namespace MetricFormula.Metrics

/-- The first thing that goes wrong with a file. -/
inductive FileError where
  | access (path : String) (error : AccessError)
  | json (path : String) (problem : Json.Problem)
  | notAnArray (path : String)

namespace FileError

/-- What is told of the error beneath. -/
def cause? : FileError → Option String
  | .access _ e => some e.message
  | .json _ problem => some problem.message
  | .notAnArray _ => none

def message : FileError → String
  | .access path e => "failed to access " ++ path ++ ": " ++ e.message
  | .json path problem => "invalid JSON in " ++ path ++ ": " ++ problem.message
  | .notAnArray path => path ++ ": expected a JSON array of metric objects"

end FileError

/-- The paths of a metric file and of what it is processed with. -/
structure FileOptions where
  input : String
  fixups : Option String
  catalog : Option String
  crossReference : Bool

section

variable {m : Type → Type} [Monad m] {α : Type}

/-- The content of a file, taken as JSON of some kind. -/
def decode (ofJson : String → Except Json.Problem α) (path : String) (text : Except AccessError String) :
    Except FileError α := do
  (ofJson (← text.mapError (.access path))).mapError (.json path)

def load (sys : System m) (ofJson : String → Except Json.Problem α) (path : String) : ExceptT FileError m α :=
  ExceptT.mk do return decode ofJson path (← sys.readText path)

def loadOptions (sys : System m) (o : FileOptions) : ExceptT FileError m Options := do
  let fixups ← o.fixups.mapM (load sys FixupTable.ofJson)
  let catalog ← o.catalog.mapM (load sys EventCatalog.ofJson)
  return ⟨fixups.getD .empty, catalog, o.crossReference⟩

def loadMetrics (sys : System m) (path : String) : ExceptT FileError m (List Json) := do
  match ← load sys Json.parse path with
  | .array metrics => return metrics
  | _ => throw (.notAnArray path)

/-- Processes a metric file; the fixups are read first, then the catalog, then the metrics. -/
def processFile (sys : System m) (o : FileOptions) : ExceptT FileError m Report := do
  let options ← loadOptions sys o
  let metrics ← loadMetrics sys o.input
  return process options metrics

end

/-- The text of the metrics that are kept. -/
def Report.text (r : Report) : String := (Json.array r.metrics).pretty

end MetricFormula.Metrics
