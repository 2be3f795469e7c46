import MetricFormula.Command.Arguments
import MetricFormula.Metrics.File

/-! What the commands do. -/

namespace MetricFormula

/-- The files that the `metrics` command reads. -/
def MetricsArguments.files (a : MetricsArguments) : Metrics.FileOptions :=
  ⟨a.input, a.fixups, a.catalog, a.crossReference⟩

namespace Command

/-- Why a command fails. -/
inductive Failure where
  /-- Some formulas cannot be read. -/
  | formulas (failed total : Nat)
  | metrics (error : Metrics.FileError)
  /-- The output cannot be written. -/
  | output (error : AccessError)

namespace Failure

def message : Failure → String
  | .formulas failed total => toString failed ++ " of " ++ toString total ++ " formulas failed to parse"
  | .metrics e => e.message
  | .output e => e.message

def cause? : Failure → Option String
  | .metrics e => e.cause?
  | _ => none

/-- What is told when the program ends. -/
def report (f : Failure) : String :=
  "Error: " ++ f.message ++ "\n" ++ match f.cause? with
    | some cause => "\nCaused by:\n    " ++ cause ++ "\n"
    | none => ""

end Failure

/-- How a run of the program ends. -/
inductive Ending where
  | done
  | refused (r : Refusal)
  | failed (f : Failure)

def Ending.code : Ending → Nat
  | .done | .refused .help => 0
  | .failed _ => 1
  | .refused .usage => 2

section

variable {m : Type → Type} [Monad m]

/-- Prints the canonical text of each formula that can be read, and counts the others. -/
def printCanonical (sys : System m) : List String → m Nat
  | [] => return 0
  | f :: fs => match MetricFormula.canonicalize f with
    | .ok text => do
      sys.print (text ++ "\n")
      printCanonical sys fs
    | .error _ => do return (← printCanonical sys fs) + 1

def canonicalizeAll (sys : System m) (formulas : List String) : m Ending := do
  match ← printCanonical sys formulas with
  | 0 => return .done
  | failed => return .failed (.formulas failed formulas.length)

/-- The report is printed, unless there is a path for it. Only then is a file written, at the very end. -/
def processMetrics (sys : System m) (a : MetricsArguments) : m Ending := do
  match ← (Metrics.processFile sys a.files).run with
  | .error e => return .failed (.metrics e)
  | .ok report => match a.output with
    | none => do
      sys.print (report.text ++ "\n")
      return .done
    | some path => match ← sys.write path (report.text ++ "\n") with
      | .ok () => return .done
      | .error e => return .failed (.output e)

/-- The program. -/
def run (sys : System m) (args : List String) : m Ending :=
  match ofArguments args with
  | .error r => return .refused r
  | .ok (.canonicalize formulas) => canonicalizeAll sys formulas
  | .ok (.metrics a) => processMetrics sys a

end

end Command

/-- A run of the program on a file system: how it ends, what it leaves, and all that it prints. -/
def FileSystem.run {σ φ : Type} (fs : FileSystem σ φ) (args : List String) (s : σ) : Command.Ending × World σ :=
  (Command.run fs.system args).run ⟨s, ""⟩

end MetricFormula
