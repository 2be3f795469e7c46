import MetricFormula.Command.Run

/-! The program on the system that it is started on. -/

namespace MetricFormula.Command

/-- A reason with the system's number for it. -/
def systemReason (code : UInt32) (reason : String) : String := reason ++ " (os error " ++ toString code ++ ")"

/-- The reason that the system gives. -/
def accessErrorOf : IO.Error → AccessError
  | .noFileOrDirectory .. => .missing
  | .inappropriateType _ 20 _ => .notADirectory
  | .inappropriateType _ 21 _ => .isADirectory
  | .invalidArgument _ 36 _ => .nameTooLong
  | .inappropriateType _ code reason | .invalidArgument _ code reason | .permissionDenied _ code reason
  | .resourceExhausted _ code reason | .otherError code reason => .other (systemReason code reason)
  | e => .other (toString e)

def attempt {α : Type} (action : IO α) : IO (Except AccessError α) := do
  try return .ok (← action)
  catch e => return .error (accessErrorOf e)

def ioSystem : System IO where
  read path := attempt (IO.FS.withFile path .read fun h => h.readBinToEnd)
  write path text := attempt (IO.FS.writeFile path text)
  print := IO.print

def helpText : String :=
  "Usage: canonicalize FORMULAS...\n" ++
  "       metrics INPUT [--fixups FILE] [--catalog FILE] [--rewrite] [-o FILE]\n"

/-- Tells how a run ended. -/
def tell : Ending → IO Unit
  | .done => return
  | .refused .help => IO.print helpText
  | .refused .usage => do (← IO.getStderr).putStr helpText
  | .failed f => do (← IO.getStderr).putStr f.report

def start (args : List String) : IO UInt32 := do
  let ending ← run ioSystem args
  tell ending
  return ending.code.toUInt32

end MetricFormula.Command

def main (args : List String) : IO UInt32 := MetricFormula.Command.start args
