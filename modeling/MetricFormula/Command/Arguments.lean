/-! The command line. -/

namespace MetricFormula

/-- The arguments of the `metrics` command. -/
structure MetricsArguments where
  input : String
  fixups : Option String
  catalog : Option String
  output : Option String
  crossReference : Bool

inductive Command where
  | canonicalize (formulas : List String)
  | metrics (arguments : MetricsArguments)

namespace Command

/-- Why nothing is run. -/
inductive Refusal where
  /-- Help was asked for. -/
  | help
  /-- The arguments make no sense. -/
  | usage

/-! ## Single arguments -/

inductive Argument where
  | value (text : String)
  /-- `--name` or `--name=value`. -/
  | long (name : String) (value : Option String)
  /-- `-x`, with the characters that follow. -/
  | short (name : Char) (rest : List Char)
  /-- `--`, after which all arguments are values. -/
  | separator

/-- A dash alone is a value. -/
def Argument.ofString (s : String) : Argument :=
  match s.toList with
  | ['-', '-'] => .separator
  | '-' :: '-' :: cs =>
    match cs.dropWhile fun c => c != '=' with
    | [] => .long (String.ofList cs) none
    | _ :: text => .long (String.ofList (cs.takeWhile fun c => c != '=')) (some (String.ofList text))
  | '-' :: c :: cs => .short c cs
  | _ => .value s

def Argument.isValue : Argument → Bool
  | .value _ => true
  | _ => false

/-! ## Formulas -/

def formulas : List String → Except Refusal (List String)
  | [] => .ok []
  | a :: rest => match Argument.ofString a with
    | .separator => .ok rest
    | .value s => do return s :: (← formulas rest)
    | .long "help" none => .error .help
    | .short 'h' _ => .error .help
    | _ => .error .usage

def canonicalizeCommand (args : List String) : Except Refusal Command := do
  match ← formulas args with
  | [] => .error .usage
  | fs => return .canonicalize fs

/-! ## Options -/

/-- The paths that the `metrics` command takes. -/
inductive Slot where
  | input
  | fixups
  | catalog
  | output
  deriving DecidableEq

def Slot.ofLong? : String → Option Slot
  | "fixups" => some .fixups
  | "catalog" => some .catalog
  | "output" => some .output
  | _ => none

/-- What was given so far. -/
structure Given where
  paths : List (Slot × String)
  crossReference : Bool

namespace Given

/-- Paths are not empty and are given once. -/
def add (g : Given) (slot : Slot) (path : String) : Except Refusal Given :=
  if path = "" ∨ (g.paths.lookup slot).isSome then .error .usage
  else .ok { g with paths := (slot, path) :: g.paths }

def addCrossReference (g : Given) : Except Refusal Given :=
  if g.crossReference then .error .usage else .ok { g with crossReference := true }

def addInputs (g : Given) (paths : List String) : Except Refusal Given :=
  paths.foldlM (fun g path => g.add .input path) g

/-- The input has to be given. -/
def finish (g : Given) : Except Refusal Command :=
  match g.paths.lookup .input with
  | none => .error .usage
  | some input =>
    .ok (.metrics ⟨input, g.paths.lookup .fixups, g.paths.lookup .catalog, g.paths.lookup .output,
      g.crossReference⟩)

end Given

/-- The value that is part of a short option. -/
def attachedValue : List Char → String
  | '=' :: cs => String.ofList cs
  | cs => String.ofList cs

/-- The option whose value is the argument after it. -/
def Argument.awaits? : Argument → Option Slot
  | .long name none => Slot.ofLong? name
  | .short 'o' [] => some .output
  | _ => none

/-- An argument that is complete by itself. -/
def Given.addArgument (g : Given) : Argument → Except Refusal Given
  | .value path => g.add .input path
  | .long "help" none => .error .help
  | .long "rewrite" none => g.addCrossReference
  | .long name (some path) => match Slot.ofLong? name with
    | some slot => g.add slot path
    | none => .error .usage
  | .short 'h' _ => .error .help
  | .short 'o' cs => g.add .output (attachedValue cs)
  | _ => .error .usage

def metricsArguments (g : Given) : List String → Except Refusal Given
  | [] => .ok g
  | [a] => match Argument.ofString a with
    | .separator => .ok g
    | arg => if arg.awaits?.isSome then .error .usage else g.addArgument arg
  | a :: b :: rest => match Argument.ofString a with
    | .separator => g.addInputs (b :: rest)
    | arg => match arg.awaits? with
      | some slot =>
        if (Argument.ofString b).isValue then do metricsArguments (← g.add slot b) rest else .error .usage
      | none => do metricsArguments (← g.addArgument arg) (b :: rest)

/-- The command that the arguments of the program ask for. -/
def ofArguments : List String → Except Refusal Command
  | "canonicalize" :: args => canonicalizeCommand args
  | "metrics" :: args => do (← metricsArguments ⟨[], false⟩ args).finish
  | ["help"] | ["help", "canonicalize"] | ["help", "metrics"] | ["help", "help"] => .error .help
  | a :: _ => match Argument.ofString a with
    | .long "help" none => .error .help
    | .short 'h' _ => .error .help
    | _ => .error .usage
  | [] => .error .usage

end Command

end MetricFormula
