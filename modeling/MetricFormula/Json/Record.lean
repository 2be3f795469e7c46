import MetricFormula.Json.Reader

/-! Reading values of a known shape. A record is written as an object of its fields, or as an array of their values in
order. -/

namespace MetricFormula.Json.Reader

/-- A field of a record; one without a default must be given. -/
structure Field (α : Type) where
  name : String
  default? : Option α

/-- What is wrong with a value that is not of the wanted shape: the value itself, if it cannot be read. -/
def mismatch (bound : Nat) (cs : List Char) : Problem :=
  match valueWith bound (fun _ => .error .shape) (fun _ => .error .shape) cs with
  | .ok _ => .shape
  | .error p => p

def expectString (bound : Nat) : Reader String := fun cs =>
  match dropBlank cs with
  | '"' :: cs => quotedText bound cs
  | _ => .error (mismatch bound cs)

def expectArray {α : Type} (bound : Nat) (item : Reader α) : Reader (List α) := fun cs =>
  match dropBlank cs with
  | '[' :: cs => do
    let step (reversed : List α) (cs : List Char) : Except Problem (List α × List Char) := do
      let (x, rest) ← item cs
      return (x :: reversed, rest)
    let (reversed, rest) ← items bound ']' step [] cs
    return (reversed.reverse, rest)
  | _ => .error (mismatch bound cs)

variable {α : Type}

/-- One field of an object; a known field may be given once, others are passed over. -/
def recordField (bound : Nat) (fields : List (Field α)) (value : Reader α) (seen : List (String × α)) :
    Reader (List (String × α)) := fun cs => do
  let (name, rest) ← quotedText bound (← openingQuote cs)
  if fields.any fun f => f.name == name then
    if (Entries.find? name seen).isSome then .error .shape
    else do
      let (x, rest) ← value (← colon rest)
      return ((name, x) :: seen, rest)
  else return (seen, ← skip bound (← colon rest))

def recordValue (seen : List (String × α)) (f : Field α) : Except Problem α :=
  match Entries.find? f.name seen with
  | some x => .ok x
  | none => match f.default? with
    | some x => .ok x
    | none => .error .shape

def defaultValue (f : Field α) : Except Problem α := recordValue [] f

/-- The values that follow in an array, and its end. -/
def recordRest (value : Reader α) : List (Field α) → Reader (List α)
  | [], cs => match dropBlank cs with
    | [] => .error .unfinished
    | ']' :: rest => .ok ([], rest)
    | _ => .error .malformed
  | f :: fs, cs => match dropBlank cs with
    | [] => .error .unfinished
    | ']' :: rest => do return (← (f :: fs).mapM defaultValue, rest)
    | ',' :: rest => do
      let (x, rest) ← value rest
      let (xs, rest) ← recordRest value fs rest
      return (x :: xs, rest)
    | _ => .error .malformed

/-- The values of an array in the order of the fields. -/
def recordItems (fields : List (Field α)) (value : Reader α) : Reader (List α) := fun cs =>
  match fields, dropBlank cs with
  | f :: fs, c :: rest =>
    if c = ']' then do return (← (f :: fs).mapM defaultValue, rest)
    else do
      let (x, rest) ← value (c :: rest)
      let (xs, rest) ← recordRest value fs rest
      return (x :: xs, rest)
  | fs, _ => recordRest value fs cs

/-- The values of the fields of a record. -/
def record (bound : Nat) (fields : List (Field α)) (value : Reader α) : Reader (List α) := fun cs =>
  match dropBlank cs with
  | '{' :: cs => do
    let (seen, rest) ← items bound '}' (recordField bound fields value) [] cs
    return (← fields.mapM (recordValue seen), rest)
  | '[' :: cs => recordItems fields value cs
  | _ => .error (mismatch bound cs)

end MetricFormula.Json.Reader
