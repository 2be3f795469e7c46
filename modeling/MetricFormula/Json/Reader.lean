import MetricFormula.Json.Quoted

/-! From text to JSON values. The readers of lists and strings are given a bound, which the number of characters in
the text does not exceed. -/

namespace MetricFormula.Json.Reader

/-- Levels that arrays and objects may nest. -/
def maxLevels : Nat := 127

def dropBlank (cs : List Char) : List Char :=
  cs.dropWhile fun c => c == ' ' || c == '\t' || c == '\n' || c == '\r'

/-- The rest of a fixed word. -/
def fixedWord : List Char → List Char → Except Problem (List Char)
  | [], cs => .ok cs
  | _ :: _, [] => .error .unfinished
  | w :: ws, c :: cs => if w = c then fixedWord ws cs else .error .malformed

/-- Items with commas between them, up to the closing bracket. Each item takes a state on. -/
def itemsFrom {σ : Type} (close : Char) (item : σ → Reader σ) : Nat → σ → Reader σ
  | 0, _, _ => .error .malformed
  | fuel + 1, state, cs => do
    let (state, rest) ← item state cs
    match dropBlank rest with
    | [] => .error .unfinished
    | c :: rest =>
      if c = close then return (state, rest)
      else if c = ',' then itemsFrom close item fuel state rest
      else .error .malformed

/-- Items after the opening bracket. -/
def items {σ : Type} (bound : Nat) (close : Char) (item : σ → Reader σ) (state : σ) : Reader σ := fun cs =>
  match dropBlank cs with
  | [] => .error .unfinished
  | c :: rest => if c = close then .ok (state, rest) else itemsFrom close item bound state (c :: rest)

/-- The colon between the name of a field and its value. -/
def colon (cs : List Char) : Except Problem (List Char) :=
  match dropBlank cs with
  | [] => .error .unfinished
  | ':' :: cs => .ok cs
  | _ => .error .malformed

/-- The quote that begins the name of a field. -/
def openingQuote (cs : List Char) : Except Problem (List Char) :=
  match dropBlank cs with
  | [] => .error .unfinished
  | '"' :: cs => .ok cs
  | _ => .error .malformed

def arrayItem (value : Reader Json) (reversed : List Json) : Reader (List Json) := fun cs => do
  let (x, rest) ← value cs
  return (x :: reversed, rest)

def objectField (bound : Nat) (value : Reader Json) (fields : List (String × Json)) :
    Reader (List (String × Json)) := fun cs => do
  let (name, rest) ← quotedText bound (← openingQuote cs)
  let (x, rest) ← value (← colon rest)
  return (Entries.insert name x fields, rest)

def array (bound : Nat) (value : Reader Json) : Reader Json := fun cs => do
  let (reversed, rest) ← items bound ']' (arrayItem value) [] cs
  return (.array reversed.reverse, rest)

/-- A field given again keeps its place and takes the new value. -/
def object (bound : Nat) (value : Reader Json) : Reader Json := fun cs => do
  let (fields, rest) ← items bound '}' (objectField bound value) [] cs
  return (.object fields, rest)

/-- A value whose arrays and objects are left to two further readers. -/
def valueWith (bound : Nat) (array object : Reader Json) : Reader Json := fun cs =>
  match dropBlank cs with
  | [] => .error .unfinished
  | '[' :: cs => array cs
  | '{' :: cs => object cs
  | '"' :: cs => do
    let (s, rest) ← quotedText bound cs
    return (.string s, rest)
  | '-' :: cs => number true cs
  | 'n' :: cs => do return (.null, ← fixedWord ['u', 'l', 'l'] cs)
  | 't' :: cs => do return (.bool true, ← fixedWord ['r', 'u', 'e'] cs)
  | 'f' :: cs => do return (.bool false, ← fixedWord ['a', 'l', 's', 'e'] cs)
  | c :: cs => if c.isDigit then number false (c :: cs) else .error .malformed

/-- A value with room for so many further levels. -/
def value (bound : Nat) : Nat → Reader Json
  | 0 => valueWith bound (fun _ => .error .malformed) (fun _ => .error .malformed)
  | room + 1 => valueWith bound (array bound (value bound room)) (object bound (value bound room))

/-- A whole text holds one value. -/
def wholeText {α : Type} (r : Except Problem (α × List Char)) : Except Problem α := do
  let (x, rest) ← r
  match dropBlank rest with
  | [] => return x
  | _ => .error .malformed

/-! ## Values that are passed over -/

def skipWith (bound : Nat) (array object : List Char → Except Problem (List Char)) (cs : List Char) :
    Except Problem (List Char) :=
  match dropBlank cs with
  | [] => .error .unfinished
  | '[' :: cs => array cs
  | '{' :: cs => object cs
  | '"' :: cs => skipQuoted bound cs
  | '-' :: cs => skipNumber cs
  | 'n' :: cs => fixedWord ['u', 'l', 'l'] cs
  | 't' :: cs => fixedWord ['r', 'u', 'e'] cs
  | 'f' :: cs => fixedWord ['a', 'l', 's', 'e'] cs
  | c :: cs => if c.isDigit then skipNumber (c :: cs) else .error .malformed

def skipItem (skip : List Char → Except Problem (List Char)) (_ : Unit) : Reader Unit := fun cs => do
  return ((), ← skip cs)

def skipField (bound : Nat) (skip : List Char → Except Problem (List Char)) (_ : Unit) : Reader Unit := fun cs => do
  let cs ← openingQuote cs
  let rest ← skipQuoted bound cs
  return ((), ← skip (← colon rest))

/-- Passes over a value with room for so many levels. -/
def skipLevels (bound : Nat) : Nat → List Char → Except Problem (List Char)
  | 0 => skipWith bound (fun _ => .error .malformed) (fun _ => .error .malformed)
  | room + 1 => skipWith bound
    (fun cs => (items bound ']' (skipItem (skipLevels bound room)) () cs).map Prod.snd)
    (fun cs => (items bound '}' (skipField bound (skipLevels bound room)) () cs).map Prod.snd)

/-- Passes over a value; a text has fewer levels than characters. -/
def skip (bound : Nat) (cs : List Char) : Except Problem (List Char) := skipLevels bound bound cs

end MetricFormula.Json.Reader

namespace MetricFormula.Json

/-- Reads a text with a reader that is given the bound of the text. -/
def read {α : Type} (reader : Nat → Reader α) (text : String) : Except Problem α :=
  Reader.wholeText (reader (text.toList.length + 1) text.toList)

/-- Reads a text that is one JSON value. -/
def parse (text : String) : Except Problem Json := read (fun bound => Reader.value bound Reader.maxLevels) text

end MetricFormula.Json
