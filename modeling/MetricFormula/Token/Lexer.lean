import MetricFormula.SyntaxError
import MetricFormula.Text.Blank

/-! From text to tokens. Each scanner takes the characters that are left and returns what follows its token. -/

namespace MetricFormula

/-- A fault given by the characters left at its start and at its end. -/
structure LexFault where
  cause : Cause
  start : List Char
  stop : List Char

namespace Lexer

/-! ## Names -/

/-- The characters of a name, and whether one of them was escaped. -/
structure Name where
  chars : List Char
  escaped : Bool

/-- Word characters, and any character after a backslash. -/
def nameRest : List Char → Name × List Char
  | [] => (⟨[], false⟩, [])
  | '\\' :: c :: cs =>
    let (n, rest) := nameRest cs
    (⟨c :: n.chars, true⟩, rest)
  | c :: cs =>
    if isWordChar c then
      let (n, rest) := nameRest cs
      (⟨c :: n.chars, n.escaped⟩, rest)
    else (⟨[], false⟩, c :: cs)

def name? : List Char → Option (Name × List Char)
  | '\\' :: c :: cs =>
    let (n, rest) := nameRest cs
    some (⟨c :: n.chars, true⟩, rest)
  | c :: cs =>
    if isWordStart c then
      let (n, rest) := nameRest cs
      some (⟨c :: n.chars, n.escaped⟩, rest)
    else none
  | [] => none

/-! ## Modifier blocks -/

def isTermChar (c : Char) : Bool := c != '@' && c != ',' && c != '=' && c != '\\' && !isBlank c

/-- The text of a key or value; the separators cannot be escaped. -/
def termText : List Char → List Char × List Char
  | [] => ([], [])
  | '\\' :: c :: cs =>
    if c = ',' ∨ c = '=' then ([], '\\' :: c :: cs)
    else
      let (t, rest) := termText cs
      (c :: t, rest)
  | c :: cs =>
    if isTermChar c then
      let (t, rest) := termText cs
      (c :: t, rest)
    else ([], c :: cs)

/-- A separator, with or without a backslash. -/
def separator? (sep : Char) : List Char → Option (List Char)
  | '\\' :: c :: cs => if c = sep then some cs else none
  | c :: cs => if c = sep then some cs else none
  | [] => none

/-- The value of a term; a separator without one is left. -/
def termValue (cs : List Char) : Option String × List Char :=
  match separator? '=' cs with
  | none => (none, cs)
  | some rest => match termText rest with
    | ([], _) => (none, cs)
    | (value, rest) => (some (String.ofList value), rest)

def term? (cs : List Char) : Option (Modifier × List Char) :=
  match termText cs with
  | ([], _) => none
  | (key, rest) =>
    let (value, rest) := termValue rest
    some (⟨String.ofList key, value⟩, rest)

/-- Further terms; a separator without a term is left. -/
def moreTerms : Nat → List Char → List Modifier × List Char
  | 0, cs => ([], cs)
  | fuel + 1, cs =>
    match (separator? ',' cs).bind term? with
    | none => ([], cs)
    | some (m, rest) =>
      let (ms, rest) := moreTerms fuel rest
      (m :: ms, rest)

/-- One or more terms up to the closing `@`; a failure gives the characters left after the last complete term. -/
def block (cs : List Char) : Except (List Char) ((Modifier × List Modifier) × List Char) :=
  match term? cs with
  | none => .error cs
  | some (m, rest) => match moreTerms rest.length rest with
    | (ms, '@' :: rest) => .ok ((m, ms), rest)
    | (_, rest) => .error rest

/-- An `R` that stands alone. -/
def retireSuffix? : List Char → Option (List Char)
  | 'R' :: c :: cs => if isWordChar c then none else some (c :: cs)
  | ['R'] => some []
  | _ => none

/-! ## Modifier lists -/

def isKeyChar (c : Char) : Bool := c.isAlphanum || c == '_'

/-- `=value`; a mark without a value is left. -/
def itemValue : List Char → Option String × List Char
  | '=' :: c :: cs =>
    if isWordChar c then (some (String.ofList (c :: cs.takeWhile isWordChar)), cs.dropWhile isWordChar)
    else (none, '=' :: c :: cs)
  | cs => (none, cs)

/-- The item after a colon. -/
def item? : List Char → Option (Modifier × List Char)
  | [] => none
  | c :: cs =>
    if isKeyChar c then
      let (value, rest) := itemValue (cs.dropWhile isKeyChar)
      some (⟨String.ofList (c :: cs.takeWhile isKeyChar), value⟩, rest)
    else none

/-- The digits of a shorthand, 1 if there are none. -/
def shortValue (digits : List Char) : Option String :=
  some (if digits.isEmpty then "1" else String.ofList digits)

/-- `c1` sets the counter mask, `e` or `e1` edge detection, `i` or `i1` inversion. -/
def expandShort (m : Modifier) : Modifier :=
  match m.value, m.key.toList with
  | none, 'c' :: d :: ds => if (d :: ds).all Char.isDigit then ⟨"cmask", shortValue (d :: ds)⟩ else m
  | none, 'e' :: ds => if ds.all Char.isDigit then ⟨"edge", shortValue ds⟩ else m
  | none, 'i' :: ds => if ds.all Char.isDigit then ⟨"inv", shortValue ds⟩ else m
  | _, _ => m

/-! ## Events -/

/-- Adds a modifier whose key is new. The fault, if any, lies between `start` and `stop`. -/
def addModifier (start stop : List Char) (e : Event) (m : Modifier) : Except LexFault Event :=
  match e.modifier? m.key with
  | some _ => .error ⟨.duplicateModifier m.key e.name, start, stop⟩
  | none => .ok (e.withModifier m)

/-- A list of `:` items. -/
def modifierList (start : List Char) : Nat → Event → List Char → Except LexFault (Event × List Char)
  | fuel + 1, e, ':' :: cs =>
    match item? cs with
    | none => .error ⟨.missingModifier, ':' :: cs, cs⟩
    | some (m, rest) =>
      if m = ⟨"R", none⟩ then modifierList start fuel (e.withQualifier .retireLatency) rest
      else match addModifier start rest e (expandShort m) with
        | .error f => .error f
        | .ok e => modifierList start fuel e rest
  | _, e, cs => .ok (e, cs)

/-- The rest of an event after its modifier block. -/
def afterBlock (start : List Char) (name : String) (ms : List Modifier) (rest : List Char) :
    Except LexFault (Token × List Char) := do
  let e ← ms.foldlM (addModifier start rest) (Event.bare name)
  let (e, rest) := match retireSuffix? rest with
    | some rest => (e.withQualifier .retireLatency, rest)
    | none => (e, rest)
  let (e, rest) ← modifierList start rest.length e rest
  return (.event e, rest)

/-- The rest of a name that no block follows. -/
def afterName (start : List Char) (n : Name) (rest : List Char) : Except LexFault (Token × List Char) :=
  match rest with
  | ':' :: _ => do
    let (e, rest) ← modifierList start rest.length (Event.bare (String.ofList n.chars)) rest
    return (.event e, rest)
  | _ =>
    if n.escaped then .ok (.event (Event.bare (String.ofList n.chars)), rest)
    else .ok (.ofWord (String.ofList n.chars), rest)

/-- A name with its modifiers, or a block whose first term is the name. -/
def reference (cs : List Char) : Except LexFault (Token × List Char) :=
  match cs with
  | '@' :: body => match block body with
    | .error stop => .error ⟨.malformedBlock, cs, stop⟩
    | .ok ((⟨_, some _⟩, _), rest) => .error ⟨.unnamedBlock, cs, rest⟩
    | .ok ((⟨name, none⟩, ms), rest) => afterBlock cs name ms rest
  | _ => match name? cs with
    | none => .error ⟨.danglingEscape, cs, []⟩
    | some (n, '@' :: body) => match block body with
      | .error stop => .error ⟨.malformedBlock, cs, stop⟩
      | .ok ((m, ms), rest) => afterBlock cs (String.ofList n.chars) (m :: ms) rest
    | some (n, rest) => afterName cs n rest

/-! ## Tokens -/

def number (cs : List Char) : Except LexFault (Token × List Char) :=
  let (n, rest) := Numeral.scan cs
  let x := n.toBinary64 false
  if x.isFinite then .ok (.number x, rest)
  else .error ⟨.numberOutOfRange (String.ofList (cs.take (cs.length - rest.length))), cs, rest⟩

def symbol? : List Char → Option (Token × List Char)
  | '<' :: '=' :: cs => some (.operator .lessEq, cs)
  | '>' :: '=' :: cs => some (.operator .greaterEq, cs)
  | '<' :: cs => some (.operator .less, cs)
  | '>' :: cs => some (.operator .greater, cs)
  | '+' :: cs => some (.operator .add, cs)
  | '-' :: cs => some (.operator .sub, cs)
  | '*' :: cs => some (.operator .mul, cs)
  | '/' :: cs => some (.operator .div, cs)
  | '&' :: cs => some (.operator .and, cs)
  | '|' :: cs => some (.operator .or, cs)
  | '(' :: cs => some (.openParen, cs)
  | ')' :: cs => some (.closeParen, cs)
  | ',' :: cs => some (.comma, cs)
  | _ => none

/-- The token that begins with `c`. -/
def token (c : Char) (cs : List Char) : Except LexFault (Token × List Char) :=
  if Numeral.startsAt (c :: cs) then number (c :: cs)
  else if isWordStart c ∨ c = '\\' ∨ c = '@' then reference (c :: cs)
  else match symbol? (c :: cs) with
    | some t => .ok t
    | none => .error ⟨.unexpectedCharacter c, c :: cs, cs⟩

/-- The offset at which `rest` is left of a text of `size` bytes. -/
def offset (size : Nat) (rest : List Char) : Nat := size - byteLength rest

/-- A fault spans at least one byte. -/
def locate (size : Nat) (f : LexFault) : Fault :=
  ⟨f.cause, offset size f.start, max (offset size f.stop) (offset size f.start + 1)⟩

/-- The tokens of `cs`, the end of a text of `size` bytes. Every token takes a character, so the length of the text
bounds their number. -/
def tokens (size : Nat) : Nat → List Char → Except Fault (List LocatedToken)
  | 0, _ => .ok []
  | fuel + 1, cs => match cs.dropWhile isBlank with
    | [] => .ok []
    | c :: cs => match token c cs with
      | .error f => .error (locate size f)
      | .ok (t, rest) => do
        let ts ← tokens size fuel rest
        return ⟨t, offset size (c :: cs), offset size rest⟩ :: ts

end Lexer

/-- The tokens of a text, or the first fault in it. -/
def lex (text : String) : Except Fault (List LocatedToken) :=
  Lexer.tokens (byteLength text.toList) text.toList.length text.toList

/-- The tokens of a text. -/
def tokenize (text : String) : Except SyntaxError (List LocatedToken) := (lex text).mapError (.ofFault text)

end MetricFormula
