import MetricFormula.Json.Number
import MetricFormula.Text.Position

/-! JSON strings. -/

namespace MetricFormula.Json.Reader

def hexValue? (c : Char) : Option Nat :=
  if c.isDigit then some (c.toNat - '0'.toNat)
  else if 'a' ≤ c ∧ c ≤ 'f' then some (c.toNat - 'a'.toNat + 10)
  else if 'A' ≤ c ∧ c ≤ 'F' then some (c.toNat - 'A'.toNat + 10)
  else none

def hexDigits? (a b c d : Char) : Option Nat := do
  return (← hexValue? a) * 4096 + (← hexValue? b) * 256 + (← hexValue? c) * 16 + (← hexValue? d)

/-- A code unit of four digits. Fewer than four bytes are an unfinished one. -/
def codeUnit : Reader Nat := fun cs =>
  if byteLength (cs.take 4) < 4 then .error .unfinished
  else match cs with
    | a :: b :: c :: d :: rest => match hexDigits? a b c d with
      | some n => .ok (n, rest)
      | none => .error .malformed
    | _ => .error .malformed

/-- The second half of a surrogate pair whose first half is `high`. -/
def lowSurrogate (high : Nat) : Reader Char
  | [] => .error .unfinished
  | ['\\'] => .error .unfinished
  | '\\' :: 'u' :: cs => do
    let (low, rest) ← codeUnit cs
    if 0xDC00 ≤ low ∧ low ≤ 0xDFFF then
      return (Char.ofNat ((high - 0xD800) * 1024 + (low - 0xDC00) + 0x10000), rest)
    else .error .malformed
  | _ => .error .malformed

/-- A character given by its code units. -/
def codePoint : Reader Char := fun cs => do
  let (n, rest) ← codeUnit cs
  if 0xDC00 ≤ n ∧ n ≤ 0xDFFF then .error .malformed
  else if 0xD800 ≤ n ∧ n ≤ 0xDBFF then lowSurrogate n rest
  else return (Char.ofNat n, rest)

/-- The characters after a backslash, `u` apart, and what they stand for. -/
def shortEscapes : List (Char × Char) :=
  [('"', '"'), ('\\', '\\'), ('/', '/'), ('b', '\x08'), ('f', '\x0c'), ('n', '\n'), ('r', '\r'), ('t', '\t')]

def escapeSequence : Reader Char
  | [] => .error .unfinished
  | 'u' :: cs => codePoint cs
  | c :: cs => match shortEscapes.lookup c with
    | some d => .ok (d, cs)
    | none => .error .malformed

/-- The characters up to the closing quote; there are no more than the first number. -/
def quotedFrom : Nat → Reader (List Char)
  | _, [] => .error .unfinished
  | 0, _ => .error .malformed
  | fuel + 1, c :: cs =>
    if c = '"' then .ok ([], cs)
    else if c = '\\' then do
      let (d, rest) ← escapeSequence cs
      let (ds, rest) ← quotedFrom fuel rest
      return (d :: ds, rest)
    else if c.toNat < 0x20 then .error .malformed
    else do
      let (ds, rest) ← quotedFrom fuel cs
      return (c :: ds, rest)

/-- A string after its opening quote, in a text of at most `bound` characters. -/
def quotedText (bound : Nat) : Reader String := fun cs => do
  let (t, rest) ← quotedFrom bound cs
  return (String.ofList t, rest)

/-! ## Strings that are passed over -/

def skipEscape : List Char → Except Problem (List Char)
  | [] => .error .unfinished
  | 'u' :: cs => (codeUnit cs).map Prod.snd
  | c :: cs => if (shortEscapes.lookup c).isSome then .ok cs else .error .malformed

/-- Passes over a string after its opening quote; surrogates need not be paired. -/
def skipQuoted : Nat → List Char → Except Problem (List Char)
  | _, [] => .error .unfinished
  | 0, _ => .error .malformed
  | fuel + 1, c :: cs =>
    if c = '"' then .ok cs
    else if c = '\\' then do skipQuoted fuel (← skipEscape cs)
    else if c.toNat < 0x20 then .error .malformed
    else skipQuoted fuel cs

end MetricFormula.Json.Reader
