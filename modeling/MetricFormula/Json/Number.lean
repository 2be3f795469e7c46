import MetricFormula.Json.Basic
import MetricFormula.Number.Numeral

/-! JSON numbers. A number that is no 64-bit integer is read as its leading digits, as many as fit 64 bits, which are
rounded and then multiplied or divided by a power of ten, so it need not be the nearest one. -/

namespace MetricFormula.Json.Reader

/-- Appends digits to a number below `2 ^ 64` while it stays there; the digits left over are returned. -/
def appendDigits (n : Nat) : List Char → Nat × List Char
  | [] => (n, [])
  | d :: ds =>
    if n * 10 + digitsValue [d] < Nat.pow 2 64 then appendDigits (n * 10 + digitsValue [d]) ds else (n, d :: ds)

/-- `x * 10 ^ k`; there is none beyond the finite numbers. Powers above `10 ^ 308` are taken in steps, three of which
bring any number down to zero. -/
def scale (x : Binary64) : Nat → Int → Option Binary64
  | _, .ofNat k =>
    if k ≤ 308 then if (x.scaleUp k).isFinite then some (x.scaleUp k) else none
    else if x.isZero then some x else none
  | 0, .negSucc _ => some x
  | fuel + 1, .negSucc k =>
    if k < 308 then some (x.scaleDown (k + 1))
    else if x.isZero then some x
    else scale (x.scaleDown 308) fuel (308 - (k + 1 : Int))

def float (negative : Bool) (significand : Nat) (exponent : Int) : Reader Json := fun rest =>
  match scale (.ofRatio negative (significand * Binary64.unitsPerOne) 1) 4 exponent with
  | some x => .ok (.float x, rest)
  | none => .error .malformed

/-- A digit is missing. -/
def missingDigit : List Char → Problem
  | [] => .unfinished
  | _ => .malformed

def exponentDigits (negative : Bool) (significand : Nat) (exponent : Int) (sign : Int) : Reader Json := fun cs =>
  match Numeral.scanDigits? cs with
  | some (n, rest) => float negative significand (exponent + sign * n) rest
  | none => .error (missingDigit cs)

/-- The rest of a number after the exponent mark. -/
def exponentPart (negative : Bool) (significand : Nat) (exponent : Int) : Reader Json
  | '+' :: cs => exponentDigits negative significand exponent 1 cs
  | '-' :: cs => exponentDigits negative significand exponent (-1) cs
  | cs => exponentDigits negative significand exponent 1 cs

/-- The rest of a number after the point. -/
def fractionPart (negative : Bool) (significand : Nat) (exponent : Int) : Reader Json := fun cs =>
  let digits := cs.takeWhile Char.isDigit
  let rest := cs.dropWhile Char.isDigit
  if digits.isEmpty then .error (missingDigit rest)
  else
    let (significand, unused) := appendDigits significand digits
    let exponent := exponent - (digits.length - unused.length : Nat)
    match rest with
    | 'e' :: rest => exponentPart negative significand exponent rest
    | 'E' :: rest => exponentPart negative significand exponent rest
    | _ => float negative significand exponent rest

/-- A number without point and exponent. Negative zero is no integer. -/
def whole (negative : Bool) (n : Nat) : Reader Json := fun rest =>
  if negative then
    if n = 0 ∨ Nat.pow 2 63 < n then float true n 0 rest else .ok (.integer (-n), rest)
  else .ok (.integer n, rest)

/-- The rest of a number after its first digits, of which `unused` are dropped. -/
def numberTail (negative : Bool) (n unused : Nat) : Reader Json
  | '.' :: cs => fractionPart negative n unused cs
  | 'e' :: cs => exponentPart negative n unused cs
  | 'E' :: cs => exponentPart negative n unused cs
  | cs => if unused = 0 then whole negative n cs else float negative n unused cs

def startsWithDigit : List Char → Bool
  | c :: _ => c.isDigit
  | [] => false

/-- A number after its sign. A leading zero stands alone. -/
def number (negative : Bool) : Reader Json
  | '0' :: cs => if startsWithDigit cs then .error .malformed else numberTail negative 0 0 cs
  | cs =>
    if startsWithDigit cs then
      let (n, unused) := appendDigits 0 (cs.takeWhile Char.isDigit)
      numberTail negative n unused.length (cs.dropWhile Char.isDigit)
    else .error (missingDigit cs)

/-! ## Numbers that are passed over -/

def skipDigits (cs : List Char) : Except Problem (List Char) :=
  if startsWithDigit cs then .ok (cs.dropWhile Char.isDigit) else .error .malformed

def skipExponent : List Char → Except Problem (List Char)
  | '+' :: cs => skipDigits cs
  | '-' :: cs => skipDigits cs
  | cs => skipDigits cs

def skipFraction (cs : List Char) : Except Problem (List Char) := do
  match ← skipDigits cs with
  | 'e' :: cs => skipExponent cs
  | 'E' :: cs => skipExponent cs
  | cs => return cs

/-- The digits of a number and all that follows them. -/
def skipWhole (cs : List Char) : Except Problem (List Char) := do
  match ← skipDigits cs with
  | '.' :: cs => skipFraction cs
  | 'e' :: cs => skipExponent cs
  | 'E' :: cs => skipExponent cs
  | cs => return cs

/-- Passes over a number after its sign, whatever its size. A leading zero stands alone. -/
def skipNumber : List Char → Except Problem (List Char)
  | '0' :: cs => if startsWithDigit cs then .error .malformed else skipWhole ('0' :: cs)
  | cs => skipWhole cs

end MetricFormula.Json.Reader
