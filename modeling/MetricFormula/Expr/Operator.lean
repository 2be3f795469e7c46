/-! Binary operators and built-in functions. -/

namespace MetricFormula

inductive Operator where
  | add
  | sub
  | mul
  | div
  | less
  | greater
  | lessEq
  | greaterEq
  | and
  | or
  deriving DecidableEq

namespace Operator

def all : List Operator := [.add, .sub, .mul, .div, .less, .greater, .lessEq, .greaterEq, .and, .or]

def symbol : Operator → String
  | .add => "+"
  | .sub => "-"
  | .mul => "*"
  | .div => "/"
  | .less => "<"
  | .greater => ">"
  | .lessEq => "<="
  | .greaterEq => ">="
  | .and => "&"
  | .or => "|"

def ofSymbol? (s : String) : Option Operator := all.find? fun op => op.symbol == s

/-- Binding strength; a conditional binds with strength 0. -/
def precedence : Operator → Nat
  | .or => 1
  | .and => 2
  | .less | .greater | .lessEq | .greaterEq => 3
  | .add | .sub => 4
  | .mul | .div => 5

/-- Comparisons do not associate; all other operators associate to the left. -/
def isComparison : Operator → Bool
  | .less | .greater | .lessEq | .greaterEq => true
  | _ => false

end Operator

inductive Builtin where
  | min
  | max
  | dRatio
  | sourceCount
  | hasEvent
  deriving DecidableEq

namespace Builtin

def all : List Builtin := [.min, .max, .dRatio, .sourceCount, .hasEvent]

def name : Builtin → String
  | .min => "min"
  | .max => "max"
  | .dRatio => "d_ratio"
  | .sourceCount => "source_count"
  | .hasEvent => "has_event"

def ofName? (s : String) : Option Builtin := all.find? fun f => f.name == s

def arity : Builtin → Nat
  | .min | .max | .dRatio => 2
  | .sourceCount | .hasEvent => 1

/-- These ask about the presence of an event, not about its value. -/
def takesEvent : Builtin → Bool
  | .sourceCount | .hasEvent => true
  | _ => false

end Builtin

end MetricFormula
