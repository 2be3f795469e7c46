import MetricFormula.Token.Basic

/-! What can be wrong with the text of a formula, and where. -/

namespace MetricFormula

/-- Levels that parentheses, arguments, `else` branches and signs may nest, the formula itself included. -/
def maxNesting : Nat := 64

/-- Height of the tallest tree that is read. -/
def maxDepth : Nat := 256

/-- A missing part names the token found in its place, `none` being the end of the text. -/
inductive Cause where
  | unexpectedCharacter (c : Char)
  | numberOutOfRange (numeral : String)
  | danglingEscape
  | malformedBlock
  | unnamedBlock
  | missingModifier
  | duplicateModifier (key event : String)
  | missingOperand (found : Option Token)
  | missingElse (found : Option Token)
  | unclosedGroup (found : Option Token)
  | unclosedArguments (found : Option Token)
  | trailing (token : Token)
  | uncalledFunction (function : Builtin)
  | unknownFunction (name : String)
  | wrongArity (function : Builtin) (given : Nat)
  | eventExpected (function : Builtin)
  | chainedComparison
  | nestingTooDeep
  | treeTooDeep

inductive ErrorKind where
  | unexpectedToken
  | unexpectedEnd
  | invalidToken
  | unknownFunction
  | arity
  | invalidArgument
  | duplicateModifier
  | nonAssociative
  | nestingTooDeep
  deriving DecidableEq

namespace Cause

def kind : Cause → ErrorKind
  | .unexpectedCharacter _ | .numberOutOfRange _ | .danglingEscape => .invalidToken
  | .malformedBlock | .unnamedBlock | .missingModifier => .invalidToken
  | .duplicateModifier .. => .duplicateModifier
  | .missingOperand found | .missingElse found | .unclosedGroup found | .unclosedArguments found =>
    if found.isSome then .unexpectedToken else .unexpectedEnd
  | .trailing _ | .uncalledFunction _ => .unexpectedToken
  | .unknownFunction _ => .unknownFunction
  | .wrongArity .. => .arity
  | .eventExpected _ => .invalidArgument
  | .chainedComparison => .nonAssociative
  | .nestingTooDeep | .treeTooDeep => .nestingTooDeep

def describeFound : Option Token → String
  | some t => t.describe
  | none => "end of input"

def message : Cause → String
  | .unexpectedCharacter c => "unexpected character " ++ quoted (String.singleton c)
  | .numberOutOfRange numeral => "number " ++ quoted numeral ++ " is out of range"
  | .danglingEscape => "dangling " ++ quoted "\\" ++ " at end of input"
  | .malformedBlock => "malformed " ++ quoted "@" ++ " modifier block"
  | .unnamedBlock => quoted "@" ++ " block must start with an event name"
  | .missingModifier => "expected modifier after " ++ quoted ":"
  | .duplicateModifier key event => "duplicate modifier " ++ quoted key ++ " on " ++ quoted event
  | .missingOperand none => "expected an expression, found end of input"
  | .missingOperand (some t) => "expected an expression before " ++ t.describe ++ ", found " ++ t.describe
  | .missingElse found =>
    "expected " ++ quoted "else" ++ " after " ++ quoted "if" ++ " predicate, found " ++ describeFound found
  | .unclosedGroup found =>
    "expected " ++ quoted ")" ++ " to close " ++ quoted "(" ++ ", found " ++ describeFound found
  | .unclosedArguments found =>
    "expected " ++ quoted ")" ++ " to close argument list, found " ++ describeFound found
  | .trailing t => "unexpected trailing " ++ t.describe
  | .uncalledFunction f => "function " ++ quoted f.name ++ " must be called with arguments"
  | .unknownFunction name => "unknown function " ++ quoted name
  | .wrongArity f given =>
    quoted f.name ++ " takes " ++ toString f.arity ++ " argument(s), got " ++ toString given
  | .eventExpected f => quoted f.name ++ " expects an event reference"
  | .chainedComparison => "comparison operators cannot be chained; add parentheses"
  | .nestingTooDeep => "expression nests deeper than " ++ toString maxNesting ++ " levels"
  | .treeTooDeep => "expression is deeper than " ++ toString maxDepth ++ " levels"

end Cause

/-- A cause and the bytes at fault. -/
structure Fault where
  cause : Cause
  span : Span

/-- A fault within its text. -/
structure SyntaxError where
  cause : Cause
  text : String
  span : Span
  position : Position

namespace SyntaxError

def ofFault (text : String) (f : Fault) : SyntaxError :=
  ⟨f.cause, text, f.span, .ofOffset text.toList f.span.start⟩

def message (e : SyntaxError) : String :=
  e.cause.message ++ " (line " ++ toString e.position.line ++ ", column " ++ toString e.position.column ++
    ", offset " ++ toString e.span.start ++ ") in " ++ quoted e.text

end SyntaxError

end MetricFormula
