import MetricFormula.Expr.Basic
import MetricFormula.Token.Lexer

/-! From tokens to trees. From loosest to tightest: `if`/`else`, `|`, `&`, comparisons, `+ -`, `* /`, the sign,
operands. -/

namespace MetricFormula

namespace Parser

/-! ## State -/

structure State where
  /-- The tokens not yet taken. -/
  rest : List LocatedToken
  /-- Where the last token taken ends. -/
  lastStop : Nat
  /-- Where the text ends. -/
  textEnd : Nat
  /-- The levels that are open. -/
  nesting : Nat

namespace State

def token? (s : State) : Option Token := s.rest.head?.map LocatedToken.token

/-- The place of the next token, or the end of the text. -/
def span (s : State) : Span :=
  match s.rest with
  | t :: _ => t.span
  | [] => ⟨s.textEnd, s.textEnd⟩

/-- Takes one token. -/
def next (s : State) : State :=
  match s.rest with
  | t :: ts => { s with rest := ts, lastStop := t.span.stop }
  | [] => s

/-- From the next token of `s` to the last token taken by `t`. -/
def spanTo (s t : State) : Span := ⟨s.span.start, max s.span.start t.lastStop⟩

/-- The operator of a given precedence that comes next. -/
def operator? (s : State) (precedence : Nat) : Option Operator :=
  match s.token? with
  | some (.operator op) => if op.precedence = precedence then some op else none
  | _ => none

end State

end Parser

/-- A parser of one kind of phrase. -/
abbrev Parser := Parser.State → Except Fault (Expr × Parser.State)

namespace Parser

def nestingTooDeep (s : State) : Except Fault (Expr × State) := .error ⟨.nestingTooDeep, s.span⟩

/-- Runs a parser one level deeper. -/
def nested (p : Parser) : Parser := fun s =>
  if s.nesting < maxNesting then do
    let (e, t) ← p { s with nesting := s.nesting + 1 }
    return (e, { t with nesting := t.nesting - 1 })
  else nestingTooDeep s

/-- Refuses a tree that is too tall; it was read from `start` to `s`. -/
def checked (start : State) (e : Expr) (s : State) : Except Fault (Expr × State) :=
  if e.depth ≤ maxDepth then .ok (e, s) else .error ⟨.treeTooDeep, start.spanTo s⟩

/-- The parsers of the phrases that open a level. -/
structure Level where
  expr : Parser
  unary : Parser

/-! ## Operands -/

/-- Arguments up to the closing parenthesis, at least one. -/
def argumentList (l : Level) : Nat → State → Except Fault (List Expr × State)
  | 0, s => .error ⟨.unclosedArguments s.token?, s.span⟩
  | fuel + 1, s => do
    let (e, s) ← l.expr s
    match s.token? with
    | some .comma => do
      let (es, s) ← argumentList l fuel s.next
      return (e :: es, s)
    | some .closeParen => return ([e], s.next)
    | found => .error ⟨.unclosedArguments found, s.span⟩

/-- Arguments after the opening parenthesis. Every argument takes a token, so there are no more than tokens. -/
def arguments (l : Level) (s : State) : Except Fault (List Expr × State) :=
  match s.token? with
  | some .closeParen => .ok ([], s.next)
  | _ => argumentList l (s.rest.length + 1) s

def isEvent : Expr → Bool
  | .event _ => true
  | _ => false

/-- Whether a function accepts its arguments. -/
def checkArguments (f : Builtin) (args : List Expr) : Except Cause Unit :=
  if args.length ≠ f.arity then .error (.wrongArity f args.length)
  else if f.takesEvent && !args.all isEvent then .error (.eventExpected f)
  else .ok ()

/-- A call; `s` is at the name, which a parenthesis follows. -/
def call (l : Level) (name : String) : Parser := fun s =>
  match Builtin.ofName? name with
  | none => .error ⟨.unknownFunction name, s.spanTo s.next⟩
  | some f => do
    let (args, t) ← arguments l s.next.next
    match checkArguments f args with
    | .error cause => .error ⟨cause, s.spanTo t⟩
    | .ok () => checked s (.call f args) t

/-- A parenthesized formula, after the opening parenthesis. -/
def group (l : Level) : Parser := fun s => do
  let (e, s) ← l.expr s
  match s.token? with
  | some .closeParen => return (e, s.next)
  | found => .error ⟨.unclosedGroup found, s.span⟩

def primary (l : Level) : Parser := fun s =>
  match s.token? with
  | some (.number x) => .ok (.literal x, s.next)
  | some (.event e) => .ok (.event e, s.next)
  | some .openParen => group l s.next
  | some (.word name) =>
    match s.next.token?, Builtin.ofName? name with
    | some .openParen, _ => call l name s
    | _, some f => .error ⟨.uncalledFunction f, s.span⟩
    | _, none => .ok (.ref name, s.next)
  | found => .error ⟨.missingOperand found, s.span⟩

/-- A sign is part of a literal; before anything else `-x` stands for `0 - x`. -/
def unary (l : Level) : Parser := fun s =>
  match s.token? with
  | some (.operator .sub) => do
    let (e, t) ← l.unary s.next
    match e with
    | .literal x => return (.literal (-x), t)
    | e => checked s (.binary .sub (.literal 0) e) t
  | _ => primary l s

/-! ## Operators -/

/-- Further operands of a chain; `start` is where it begins and `left` what was read of it. -/
def chainRest (operand : Parser) (precedence : Nat) (start : State) :
    Nat → Expr → State → Except Fault (Expr × State)
  | 0, left, s => .ok (left, s)
  | fuel + 1, left, s =>
    match s.operator? precedence with
    | none => .ok (left, s)
    | some op => do
      let (right, s) ← operand s.next
      let (e, s) ← checked start (.binary op left right) s
      chainRest operand precedence start fuel e s

/-- Operands joined by operators of one precedence, from left to right. -/
def chain (operand : Parser) (precedence : Nat) : Parser := fun s => do
  let (left, t) ← operand s
  chainRest operand precedence s t.rest.length left t

/-- At most one comparison. -/
def comparison (operand : Parser) : Parser := fun s => do
  let (left, t) ← operand s
  match t.operator? (Operator.precedence .less) with
  | none => return (left, t)
  | some op => do
    let (right, t) ← operand t.next
    match t.operator? (Operator.precedence .less) with
    | some _ => .error ⟨.chainedComparison, t.span⟩
    | none => checked s (.binary op left right) t

def product (l : Level) : Parser := chain (unary l) (Operator.precedence .mul)

def sum (l : Level) : Parser := chain (product l) (Operator.precedence .add)

def conjunction (l : Level) : Parser := chain (comparison (sum l)) (Operator.precedence .and)

def disjunction (l : Level) : Parser := chain (conjunction l) (Operator.precedence .or)

def conditional (l : Level) : Parser := fun s => do
  let (value, t) ← disjunction l s
  match t.token? with
  | some .ifKeyword => do
    let (test, t) ← disjunction l t.next
    match t.token? with
    | some .elseKeyword => do
      let (otherwise, t) ← l.expr t.next
      checked s (.conditional value test otherwise) t
    | found => .error ⟨.missingElse found, t.span⟩
  | _ => return (value, t)

/-- The parsers with room for `n` more levels. The state counts the levels that are open, and at the limit no further
level is entered, so a room of `maxNesting` is never used up. -/
def level : Nat → Level
  | 0 => ⟨nestingTooDeep, nestingTooDeep⟩
  | n + 1 => ⟨nested (conditional (level n)), nested (unary (level n))⟩

/-- The formula that a whole list of tokens stands for. -/
def formula (textEnd : Nat) (ts : List LocatedToken) : Except Fault Expr := do
  let (e, s) ← (level maxNesting).expr ⟨ts, 0, textEnd, 0⟩
  match s.rest with
  | [] => return e
  | t :: _ => .error ⟨.trailing t.token, t.span⟩

end Parser

/-- Reads a formula, or finds the first fault in it. -/
def parse (text : String) : Except SyntaxError Expr :=
  (lex text >>= Parser.formula (byteLength text.toList)).mapError (.ofFault text)

end MetricFormula
