import MetricFormula.Proofs.Grammar.State

/-!
# The procedures of the parser

The parser as a machine: procedures enter each other, and one state goes through all of them. A procedure that finds a
fault returns as well, with the state in which the fault was found. A loop is a procedure that enters itself. Nothing
here limits how long the machine may run.
-/

namespace MetricFormula.Parser

/-! ## Procedures -/

/-- The chains of operators, from left to right. -/
inductive Chain where
  | or
  | and
  | add
  | mul

inductive Procedure where
  | expr
  | conditional
  | chain (c : Chain)
  /-- Further operands of a chain; `start` is where it begins and `left` what was read of it. -/
  | chainRest (c : Chain) (start : State) (left : Expr)
  | comparison
  | unary
  | primary
  /-- A call after its name, which is at `start`; a parenthesis follows. -/
  | call (name : String) (start : State)
  /-- Further arguments of a call, at least one, and the end of the call. -/
  | arguments (f : Builtin) (start : State) (args : List Expr)

namespace Chain

def precedence : Chain → Nat
  | or => Operator.precedence .or
  | and => Operator.precedence .and
  | add => Operator.precedence .add
  | mul => Operator.precedence .mul

def operand : Chain → Procedure
  | or => .chain .and
  | and => .comparison
  | add => .chain .mul
  | mul => .unary

end Chain

/-- What is left to do of a procedure: it returns, or enters another one and goes on with what that one returns. -/
inductive Code where
  | done (r : Except Fault Expr) (s : State)
  | enter (p : Procedure) (s : State) (resume : Except Fault Expr → State → Code)

namespace Code

/-- How a procedure goes on with what another one returns. -/
abbrev Resume := Except Fault Expr → State → Code

/-- The state in which a procedure returns or is entered. -/
def state : Code → State
  | done _ s | enter _ s _ => s

/-- Goes on with a tree. A fault is passed on. -/
def andThen (next : Expr → State → Code) : Resume
  | .ok e, s => next e s
  | .error f, s => .done (.error f) s

/-- Enters a procedure one level deeper, and leaves the level whatever is returned. -/
def nested (p : Procedure) (s : State) (resume : Resume) : Code :=
  if s.nesting < maxNesting then
    .enter p { s with nesting := s.nesting + 1 } fun r t => resume r { t with nesting := t.nesting - 1 }
  else resume (.error ⟨.nestingTooDeep, s.span⟩) s

/-- Goes on unless the tree is too tall. -/
def checked (start : State) (e : Expr) (s : State) (next : Code) : Code :=
  if e.depth ≤ maxDepth then next else .done (.error ⟨.treeTooDeep, start.spanTo s⟩) s

/-- Returns a call if the function accepts its arguments. -/
def endCall (f : Builtin) (start : State) (args : List Expr) (s : State) : Code :=
  match checkArguments f args with
  | .error cause => .done (.error ⟨cause, start.spanTo s⟩) s
  | .ok () => .checked start (.call f args) s (.done (.ok (.call f args)) s)

end Code

/-- What a procedure does that is entered at a state. -/
def Procedure.code : Procedure → State → Code
  | expr, s => .nested .conditional s .done
  | conditional, s =>
    .enter (.chain .or) s <| .andThen fun value t =>
      match t.token? with
      | some .ifKeyword =>
        .enter (.chain .or) t.next <| .andThen fun test t =>
          match t.token? with
          | some .elseKeyword =>
            .enter .expr t.next <| .andThen fun otherwise t =>
              .checked s (.conditional value test otherwise) t (.done (.ok (.conditional value test otherwise)) t)
          | found => .done (.error ⟨.missingElse found, t.span⟩) t
      | _ => .done (.ok value) t
  | chain c, s =>
    .enter c.operand s <| .andThen fun left t => .enter (.chainRest c s left) t .done
  | chainRest c start left, s =>
    match s.operator? c.precedence with
    | none => .done (.ok left) s
    | some op =>
      .enter c.operand s.next <| .andThen fun right t =>
        .checked start (.binary op left right) t (.enter (.chainRest c start (.binary op left right)) t .done)
  | comparison, s =>
    .enter (.chain .add) s <| .andThen fun left t =>
      match t.operator? (Operator.precedence .less) with
      | none => .done (.ok left) t
      | some op =>
        .enter (.chain .add) t.next <| .andThen fun right t =>
          match t.operator? (Operator.precedence .less) with
          | some _ => .done (.error ⟨.chainedComparison, t.span⟩) t
          | none => .checked s (.binary op left right) t (.done (.ok (.binary op left right)) t)
  | unary, s =>
    match s.token? with
    | some (.operator .sub) =>
      .nested .unary s.next <| .andThen fun e t =>
        match e with
        | .literal x => .done (.ok (.literal (-x))) t
        | e => .checked s (.binary .sub (.literal 0) e) t (.done (.ok (.binary .sub (.literal 0) e)) t)
    | _ => .enter .primary s .done
  | primary, s =>
    match s.token? with
    | some (.number x) => .done (.ok (.literal x)) s.next
    | some (.event e) => .done (.ok (.event e)) s.next
    | some .openParen =>
      .enter .expr s.next <| .andThen fun e t =>
        match t.token? with
        | some .closeParen => .done (.ok e) t.next
        | found => .done (.error ⟨.unclosedGroup found, t.span⟩) t
    | some (.word name) =>
      match s.next.token?, Builtin.ofName? name with
      | some .openParen, _ => .enter (.call name s) s.next .done
      | _, some f => .done (.error ⟨.uncalledFunction f, s.span⟩) s.next
      | _, none => .done (.ok (.ref name)) s.next
    | found => .done (.error ⟨.missingOperand found, s.span⟩) s
  | call name start, s =>
    match Builtin.ofName? name with
    | none => .done (.error ⟨.unknownFunction name, start.spanTo s⟩) s
    | some f =>
      match s.next.token? with
      | some .closeParen => .endCall f start [] s.next.next
      | _ => .enter (.arguments f start []) s.next .done
  | arguments f start args, s =>
    .enter .expr s <| .andThen fun e t =>
      match t.token? with
      | some .comma => .enter (.arguments f start (args ++ [e])) t.next .done
      | some .closeParen => .endCall f start (args ++ [e]) t.next
      | found => .done (.error ⟨.unclosedArguments found, t.span⟩) t

/-! ## The machine -/

/-- A procedure that runs, and how those that entered it go on, the innermost first. -/
structure Machine where
  code : Code
  waiting : List Code.Resume

namespace Machine

/-- Before the first token. -/
def start (textEnd : Nat) (ts : List LocatedToken) : Machine := ⟨.enter .expr ⟨ts, 0, textEnd, 0⟩ .done, []⟩

/-- A procedure is entered or returns. -/
def step : Machine → Option Machine
  | ⟨.enter p s resume, waiting⟩ => some ⟨p.code s, resume :: waiting⟩
  | ⟨.done r s, resume :: waiting⟩ => some ⟨resume r s, waiting⟩
  | ⟨.done _ _, []⟩ => none

/-- A run of some number of steps. -/
inductive Run : Nat → Machine → Machine → Prop where
  | done {m} : Run 0 m m
  | step {k m m' m''} : m.step = some m' → Run k m' m'' → Run (k + 1) m m''

variable {k n : Nat} {m m' m'' : Machine}

theorem Run.trans (h : Run k m m') (h' : Run n m' m'') : Run (k + n) m m'' := by
  induction h with
  | done => rwa [Nat.zero_add]
  | step hstep _ ih =>
      rw [Nat.succ_add]
      exact .step hstep (ih h')

/-- A run that can go on is the beginning of one that cannot. -/
theorem Run.of_ended (h : Run k m m') (h' : Run n m m'') (hend : m''.step = none) :
    k ≤ n ∧ Run (n - k) m' m'' := by
  induction h generalizing n with
  | done => exact ⟨Nat.zero_le n, h'⟩
  | step hstep _ ih =>
      cases h' with
      | done =>
          rw [hstep] at hend
          cases hend
      | @step n _ _ _ hstep' h' =>
          cases hstep.symm.trans hstep'
          obtain ⟨hle, hrest⟩ := ih h'
          exact ⟨Nat.succ_le_succ hle, by rwa [Nat.add_sub_add_right]⟩

end Machine

open Machine (Run)

/-- Code that comes to an end, whatever waits for it. -/
def Code.Runs (c : Code) (r : Except Fault Expr) (t : State) : Prop :=
  ∃ n, ∀ waiting, Run n ⟨c, waiting⟩ ⟨.done r t, waiting⟩

namespace Code.Runs

variable {p : Procedure} {s t u : State} {r r' : Except Fault Expr} {c : Code} {resume : Resume}

theorem done : (Code.done r t).Runs r t := ⟨0, fun _ => .done⟩

theorem enter (h : (p.code s).Runs r t) (hresume : (resume r t).Runs r' u) : (Code.enter p s resume).Runs r' u := by
  obtain ⟨k, hk⟩ := h
  obtain ⟨n, hn⟩ := hresume
  refine ⟨k + (n + 1) + 1, fun waiting => .step rfl ((hk (resume :: waiting)).trans ?_)⟩
  exact .step rfl (hn waiting)

theorem unique (h : c.Runs r t) (h' : c.Runs r' u) : r = r' ∧ t = u := by
  obtain ⟨k, hk⟩ := h
  obtain ⟨n, hn⟩ := h'
  obtain ⟨-, hrun⟩ := (hk []).of_ended (hn []) rfl
  generalize n - k = j at hrun
  cases hrun with
  | done => exact ⟨rfl, rfl⟩
  | step hstep => cases hstep

end Code.Runs

end MetricFormula.Parser
