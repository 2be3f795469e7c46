import MetricFormula.Expr.Basic

/-! Simplification. The rules, for operands that are simplified already:
`x + 0`, `0 + x`, `x - 0` become `x`; `a * E - b * E` becomes `(a - b) * E`; `x & 1`, `1 & x` become `x`;
`(v if P else 0) if P else 0` becomes `v if P else 0`. -/

namespace MetricFormula.Expr

/-- The coefficient and the event of `a * E`. -/
def scaledEvent? : Expr → Option (Binary64 × Event)
  | .binary .mul (.literal a) (.event e) => some (a, e)
  | _ => none

/-- Merges the coefficients of one event, if their difference is finite. -/
def simplifyDifference (l r : Expr) : Expr :=
  match scaledEvent? l, scaledEvent? r with
  | some (a, e), some (b, e') =>
    if e = e' ∧ (a - b).isFinite then .binary .mul (.literal (a - b)) (.event e) else .binary .sub l r
  | _, _ => .binary .sub l r

def simplifyBinary (op : Operator) (l r : Expr) : Expr :=
  match op with
  | .add => if r.isLiteral 0 then l else if l.isLiteral 0 then r else .binary .add l r
  | .sub => if r.isLiteral 0 then l else simplifyDifference l r
  | .and => if r.isLiteral 1 then l else if l.isLiteral 1 then r else .binary .and l r
  | op => .binary op l r

/-- An optional value, zero without its event, is not guarded twice by the same test. -/
def simplifyConditional (v t o : Expr) : Expr :=
  match v with
  | .conditional _ t' o' => if o.isLiteral 0 && o'.isLiteral 0 && t' == t then v else .conditional v t o
  | _ => .conditional v t o

mutual

/-- Applies the rules once, from the leaves up. -/
def simplifyPass : Expr → Expr
  | .literal x => .literal x
  | .event e => .event e
  | .binary op l r => simplifyBinary op l.simplifyPass r.simplifyPass
  | .call f as => .call f (simplifyPassList as)
  | .conditional v t o => simplifyConditional v.simplifyPass t.simplifyPass o.simplifyPass

def simplifyPassList : List Expr → List Expr
  | [] => []
  | a :: as => a.simplifyPass :: simplifyPassList as

end

/-- Repeats the pass until it changes nothing. -/
def settle : Nat → Expr → Expr
  | 0, e => e
  | fuel + 1, e => if e.simplifyPass == e then e else settle fuel e.simplifyPass

/-- A pass that changes a tree makes it smaller, so there are no more passes than nodes. -/
def simplify (e : Expr) : Expr := settle e.nodeCount e.simplifyPass

end MetricFormula.Expr
