import MetricFormula.Expr.Basic

/-! Occurrences of one tree in another. -/

namespace MetricFormula.Expr

mutual

/-- Whether `n` is the tree or one of its subtrees. -/
def contains : Expr → Expr → Bool
  | .literal x, n => .literal x == n
  | .event e, n => .event e == n
  | .binary op a b, n => .binary op a b == n || a.contains n || b.contains n
  | .call f as, n => .call f as == n || containsList as n
  | .conditional v t o, n => .conditional v t o == n || v.contains n || t.contains n || o.contains n

def containsList : List Expr → Expr → Bool
  | [], _ => false
  | a :: as, n => a.contains n || containsList as n

end

mutual

/-- Replaces the outermost occurrences of `n` by `r`. -/
def replace : Expr → Expr → Expr → Expr
  | .literal x, n, r => if Expr.literal x == n then r else .literal x
  | .event e, n, r => if Expr.event e == n then r else .event e
  | .binary op a b, n, r =>
    if Expr.binary op a b == n then r else .binary op (a.replace n r) (b.replace n r)
  | .call f as, n, r => if Expr.call f as == n then r else .call f (replaceList as n r)
  | .conditional v t o, n, r =>
    if Expr.conditional v t o == n then r
    else .conditional (v.replace n r) (t.replace n r) (o.replace n r)

def replaceList : List Expr → Expr → Expr → List Expr
  | [], _, _ => []
  | a :: as, n, r => a.replace n r :: replaceList as n r

end

end MetricFormula.Expr
