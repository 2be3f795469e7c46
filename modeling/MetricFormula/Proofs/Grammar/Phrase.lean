import MetricFormula.Expr.Parser

/-!
# The grammar of formulas

A phrase has a strength: 0 is a whole formula, 1 to 5 are the operators by their precedence (`|`, `&`, comparisons,
`+ -`, `* /`), 6 is an operand that may have a sign and 7 an operand without one. Levels are counted as they open: one
for a formula, hence one for each parenthesis, argument and `else` branch, and one for a sign.
-/

namespace MetricFormula

/-- Comparisons do not associate; every other operator takes its own chain as left operand. -/
def Operator.leftStrength (op : Operator) : Nat := if op.isComparison then op.precedence + 1 else op.precedence

theorem Operator.precedence_pos (op : Operator) : 0 < op.precedence := by cases op <;> decide

theorem Operator.precedence_lt (op : Operator) : op.precedence < 6 := by cases op <;> decide

theorem Operator.leftStrength_of_ne {op : Operator} (h : op.precedence ≠ 3) : op.leftStrength = op.precedence := by
  cases op <;> first | rfl | exact absurd rfl h

theorem Operator.leftStrength_of_eq {op : Operator} (h : op.precedence = 3) : op.leftStrength = 4 := by
  cases op <;> first | rfl | cases h

/-- A function has at least one argument. -/
theorem Builtin.arity_pos (f : Builtin) : 0 < f.arity := by cases f <;> decide

/-- What a sign makes of a tree: it is part of a literal, and before anything else it subtracts from zero. -/
def Expr.negated : Expr → Expr
  | .literal x => .literal (-x)
  | e => .binary .sub (.literal 0) e

mutual

/-- `Phrase k n ts e`: the tokens `ts` are a phrase of strength `k` for the tree `e`, and open at most `n` levels. -/
inductive Phrase : Nat → Nat → List Token → Expr → Prop where
  | plain {n ts e} : Phrase 1 n ts e → Phrase 0 (n + 1) ts e
  | conditional {n ts us ws v t o} : Phrase 1 n ts v → Phrase 1 n us t → Phrase 0 n ws o →
      Phrase 0 (n + 1) (ts ++ .ifKeyword :: (us ++ .elseKeyword :: ws)) (.conditional v t o)
  | binary {k n op ts us l r} : op.precedence = k → Phrase op.leftStrength n ts l → Phrase (k + 1) n us r →
      Phrase k n (ts ++ .operator op :: us) (.binary op l r)
  /-- Every phrase but a formula may be a single phrase of the next strength. -/
  | tighter {k n ts e} : 0 < k → k < 7 → Phrase (k + 1) n ts e → Phrase k n ts e
  | sign {n ts e} : Phrase 6 n ts e → Phrase 6 (n + 1) (.operator .sub :: ts) e.negated
  | number {n x} : Phrase 7 n [.number x] (.literal x)
  | event {n e} : Phrase 7 n [.event e] (.event e)
  /-- The names of functions are reserved. -/
  | name {n s} : Builtin.ofName? s = none → Phrase 7 n [.word s] (.ref s)
  | group {n ts e} : Phrase 0 n ts e → Phrase 7 n (.openParen :: (ts ++ [.closeParen])) e
  | call {n s f ts args} : Builtin.ofName? s = some f → Arguments n ts args → args.length = f.arity →
      (f.takesEvent → ∀ a ∈ args, ∃ e, a = .event e) →
      Phrase 7 n (.word s :: .openParen :: (ts ++ [.closeParen])) (.call f args)

/-- One or more formulas between commas. -/
inductive Arguments : Nat → List Token → List Expr → Prop where
  | last {n ts a} : Phrase 0 n ts a → Arguments n ts [a]
  | more {n ts us a as} : Phrase 0 n ts a → Arguments n us as → Arguments n (ts ++ .comma :: us) (a :: as)

end

/-! ## What may follow a phrase -/

/-- The strength of the phrases that go on with a token, and one more. -/
def Token.pull : Token → Nat
  | .closeParen | .comma | .elseKeyword => 0
  | .ifKeyword => 1
  | .operator op => op.precedence + 1
  | .number _ | .word _ | .event _ | .openParen => 8

/-- No phrase of strength `k` can go on with the tokens `ts`. -/
def EndsBefore (k : Nat) (ts : List Token) : Prop := ∀ t ∈ ts.head?, t.pull ≤ k

theorem EndsBefore.mono {k m : Nat} {ts : List Token} (h : EndsBefore k ts) (hk : k ≤ m) : EndsBefore m ts :=
  fun t ht => Nat.le_trans (h t ht) hk

@[simp] theorem endsBefore_cons {k : Nat} {t : Token} {ts : List Token} : EndsBefore k (t :: ts) ↔ t.pull ≤ k := by
  simp [EndsBefore]

theorem endsBefore_nil (k : Nat) : EndsBefore k [] := by simp [EndsBefore]

end MetricFormula
