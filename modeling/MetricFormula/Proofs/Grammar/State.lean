import MetricFormula.Proofs.Grammar.Phrase
import MetricFormula.Proofs.Outcome

/-! The states of the parser, by the tokens that are left. -/

namespace MetricFormula.Parser

namespace State

/-- The tokens that are left, without their places. -/
def tokens (s : State) : List Token := s.rest.map LocatedToken.token

theorem token?_eq_some {s : State} {x : Token} (h : s.token? = some x) :
    ∃ l, s.rest = l :: s.next.rest ∧ l.token = x := by
  rcases s with ⟨_ | ⟨l, ls⟩, _, _, _⟩
  · cases h
  · exact ⟨l, rfl, by simpa [token?] using h⟩

@[simp] theorem next_nesting (s : State) : s.next.nesting = s.nesting := by
  unfold next; split <;> rfl

@[simp] theorem next_textEnd (s : State) : s.next.textEnd = s.textEnd := by
  unfold next; split <;> rfl

theorem operator?_eq_some {s : State} {k : Nat} {op : Operator} (h : s.operator? k = some op) :
    s.token? = some (.operator op) ∧ op.precedence = k := by
  unfold operator? at h
  split at h
  · split at h
    · cases h; exact ⟨‹_›, ‹_›⟩
    · cases h
  · cases h

variable {s : State} {k : Nat} {x : Token} {ts : List Token}

theorem token?_of_cons (h : s.tokens = x :: ts) : s.token? = some x := by
  rcases s with ⟨_ | ⟨l, ls⟩, _, _, _⟩
  · cases h
  · exact congrArg some (List.cons.inj h).1

theorem next_tokens_of_cons (h : s.tokens = x :: ts) : s.next.tokens = ts := by
  rcases s with ⟨_ | ⟨l, ls⟩, _, _, _⟩
  · cases h
  · exact (List.cons.inj h).2

theorem token?_of_ends (h : EndsBefore k s.tokens) (ht : s.token? = some x) : x.pull ≤ k := by
  rcases s with ⟨_ | ⟨l, ls⟩, _, _, _⟩
  · cases ht
  · cases ht; exact h _ rfl

theorem operator?_of_cons {op : Operator} (h : s.tokens = .operator op :: ts) (hk : op.precedence = k) :
    s.operator? k = some op := by
  simp [operator?, token?_of_cons h, hk]

theorem operator?_of_ends (h : EndsBefore k s.tokens) : s.operator? k = none := by
  unfold operator?
  split
  · rename_i op hop
    have hpull : op.precedence + 1 ≤ k := token?_of_ends h hop
    exact if_neg (by omega)
  · rfl

end State

theorem checked_eq_ok {start s t : State} {e e' : Expr} :
    checked start e s = .ok (e', t) ↔ e.depth ≤ maxDepth ∧ e = e' ∧ s = t := by
  unfold checked
  split <;> simp [*]

theorem checkArguments_eq_ok {f : Builtin} {args : List Expr} :
    checkArguments f args = .ok () ↔
      args.length = f.arity ∧ (f.takesEvent → ∀ a ∈ args, ∃ e, a = .event e) := by
  have hev : (args.all isEvent = true) ↔ ∀ a ∈ args, ∃ e, a = .event e := by
    rw [List.all_eq_true]
    refine forall₂_congr fun a _ => ?_
    cases a <;> simp [isEvent]
  unfold checkArguments
  split
  · simp [*]
  · rename_i h
    rw [← hev]
    cases f.takesEvent <;> cases args.all isEvent <;> simp_all

end MetricFormula.Parser
