import Mathlib.Data.List.Forall2
import MetricFormula.Proofs.Grammar.State

/-!
# Places in the parser

The parser chooses by tokens alone and takes the places of its faults from them. So the same tokens in other places
give the same tree or the same fault, in the place that corresponds.
-/

namespace MetricFormula.Parser

/-- A correspondence between the places in two texts, and between the ends of what was read of them. -/
structure Correspondence where
  place : Span → Span → Prop
  stop : Nat → Nat → Prop
  /-- At first nothing was read. -/
  zero : stop 0 0
  stop_of_place {a b} : place a b → stop a.stop b.stop
  join {a b m n} : place a b → stop m n → place ⟨a.start, max a.start m⟩ ⟨b.start, max b.start n⟩

variable (R : Correspondence)

/-- The same token in places that correspond. -/
structure SameToken (t u : LocatedToken) : Prop where
  token : t.token = u.token
  place : R.place t.span u.span

/-- The same tokens are left, in places that correspond. -/
structure States (s t : State) : Prop where
  rest : List.Forall₂ (SameToken R) s.rest t.rest
  lastStop : R.stop s.lastStop t.lastStop
  textEnd : R.place ⟨s.textEnd, s.textEnd⟩ ⟨t.textEnd, t.textEnd⟩
  nesting : s.nesting = t.nesting

/-- The same result, or the same fault in places that correspond. -/
inductive Outcomes {α : Type} : Except Fault (α × State) → Except Fault (α × State) → Prop where
  | ok {a s t} : States R s t → Outcomes (.ok (a, s)) (.ok (a, t))
  | error {cause a b} : R.place a b → Outcomes (.error ⟨cause, a⟩) (.error ⟨cause, b⟩)

/-- A parser that respects the correspondence. -/
def Respects (p : Parser) : Prop := ∀ ⦃s t⦄, States R s t → Outcomes R (p s) (p t)

structure Level.Respects (l : Level) : Prop where
  expr : Parser.Respects R l.expr
  unary : Parser.Respects R l.unary

variable {R} {s t u v : State} {α β : Type}

/-! ## States -/

theorem States.token? (h : States R s t) : s.token? = t.token? := by
  obtain ⟨rest, _, _, _⟩ := s
  obtain ⟨rest', _, _, _⟩ := t
  cases h.rest with
  | nil => rfl
  | cons hfirst _ => exact congrArg some hfirst.token

theorem States.span (h : States R s t) : R.place s.span t.span := by
  obtain ⟨rest, _, _, _⟩ := s
  obtain ⟨rest', _, _, _⟩ := t
  cases h.rest with
  | nil => exact h.textEnd
  | cons hfirst _ => exact hfirst.place

theorem States.next (h : States R s t) : States R s.next t.next := by
  obtain ⟨rest, _, _, _⟩ := s
  obtain ⟨rest', _, _, _⟩ := t
  cases h.rest with
  | nil => exact h
  | cons hfirst hrest => exact ⟨hrest, R.stop_of_place hfirst.place, h.textEnd, h.nesting⟩

theorem States.spanTo (h : States R s t) (h' : States R u v) : R.place (s.spanTo u) (t.spanTo v) :=
  R.join h.span h'.lastStop

theorem States.operator? (h : States R s t) (k : Nat) : s.operator? k = t.operator? k := by
  rw [State.operator?, h.token?, State.operator?]

theorem States.length_eq (h : States R s t) : s.rest.length = t.rest.length := h.rest.length_eq

theorem States.level (h : States R s t) (n : Nat) : States R { s with nesting := n } { t with nesting := n } :=
  ⟨h.rest, h.lastStop, h.textEnd, rfl⟩

/-! ## Outcomes -/

theorem Outcomes.bind {x y : Except Fault (α × State)} {f g : α × State → Except Fault (β × State)}
    (h : Outcomes R x y) (hnext : ∀ a s t, States R s t → Outcomes R (f (a, s)) (g (a, t))) :
    Outcomes R (x >>= f) (y >>= g) := by
  cases h with
  | ok hst => exact hnext _ _ _ hst
  | error hplace => exact .error hplace

theorem checked_outcomes (h : States R s t) (h' : States R u v) (e : Expr) :
    Outcomes R (checked s e u) (checked t e v) := by
  unfold checked
  split
  · exact .ok h'
  · exact .error (h.spanTo h')

/-! ## Operators -/

theorem chainRest_outcomes {operand : Parser} (ho : Respects R operand) (k : Nat) (hstart : States R s t) (fuel : Nat)
    (left : Expr) (h : States R u v) :
    Outcomes R (chainRest operand k s fuel left u) (chainRest operand k t fuel left v) := by
  induction fuel generalizing left u v with
  | zero => exact .ok h
  | succ fuel ih =>
      unfold chainRest
      rw [h.operator?]
      cases v.operator? k with
      | none => exact .ok h
      | some op =>
          refine (ho h.next).bind fun right u v h => ?_
          exact (checked_outcomes hstart h _).bind fun e u v h => ih e h

theorem chain_respects {operand : Parser} (ho : Respects R operand) (k : Nat) : Respects R (chain operand k) := by
  intro s t h
  refine (ho h).bind fun left u v h' => ?_
  dsimp only
  rw [h'.length_eq]
  exact chainRest_outcomes ho k h _ left h'

theorem comparison_respects {operand : Parser} (ho : Respects R operand) : Respects R (comparison operand) := by
  intro s t h
  refine (ho h).bind fun left u v h' => ?_
  dsimp only
  rw [h'.operator?]
  cases v.operator? (Operator.precedence .less) with
  | none => exact .ok h'
  | some op =>
      refine (ho h'.next).bind fun right u v h' => ?_
      dsimp only
      rw [h'.operator?]
      cases v.operator? (Operator.precedence .less) with
      | none => exact checked_outcomes h h' _
      | some _ => exact .error h'.span

/-! ## Operands -/

theorem argumentList_outcomes {l : Level} (hl : l.Respects R) (fuel : Nat) (h : States R s t) :
    Outcomes R (argumentList l fuel s) (argumentList l fuel t) := by
  induction fuel generalizing s t with
  | zero =>
      rw [argumentList, argumentList, h.token?]
      exact .error h.span
  | succ fuel ih =>
      refine (hl.expr h).bind fun a s t h => ?_
      dsimp only
      rw [h.token?]
      generalize t.token? = found
      split
      · exact (ih h.next).bind fun as s t h => .ok h
      · exact .ok h.next
      · exact .error h.span

theorem arguments_outcomes {l : Level} (hl : l.Respects R) (h : States R s t) :
    Outcomes R (arguments l s) (arguments l t) := by
  unfold arguments
  rw [h.token?, h.length_eq]
  generalize t.token? = found
  split
  · exact .ok h.next
  · exact argumentList_outcomes hl _ h

theorem call_respects {l : Level} (hl : l.Respects R) (name : String) : Respects R (call l name) := by
  intro s t h
  unfold call
  split
  · exact .error (h.spanTo h.next)
  · refine (arguments_outcomes hl h.next.next).bind fun args u v h' => ?_
    dsimp only
    split
    · exact .error (h.spanTo h')
    · exact checked_outcomes h h' _

theorem group_respects {l : Level} (hl : l.Respects R) : Respects R (group l) := by
  intro s t h
  refine (hl.expr h).bind fun e u v h => ?_
  dsimp only
  rw [h.token?]
  generalize v.token? = found
  split
  · exact .ok h.next
  · exact .error h.span

theorem primary_respects {l : Level} (hl : l.Respects R) : Respects R (primary l) := by
  intro s t h
  unfold primary
  rw [h.token?, h.next.token?]
  generalize t.token? = found
  split
  · exact .ok h.next
  · exact .ok h.next
  · exact group_respects hl h.next
  · generalize t.next.token? = found
    split
    · exact call_respects hl _ h
    · exact .error h.span
    · exact .ok h.next
  · exact .error h.span

theorem unary_respects {l : Level} (hl : l.Respects R) : Respects R (unary l) := by
  intro s t h
  unfold unary
  rw [h.token?]
  generalize t.token? = found
  split
  · refine (hl.unary h.next).bind fun e u v h' => ?_
    dsimp only
    split
    · exact .ok h'
    · exact checked_outcomes h h' _
  · exact primary_respects hl h

/-! ## Formulas -/

theorem disjunction_respects {l : Level} (hl : l.Respects R) : Respects R (disjunction l) :=
  chain_respects (chain_respects (comparison_respects (chain_respects (chain_respects (unary_respects hl) _) _)) _) _

theorem conditional_respects {l : Level} (hl : l.Respects R) : Respects R (conditional l) := by
  intro s t h
  refine (disjunction_respects hl h).bind fun value u v h' => ?_
  dsimp only
  rw [h'.token?]
  generalize v.token? = found
  split
  · refine (disjunction_respects hl h'.next).bind fun test u v h' => ?_
    dsimp only
    rw [h'.token?]
    generalize v.token? = found
    split
    · exact (hl.expr h'.next).bind fun otherwise u v h' => checked_outcomes h h' _
    · exact .error h'.span
  · exact .ok h'

theorem nested_respects {p : Parser} (hp : Respects R p) : Respects R (nested p) := by
  intro s t h
  unfold nested
  rw [h.nesting]
  split
  · refine (hp (h.level _)).bind fun e u v h' => ?_
    dsimp only
    rw [h'.nesting]
    exact .ok (h'.level _)
  · exact .error h.span

theorem level_respects (n : Nat) : (level n).Respects R := by
  induction n with
  | zero => exact ⟨fun _ _ h => .error h.span, fun _ _ h => .error h.span⟩
  | succ n ih => exact ⟨nested_respects (conditional_respects ih), nested_respects (unary_respects ih)⟩

/-- The same tokens give the same tree, or the same fault in places that correspond. -/
theorem formula_places {ts us : List LocatedToken} {m n : Nat} (htokens : List.Forall₂ (SameToken R) ts us)
    (hend : R.place ⟨m, m⟩ ⟨n, n⟩) :
    (∃ e, formula m ts = .ok e ∧ formula n us = .ok e) ∨
      ∃ cause a b, formula m ts = .error ⟨cause, a⟩ ∧ formula n us = .error ⟨cause, b⟩ ∧ R.place a b := by
  have hstates : States R ⟨ts, 0, m, 0⟩ ⟨us, 0, n, 0⟩ := ⟨htokens, R.zero, hend, rfl⟩
  unfold formula
  generalize (level maxNesting).expr ⟨ts, 0, m, 0⟩ = x, (level maxNesting).expr ⟨us, 0, n, 0⟩ = y,
    (level_respects maxNesting).expr hstates = h
  cases h with
  | error hplace => exact .inr ⟨_, _, _, rfl, rfl, hplace⟩
  | @ok e s t h =>
      obtain ⟨rest, _, _, _⟩ := s
      obtain ⟨rest', _, _, _⟩ := t
      cases h.rest with
      | nil => exact .inl ⟨e, rfl, rfl⟩
      | @cons x y _ _ hfirst _ =>
          refine .inr ⟨_, _, _, rfl, ?_, hfirst.place⟩
          rw [hfirst.token]
          rfl

end MetricFormula.Parser
