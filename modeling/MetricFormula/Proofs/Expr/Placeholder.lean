import MetricFormula.Expr.Printer
import MetricFormula.Proofs.Expr.Position
import MetricFormula.Proofs.Expr.RetireLatency

/-!
# Placeholders by their positions

A placeholder is filled where it is the right operand of a product whose left operand is an event, or the first argument
of a call of `min` or `max` in that place. Every other node stays as it is, and no such place is left.
-/

namespace MetricFormula

theorem Event.sampled_ne_placeholder (e : Event) : e.sampled ≠ placeholder := by
  intro h
  cases congrArg Event.qualifier h

namespace Expr

/-- Where the right operand of a product has a placeholder, from its root. -/
inductive Hole : Expr → List Nat → Prop where
  | whole : Hole (.event placeholder) []
  | bounded {f as} : f = .min ∨ f = .max → Hole (.call f (.event placeholder :: as)) [0]

/-- At the position `p` of the tree there is a placeholder for the event `e`, by which it is multiplied. -/
def PlaceholderAt (t : Expr) (e : Event) (p : List Nat) : Prop :=
  ∃ q r h, t.subtree? q = some (.binary .mul (.event e) r) ∧ Hole r h ∧ p = q ++ 1 :: h

variable {e : Event} {t l r : Expr} {p : List Nat}

/-! ## The right operand -/

theorem Hole.subtree? (h : Hole r p) : r.subtree? p = some (.event placeholder) := by
  cases h <;> rfl

theorem Hole.nodeAt?_fillPlaceholder (h : Hole r p) (e : Event) :
    (fillPlaceholder e r).nodeAt? p = some (.event e.sampled) := by
  cases h with
  | whole => rfl
  | bounded hf => simp [fillPlaceholder, hf, nodeAt?_cons, children, node]

/-- Only the placeholder is filled. -/
theorem nodeAt?_fillPlaceholder (h : ¬ Hole r p) (e : Event) : (fillPlaceholder e r).nodeAt? p = r.nodeAt? p := by
  rcases fillPlaceholder_cases e r with heq | ⟨rfl, heq⟩ | ⟨f, as, hf, rfl, heq⟩
  · rw [heq]
  · rw [heq]
    cases p with
    | nil => exact absurd .whole h
    | cons i p => rw [nodeAt?_cons_of_leaf rfl, nodeAt?_cons_of_leaf rfl]
  · rw [heq]
    match p with
    | [] => rfl
    | [0] => exact absurd (.bounded hf) h
    | 0 :: i :: p =>
        simp only [nodeAt?_cons, children, List.getElem?_cons_zero, List.getElem?_nil, Option.bind_some, Option.bind_none]
    | (i + 1) :: p => simp only [nodeAt?_cons, children, List.getElem?_cons_succ]

theorem fillPlaceholder_of_not_hole (h : ∀ p, ¬ Hole r p) (e : Event) : fillPlaceholder e r = r := by
  rcases fillPlaceholder_cases e r with heq | ⟨rfl, -⟩ | ⟨f, as, hf, rfl, -⟩
  · exact heq
  · exact absurd .whole (h [])
  · exact absurd (.bounded hf) (h [0])

/-! ## The whole tree -/

theorem expandProduct_eq_binary (op : Operator) (l r : Expr) : ∃ r', expandProduct op l r = .binary op l r' := by
  rcases expandProduct_cases op l r with h | ⟨e, rfl, rfl, h⟩
  · exact ⟨r, h⟩
  · exact ⟨_, h⟩

theorem expandPlaceholders_eq_event : t.expandPlaceholders = .event e ↔ t = .event e := by
  cases t with
  | binary op l r =>
      obtain ⟨r', h⟩ := expandProduct_eq_binary op l.expandPlaceholders r.expandPlaceholders
      simp [expandPlaceholders, h]
  | _ => simp [expandPlaceholders]

theorem node_expandPlaceholders (t : Expr) : t.expandPlaceholders.node = t.node := by
  cases t with
  | binary op l r =>
      obtain ⟨r', h⟩ := expandProduct_eq_binary op l.expandPlaceholders r.expandPlaceholders
      rw [expandPlaceholders, h, node, node]
  | call f as => rw [expandPlaceholders, expandPlaceholdersList_eq_map, node, node, List.length_map]
  | _ => rfl

theorem hole_expandPlaceholders : Hole r.expandPlaceholders p ↔ Hole r p := by
  constructor
  · intro h
    generalize hr : r.expandPlaceholders = r' at h
    cases h with
    | whole =>
        obtain rfl := expandPlaceholders_eq_event.mp hr
        exact .whole
    | bounded hf =>
        cases r with
        | call f as =>
            rw [expandPlaceholders, expandPlaceholdersList_eq_map] at hr
            obtain ⟨rfl, has⟩ := Expr.call.inj hr
            obtain ⟨a, as, rfl, ha, -⟩ := List.map_eq_cons_iff.mp has
            obtain rfl := expandPlaceholders_eq_event.mp ha
            exact .bounded hf
        | binary op l r =>
            obtain ⟨r', h⟩ := expandProduct_eq_binary op l.expandPlaceholders r.expandPlaceholders
            rw [expandPlaceholders, h] at hr
            cases hr
        | _ => cases hr
  · rintro (_ | hf)
    · exact .whole
    · exact .bounded hf

/-- The product of an event is filled in its right operand, and all else in the trees below the root. -/
theorem children_expandPlaceholders (t : Expr) :
    (∃ e r, t = .binary .mul (.event e) r ∧
        t.expandPlaceholders = .binary .mul (.event e) (fillPlaceholder e r.expandPlaceholders)) ∨
      (∀ e r, t ≠ .binary .mul (.event e) r) ∧ t.expandPlaceholders.children = t.children.map expandPlaceholders := by
  cases t with
  | binary op l r =>
      rcases expandProduct_cases op l.expandPlaceholders r.expandPlaceholders with h | ⟨e, rfl, hl, h⟩
      · by_cases hprod : ∃ e, op = .mul ∧ l = .event e
        · obtain ⟨e, rfl, rfl⟩ := hprod
          exact .inl ⟨e, r, rfl, rfl⟩
        · refine .inr ⟨?_, by rw [expandPlaceholders, h]; rfl⟩
          rintro e r' heq
          cases heq
          exact hprod ⟨e, rfl, rfl⟩
      · obtain rfl := expandPlaceholders_eq_event.mp hl
        exact .inl ⟨e, r, rfl, h⟩
  | call f as =>
      refine .inr ⟨by simp, ?_⟩
      rw [expandPlaceholders, expandPlaceholdersList_eq_map, children, children]
  | _ => exact .inr ⟨by simp, rfl⟩

/-- A placeholder is in the right operand of the root, or in a tree below the root. -/
theorem placeholderAt_cons {i : Nat} : t.PlaceholderAt e (i :: p) ↔
    (∃ r, t = .binary .mul (.event e) r ∧ i = 1 ∧ Hole r p) ∨
      ∃ c, t.children[i]? = some c ∧ c.PlaceholderAt e p := by
  constructor
  · rintro ⟨q, r, h, hq, hole, heq⟩
    cases q with
    | nil =>
        cases hq
        obtain ⟨rfl, rfl⟩ := List.cons.inj heq
        exact .inl ⟨r, rfl, rfl, hole⟩
    | cons j q =>
        obtain ⟨rfl, rfl⟩ := List.cons.inj heq
        obtain ⟨c, hc, hq⟩ := Option.bind_eq_some_iff.mp hq
        exact .inr ⟨c, hc, q, r, h, hq, hole, rfl⟩
  · rintro (⟨r, rfl, rfl, hole⟩ | ⟨c, hc, q, r, h, hq, hole, rfl⟩)
    · exact ⟨[], r, p, rfl, hole, rfl⟩
    · exact ⟨i :: q, r, h, by rw [subtree?_cons, hc]; exact hq, hole, rfl⟩

theorem not_placeholderAt_nil (t : Expr) (e : Event) : ¬ t.PlaceholderAt e [] := by
  rintro ⟨q, r, h, -, -, heq⟩
  exact absurd heq (by simp)

theorem placeholderAt_right {e' : Event} :
    (binary .mul (.event e) r).PlaceholderAt e' (1 :: p) ↔ e' = e ∧ Hole r p ∨ r.PlaceholderAt e' p := by
  rw [placeholderAt_cons]
  constructor
  · rintro (⟨r', heq, -, hole⟩ | ⟨c, hc, h⟩)
    · cases heq
      exact .inl ⟨rfl, hole⟩
    · cases hc
      exact .inr h
  · rintro (⟨rfl, hole⟩ | h)
    · exact .inl ⟨r, rfl, rfl, hole⟩
    · exact .inr ⟨r, rfl, h⟩

/-- The placeholder of a product is none of the products below it. -/
theorem Hole.not_placeholderAt (h : Hole r p) (e : Event) : ¬ r.PlaceholderAt e p := by
  cases h with
  | whole => exact not_placeholderAt_nil _ e
  | bounded hf =>
      rw [placeholderAt_cons]
      rintro (⟨_, heq, -⟩ | ⟨c, -, hc⟩)
      · cases heq
      · exact not_placeholderAt_nil c e hc

/-- The nodes of the placeholders change, and no others. -/
theorem nodeAt?_expandPlaceholders (t : Expr) (p : List Nat) :
    (∀ e, t.PlaceholderAt e p → t.expandPlaceholders.nodeAt? p = some (.event e.sampled)) ∧
      ((∀ e, ¬ t.PlaceholderAt e p) → t.expandPlaceholders.nodeAt? p = t.nodeAt? p) := by
  induction p generalizing t with
  | nil =>
      refine ⟨fun e h => absurd h (not_placeholderAt_nil t e), fun _ => ?_⟩
      rw [nodeAt?_nil, nodeAt?_nil, node_expandPlaceholders]
  | cons i p ih =>
      rw [nodeAt?_cons, nodeAt?_cons]
      rcases children_expandPlaceholders t with ⟨e, r, rfl, h⟩ | ⟨hno, h⟩
      · rw [h]
        match i with
        | 0 => simpa [placeholderAt_cons, children, expandPlaceholders] using ih (.event e)
        | 1 =>
            simp only [placeholderAt_right, children, List.getElem?_cons_succ, List.getElem?_cons_zero, Option.bind_some]
            by_cases hole : Hole r p
            · have hfill := (hole_expandPlaceholders.mpr hole).nodeAt?_fillPlaceholder e
              simpa [hole, hole.not_placeholderAt] using hfill
            · rw [nodeAt?_fillPlaceholder (fun h => hole (hole_expandPlaceholders.mp h)) e]
              simpa [hole] using ih r
        | i + 2 => simp [placeholderAt_cons, children]
      · rw [h, List.getElem?_map]
        simp only [placeholderAt_cons, hno, false_and, exists_false, false_or]
        cases t.children[i]? with
        | none => simp
        | some c => simpa using ih c

theorem expandPlaceholders_fillPlaceholder (h : r.expandPlaceholders = r) (e : Event) :
    (fillPlaceholder e r).expandPlaceholders = fillPlaceholder e r := by
  rcases fillPlaceholder_cases e r with heq | ⟨-, heq⟩ | ⟨f, as, -, rfl, heq⟩
  · rw [heq, h]
  · rw [heq, expandPlaceholders]
  · rw [expandPlaceholders, expandPlaceholdersList] at h
    rw [heq, expandPlaceholders, expandPlaceholdersList, expandPlaceholders]
    simpa [expandPlaceholders] using h

theorem fillPlaceholder_fillPlaceholder (e : Event) (r : Expr) :
    fillPlaceholder e (fillPlaceholder e r) = fillPlaceholder e r := by
  rcases fillPlaceholder_cases e r with heq | ⟨-, heq⟩ | ⟨f, as, -, -, heq⟩
  · rw [heq, heq]
  · rw [heq, fillPlaceholder, if_neg e.sampled_ne_placeholder]
  · rw [heq, fillPlaceholder, if_neg fun h => e.sampled_ne_placeholder h.1]

theorem expandPlaceholders_expandProduct {op : Operator} (hl : l.expandPlaceholders = l)
    (hr : r.expandPlaceholders = r) : (expandProduct op l r).expandPlaceholders = expandProduct op l r := by
  rcases expandProduct_cases op l r with h | ⟨e, rfl, rfl, h⟩
  · rw [h, expandPlaceholders, hl, hr, h]
  · rw [h, expandPlaceholders, expandPlaceholders, expandPlaceholders_fillPlaceholder hr, expandProduct,
      fillPlaceholder_fillPlaceholder]

mutual

theorem expandPlaceholders_expandPlaceholders (t : Expr) :
    t.expandPlaceholders.expandPlaceholders = t.expandPlaceholders := by
  match t with
  | .literal x => rfl
  | .event e => rfl
  | .binary op l r =>
      exact expandPlaceholders_expandProduct (expandPlaceholders_expandPlaceholders l)
        (expandPlaceholders_expandPlaceholders r)
  | .call f as =>
      rw [expandPlaceholders, expandPlaceholders, expandPlaceholdersList_expandPlaceholdersList as]
  | .conditional v t o =>
      rw [expandPlaceholders, expandPlaceholders, expandPlaceholders_expandPlaceholders v,
        expandPlaceholders_expandPlaceholders t, expandPlaceholders_expandPlaceholders o]

theorem expandPlaceholdersList_expandPlaceholdersList (as : List Expr) :
    expandPlaceholdersList (expandPlaceholdersList as) = expandPlaceholdersList as := by
  match as with
  | [] => rfl
  | a :: as =>
      rw [expandPlaceholdersList, expandPlaceholdersList, expandPlaceholders_expandPlaceholders a,
        expandPlaceholdersList_expandPlaceholdersList as]

end

/-! ## Equality with itself -/

theorem fillPlaceholder_beq_self (e : Event) (r : Expr) :
    (fillPlaceholder e r == fillPlaceholder e r) = (r == r) := by
  rcases fillPlaceholder_cases e r with heq | ⟨rfl, heq⟩ | ⟨f, as, -, rfl, heq⟩
  · rw [heq]
  · rw [heq]
    simp [event_beq_event]
  · rw [heq]
    simp [call_beq_call, cons_equalList_cons, event_beq_event]

theorem expandProduct_beq_self (op : Operator) (l r : Expr) :
    (expandProduct op l r == expandProduct op l r) = (l == l && r == r) := by
  rcases expandProduct_cases op l r with h | ⟨e, rfl, rfl, h⟩
  · rw [h]
    simp [binary_beq_binary]
  · rw [h]
    simp [binary_beq_binary, fillPlaceholder_beq_self]

mutual

/-- No literal changes, so that a tree equals itself if it did before. -/
theorem expandPlaceholders_beq_self (t : Expr) : (t.expandPlaceholders == t.expandPlaceholders) = (t == t) := by
  match t with
  | .literal x => rfl
  | .event e => rfl
  | .binary op l r =>
      rw [expandPlaceholders, expandProduct_beq_self, expandPlaceholders_beq_self l, expandPlaceholders_beq_self r]
      simp [binary_beq_binary]
  | .call f as =>
      rw [expandPlaceholders, call_beq_call, call_beq_call, expandPlaceholdersList_equal_self as]
  | .conditional v t o =>
      simp only [expandPlaceholders, conditional_beq_conditional, expandPlaceholders_beq_self v,
        expandPlaceholders_beq_self t, expandPlaceholders_beq_self o]

theorem expandPlaceholdersList_equal_self (as : List Expr) :
    equalList (expandPlaceholdersList as) (expandPlaceholdersList as) = equalList as as := by
  match as with
  | [] => rfl
  | a :: as =>
      simp only [expandPlaceholdersList, cons_equalList_cons, expandPlaceholders_beq_self a,
        expandPlaceholdersList_equal_self as]

end

/-! ## Exactly the placeholders -/

theorem subtree?_expandPlaceholders (h : t.PlaceholderAt e p) :
    t.expandPlaceholders.subtree? p = some (.event e.sampled) :=
  subtree?_eq_event.mpr ((nodeAt?_expandPlaceholders t p).1 e h)

theorem PlaceholderAt.subtree? (h : t.PlaceholderAt e p) : t.subtree? p = some (.event placeholder) := by
  obtain ⟨q, r, h, hq, hole, rfl⟩ := h
  rw [subtree?_append, hq]
  exact hole.subtree?

theorem not_placeholderAt_expandPlaceholders (t : Expr) (e : Event) (p : List Nat) :
    ¬ t.expandPlaceholders.PlaceholderAt e p := by
  intro h
  have hfilled := subtree?_expandPlaceholders h
  rw [expandPlaceholders_expandPlaceholders, h.subtree?] at hfilled
  exact e.sampled_ne_placeholder (Expr.event.inj (Option.some.inj hfilled)).symm

theorem isSome_subtree?_expandPlaceholders (t : Expr) (p : List Nat) :
    (t.expandPlaceholders.subtree? p).isSome = (t.subtree? p).isSome := by
  by_cases h : ∃ e, t.PlaceholderAt e p
  · obtain ⟨e, h⟩ := h
    rw [subtree?_expandPlaceholders h, h.subtree?]
    rfl
  · rw [isSome_subtree?, isSome_subtree?, (nodeAt?_expandPlaceholders t p).2 (not_exists.mp h)]

/-- The tree keeps its shape. Each placeholder becomes the sampled latency of the event that it is multiplied by, every
other node stays what it is, and a second time nothing changes, as no placeholder is left. -/
theorem expandPlaceholders_exact (t : Expr) :
    (∀ p, (t.expandPlaceholders.subtree? p).isSome = (t.subtree? p).isSome) ∧
      (∀ e p, t.PlaceholderAt e p → t.subtree? p = some (.event placeholder) ∧
        t.expandPlaceholders.subtree? p = some (.event e.sampled) ∧ e.sampled ≠ placeholder) ∧
      (∀ p, (∀ e, ¬ t.PlaceholderAt e p) → t.expandPlaceholders.nodeAt? p = t.nodeAt? p) ∧
      t.expandPlaceholders.expandPlaceholders = t.expandPlaceholders ∧
      (t.expandPlaceholders.expandPlaceholders == t.expandPlaceholders) = (t == t) ∧
      ∀ e p, ¬ t.expandPlaceholders.PlaceholderAt e p := by
  refine ⟨isSome_subtree?_expandPlaceholders t, fun e p h => ?_, fun p h => ?_, ?_, ?_, ?_⟩
  · exact ⟨h.subtree?, subtree?_expandPlaceholders h, e.sampled_ne_placeholder⟩
  · exact (nodeAt?_expandPlaceholders t p).2 h
  · exact expandPlaceholders_expandPlaceholders t
  · rw [expandPlaceholders_expandPlaceholders]
    exact expandPlaceholders_beq_self t
  · exact not_placeholderAt_expandPlaceholders t

/-- `a * max(PEBS, b * PEBS) if PEBS * PEBS else 0` -/
def sampledLatencies : Expr :=
  let unfilled : Expr := .event placeholder
  .conditional (.binary .mul (.ref "a") (.call .max [unfilled, .binary .mul (.ref "b") unfilled]))
    (.binary .mul unfilled unfilled) (.literal 0)

theorem expandPlaceholders_exact_sampledLatencies :
    sampledLatencies.PlaceholderAt (.bare "a") [0, 1, 0] ∧
      sampledLatencies.expandPlaceholders.subtree? [0, 1, 0] = some (.event (Event.bare "a").sampled) ∧
      (∀ e, ¬ sampledLatencies.PlaceholderAt e [1, 0]) ∧
      sampledLatencies.expandPlaceholders.nodeAt? [1, 0] = some (.event placeholder) ∧
      sampledLatencies.expandPlaceholders.print = "a * max(a:R, b * b:R) if PEBS * PEBS:R else 0" := by
  have hat : sampledLatencies.PlaceholderAt (.bare "a") [0, 1, 0] := ⟨[0], _, [0], rfl, .bounded (.inr rfl), rfl⟩
  have hnone (e : Event) : ¬ sampledLatencies.PlaceholderAt e [1, 0] := by
    simp [placeholderAt_cons, sampledLatencies, children, not_placeholderAt_nil]
  obtain ⟨-, hfilled, hkept, -⟩ := expandPlaceholders_exact sampledLatencies
  refine ⟨hat, (hfilled _ _ hat).2.1, hnone, ?_, by decide +kernel⟩
  rw [hkept _ hnone]
  rfl

end Expr

end MetricFormula
