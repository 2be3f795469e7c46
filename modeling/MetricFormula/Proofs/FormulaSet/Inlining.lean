import Mathlib.Data.Fintype.Card
import Mathlib.Data.Fintype.EquivFin
import MetricFormula.Proofs.Expr.Replace
import MetricFormula.Proofs.FormulaSet.Rewriting

/-! Complete inlining: references to the formulas of a set give way to their definitions until none is left. -/

namespace MetricFormula.FormulaSet

open Relation (TransGen)

variable {s : FormulaSet}

mutual

/-- `s.Inlines e a`: the tree `e` becomes `a` when it is inlined completely with the definitions of `s`. -/
inductive Inlines (s : FormulaSet) : Expr → Expr → Prop where
  | literal {x} : Inlines s (.literal x) (.literal x)
  | event {e} : (∀ m, e = .bare m → s.get? m = none) → Inlines s (.event e) (.event e)
  | reference {m t a} : s.get? m = some t → Inlines s t a → Inlines s (.event (.bare m)) a
  | binary {op l r a b} : Inlines s l a → Inlines s r b → Inlines s (.binary op l r) (.binary op a b)
  | call {f as bs} : InlinesList s as bs → Inlines s (.call f as) (.call f bs)
  | conditional {v t o a b c} : Inlines s v a → Inlines s t b → Inlines s o c →
      Inlines s (.conditional v t o) (.conditional a b c)

inductive InlinesList (s : FormulaSet) : List Expr → List Expr → Prop where
  | nil : InlinesList s [] []
  | cons {e a es as} : Inlines s e a → InlinesList s es as → InlinesList s (e :: es) (a :: as)

end

theorem bare_injective {m n : String} (h : Event.bare m = Event.bare n) : m = n := congrArg Event.name h

theorem inlines_ref {m : String} {t a : Expr} (ht : s.get? m = some t) : Inlines s (.ref m) a ↔ Inlines s t a := by
  constructor
  · intro h
    generalize he : Expr.ref m = e at h
    match h with
    | .literal => cases he
    | .event hfree =>
        cases he
        rw [hfree m rfl] at ht
        cases ht
    | .reference ht' h =>
        cases bare_injective (Expr.event.inj he)
        cases ht.symm.trans ht'
        exact h
    | .binary _ _ => cases he
    | .call _ => cases he
    | .conditional _ _ _ => cases he
  · exact .reference ht

/-! ## No reference is left -/

mutual

theorem Inlines.complete {e a} (h : Inlines s e a) : ∀ m, Event.bare m ∈ a.events → s.get? m = none := by
  match h with
  | .literal => exact nofun
  | .event hfree => exact fun m hm => hfree m (List.mem_singleton.mp hm).symm
  | .reference _ h => exact h.complete
  | .binary hl hr =>
      intro m hm
      rcases List.mem_append.mp hm with hm | hm
      · exact hl.complete m hm
      · exact hr.complete m hm
  | .call hs => exact hs.complete
  | .conditional hv ht ho =>
      intro m hm
      rcases List.mem_append.mp hm with hm | hm
      · rcases List.mem_append.mp hm with hm | hm
        · exact hv.complete m hm
        · exact ht.complete m hm
      · exact ho.complete m hm

theorem InlinesList.complete {es as} (h : InlinesList s es as) :
    ∀ m, Event.bare m ∈ Expr.eventsList as → s.get? m = none := by
  match h with
  | .nil => exact nofun
  | .cons h hs =>
      intro m hm
      rcases List.mem_append.mp hm with hm | hm
      · exact h.complete m hm
      · exact hs.complete m hm

end

/-! ## Existence -/

mutual

/-- A tree can be inlined if the formulas that it refers to can be. -/
theorem exists_inlines_of_references (e : Expr)
    (h : ∀ m, Event.bare m ∈ e.events → ∀ t, s.get? m = some t → ∃ a, Inlines s t a) : ∃ a, Inlines s e a := by
  match e with
  | .literal x => exact ⟨_, .literal⟩
  | .event e =>
      by_cases hbare : e = .bare e.name
      · rw [hbare]
        cases hget : s.get? e.name with
        | none => exact ⟨_, .event fun m hm => bare_injective hm ▸ hget⟩
        | some t =>
            obtain ⟨a, ha⟩ := h e.name (hbare ▸ List.mem_singleton_self e) t hget
            exact ⟨a, .reference hget ha⟩
      · refine ⟨_, .event fun m hm => absurd ?_ hbare⟩
        rw [hm]
        rfl
  | .binary op l r =>
      obtain ⟨a, ha⟩ := exists_inlines_of_references l fun m hm => h m (List.mem_append_left _ hm)
      obtain ⟨b, hb⟩ := exists_inlines_of_references r fun m hm => h m (List.mem_append_right _ hm)
      exact ⟨_, .binary ha hb⟩
  | .call f as =>
      obtain ⟨bs, hbs⟩ := exists_inlinesList_of_references as h
      exact ⟨_, .call hbs⟩
  | .conditional v t o =>
      obtain ⟨a, ha⟩ := exists_inlines_of_references v fun m hm => h m (by simp [Expr.events, hm])
      obtain ⟨b, hb⟩ := exists_inlines_of_references t fun m hm => h m (by simp [Expr.events, hm])
      obtain ⟨c, hc⟩ := exists_inlines_of_references o fun m hm => h m (by simp [Expr.events, hm])
      exact ⟨_, .conditional ha hb hc⟩

theorem exists_inlinesList_of_references (es : List Expr)
    (h : ∀ m, Event.bare m ∈ Expr.eventsList es → ∀ t, s.get? m = some t → ∃ a, Inlines s t a) :
    ∃ as, InlinesList s es as := by
  match es with
  | [] => exact ⟨_, .nil⟩
  | e :: es =>
      obtain ⟨a, ha⟩ := exists_inlines_of_references e fun m hm => h m (List.mem_append_left _ hm)
      obtain ⟨as, has⟩ := exists_inlinesList_of_references es fun m hm => h m (List.mem_append_right _ hm)
      exact ⟨_, .cons ha has⟩

end

/-- The definitions of a set without cycles can be inlined: each refers only to names below its own. -/
theorem exists_inlines_definition (hacyclic : ∀ n, ¬ TransGen s.Refers n n) (n : {n // n ∈ s.names}) {t : Expr}
    (ht : s.get? n = some t) : ∃ a, Inlines s t a := by
  let below (m n : {n // n ∈ s.names}) : Prop := TransGen s.Refers n m
  have : IsTrans _ below := ⟨fun _ _ _ h h' => h'.trans h⟩
  have : Std.Irrefl below := ⟨fun n => hacyclic n⟩
  have hwf : WellFounded below := Finite.wellFounded_of_trans_of_irrefl below
  induction n using hwf.induction generalizing t with
  | _ n ih =>
      refine exists_inlines_of_references t fun m hm t' ht' => ?_
      have hcontains : s.contains m := Table.contains_iff.mpr ⟨t', ht'⟩
      exact ih ⟨m, Table.contains_iff_mem_names.mp hcontains⟩ (.single ⟨t, ht, hm, hcontains⟩) ht'

theorem exists_inlines (hacyclic : ∀ n, ¬ TransGen s.Refers n n) (e : Expr) : ∃ a, Inlines s e a := by
  refine exists_inlines_of_references e fun m _ t ht => ?_
  have hcontains : s.contains m := Table.contains_iff.mpr ⟨t, ht⟩
  exact exists_inlines_definition hacyclic ⟨m, Table.contains_iff_mem_names.mp hcontains⟩ ht

/-! ## Equal trees -/

/-- Every definition has finite literals. -/
def Finite (s : FormulaSet) : Prop := ∀ n t, s.get? n = some t → t.Finite

mutual

/-- Equal trees are inlined to equal trees. -/
theorem Inlines.congr (hs : s.Finite) {e e' a a'} (h : Inlines s e a) (h' : Inlines s e' a') (heq : e == e') :
    a == a' := by
  match h with
  | .literal =>
      obtain ⟨y, rfl, hxy⟩ := Expr.literal_beq.mp heq
      cases h'
      exact heq
  | .event hfree =>
      obtain rfl := Expr.event_beq.mp heq
      cases h' with
      | event _ => exact heq
      | reference ht _ =>
          rw [hfree _ rfl] at ht
          cases ht
  | .reference ht h =>
      obtain rfl := Expr.event_beq.mp heq
      exact h.congr hs ((inlines_ref ht).mp h') (Expr.beq_self _ (hs _ _ ht))
  | .binary hl hr =>
      obtain ⟨l', r', rfl, heql, heqr⟩ := Expr.binary_beq.mp heq
      cases h' with
      | binary hl' hr' => exact Expr.binary_beq.mpr ⟨_, _, rfl, hl.congr hs hl' heql, hr.congr hs hr' heqr⟩
  | .call has =>
      obtain ⟨bs, rfl, heqs⟩ := Expr.call_beq.mp heq
      cases h' with
      | call has' => exact Expr.call_beq.mpr ⟨_, rfl, has.congr hs has' heqs⟩
  | .conditional hv ht ho =>
      obtain ⟨v', t', o', rfl, heqv, heqt, heqo⟩ := Expr.conditional_beq.mp heq
      cases h' with
      | conditional hv' ht' ho' =>
          exact Expr.conditional_beq.mpr
            ⟨_, _, _, rfl, hv.congr hs hv' heqv, ht.congr hs ht' heqt, ho.congr hs ho' heqo⟩

theorem InlinesList.congr (hs : s.Finite) {es es' as as'} (h : InlinesList s es as) (h' : InlinesList s es' as')
    (heq : Expr.equalList es es') : Expr.equalList as as' := by
  match h with
  | .nil =>
      obtain rfl := Expr.nil_equalList.mp heq
      cases h'
      rfl
  | .cons h hs' =>
      obtain ⟨b, bs, rfl, heq, heqs⟩ := Expr.cons_equalList.mp heq
      cases h' with
      | cons h' hs'' => exact Expr.cons_equalList.mpr ⟨_, _, rfl, h.congr hs h' heq, hs'.congr hs hs'' heqs⟩

end

/-! ## References in place of definitions -/

mutual

/-- A reference put in the place of its definition does not change what a tree is inlined to. -/
theorem Inlines.replace (hs : s.Finite) {m t} (ht : s.get? m = some t) {e a b} (h : Inlines s e a) (he : e.Finite)
    (h' : Inlines s (e.replace t (.ref m)) b) : a == b := by
  by_cases heq : e == t
  · rw [Expr.replace_of_beq heq] at h'
    exact h.congr hs ((inlines_ref ht).mp h') heq
  · match h with
    | .literal =>
        rw [Expr.replace, if_neg heq] at h'
        exact Inlines.literal.congr hs h' (Expr.beq_self _ he)
    | .event hfree =>
        rw [Expr.replace, if_neg heq] at h'
        exact (Inlines.event hfree).congr hs h' (Expr.beq_self _ he)
    | .reference ht' h =>
        rw [Expr.replace, if_neg heq] at h'
        exact (Inlines.reference ht' h).congr hs h' (Expr.beq_self _ he)
    | .binary hl hr =>
        rw [Expr.replace, if_neg heq] at h'
        cases h' with
        | binary hl' hr' => exact Expr.binary_beq.mpr ⟨_, _, rfl, hl.replace hs ht he.1 hl', hr.replace hs ht he.2 hr'⟩
    | .call has =>
        rw [Expr.replace, if_neg heq] at h'
        cases h' with
        | call has' => exact Expr.call_beq.mpr ⟨_, rfl, has.replaceList hs ht he has'⟩
    | .conditional hv htest ho =>
        rw [Expr.replace, if_neg heq] at h'
        cases h' with
        | conditional hv' htest' ho' =>
            exact Expr.conditional_beq.mpr
              ⟨_, _, _, rfl, hv.replace hs ht he.1 hv', htest.replace hs ht he.2.1 htest', ho.replace hs ht he.2.2 ho'⟩

theorem InlinesList.replaceList (hs : s.Finite) {m t} (ht : s.get? m = some t) {es as bs} (h : InlinesList s es as)
    (hes : Expr.FiniteList es) (h' : InlinesList s (Expr.replaceList es t (.ref m)) bs) : Expr.equalList as bs := by
  match h with
  | .nil =>
      cases h'
      rfl
  | .cons h hs' =>
      cases h' with
      | cons h' hs'' =>
          exact Expr.cons_equalList.mpr ⟨_, _, rfl, h.replace hs ht hes.1 h', hs'.replaceList hs ht hes.2 hs''⟩

end

end MetricFormula.FormulaSet
