import MetricFormula.Proofs.Expr.Simplify
import MetricFormula.Proofs.FormulaSet.Cycles
import MetricFormula.Proofs.FormulaSet.Inlining

/-!
# The definitions after the rewriting

References that are put in do not change what a tree is inlined to with the simplified definitions. The final
definitions have no cycles either, and inlining with them agrees with that by induction on the inlining itself.
-/

namespace MetricFormula.FormulaSet

open Relation (TransGen)

variable {s : FormulaSet}

/-! ## References put in -/

/-- Trees that are inlined alike with the definitions of a set. -/
structure Alike (s : FormulaSet) (e e' : Expr) : Prop where
  finite : e'.Finite
  agree : ∀ {a b}, Inlines s e a → Inlines s e' b → a == b

theorem Alike.refl (hs : s.Finite) {e : Expr} (he : e.Finite) : Alike s e e :=
  ⟨he, fun ha hb => ha.congr hs hb (Expr.beq_self e he)⟩

theorem Alike.replace (hs : s.Finite) (hacyclic : ∀ n, ¬ TransGen s.Refers n n) {e e' t : Expr} (h : Alike s e e')
    {source : String} (ht : s.get? source = some t) : Alike s e (e'.replace t (.ref source)) := by
  refine ⟨Expr.finite_replace _ _ h.finite trivial, fun hx hy => ?_⟩
  obtain ⟨z, hz⟩ := exists_inlines hacyclic _
  exact Expr.beq_trans (h.agree hx hz) (hz.replace hs ht h.finite hy)

theorem finite_simplified (hs : s.Finite) : s.simplified.Finite := by
  intro n t ht
  obtain ⟨e, he, rfl⟩ := get?_simplified.mp ht
  exact Expr.finite_simplify (hs n e he)

/-- A final definition is inlined like the simplified one. -/
theorem alike_finals (hs : s.simplified.Finite) (hacyclic : ∀ n, ¬ TransGen s.simplified.Refers n n) {n : String}
    {t f : Expr} (ht : s.simplified.get? n = some t) (hf : s.finals.get? n = some f) : Alike s.simplified t f :=
  finals_of_simplified (fun _ _ _ hu h => h.replace hs hacyclic hu) ht hf (.refl hs (hs n t ht))

/-! ## Inlining with the final definitions -/

mutual

/-- Inlining with the final definitions agrees with inlining with the simplified ones. -/
theorem Inlines.of_finals (hs : s.simplified.Finite) (hacyclic : ∀ n, ¬ TransGen s.simplified.Refers n n) {e a b}
    (h : Inlines s.finals e a) (he : e.Finite) (h' : Inlines s.simplified e b) : a == b := by
  match h with
  | .literal =>
      cases h'
      exact Expr.beq_self _ he
  | .event hfree =>
      cases h' with
      | event _ => exact Expr.beq_self _ he
      | reference ht _ =>
          obtain ⟨f, hf⟩ := exists_finals ht
          rw [hfree _ rfl] at hf
          cases hf
  | .reference hf h =>
      obtain ⟨t, ht⟩ := exists_simplified hf
      have halike := alike_finals hs hacyclic ht hf
      -- The final definition of the name, inlined with the simplified definitions, stands between the two.
      obtain ⟨c, hc⟩ := exists_inlines hacyclic _
      have hfinal := h.of_finals hs hacyclic halike.finite hc
      have hsimplified := halike.agree ((inlines_ref ht).mp h') hc
      exact Expr.beq_trans hfinal (Expr.beq_symm hsimplified)
  | .binary hl hr =>
      cases h' with
      | binary hl' hr' =>
          exact Expr.binary_beq.mpr
            ⟨_, _, rfl, hl.of_finals hs hacyclic he.1 hl', hr.of_finals hs hacyclic he.2 hr'⟩
  | .call has =>
      cases h' with
      | call has' => exact Expr.call_beq.mpr ⟨_, rfl, has.of_finals hs hacyclic he has'⟩
  | .conditional hv ht ho =>
      cases h' with
      | conditional hv' ht' ho' =>
          exact Expr.conditional_beq.mpr
            ⟨_, _, _, rfl, hv.of_finals hs hacyclic he.1 hv', ht.of_finals hs hacyclic he.2.1 ht',
              ho.of_finals hs hacyclic he.2.2 ho'⟩

theorem InlinesList.of_finals (hs : s.simplified.Finite) (hacyclic : ∀ n, ¬ TransGen s.simplified.Refers n n) {es as bs}
    (h : InlinesList s.finals es as) (hes : Expr.FiniteList es) (h' : InlinesList s.simplified es bs) :
    Expr.equalList as bs := by
  match h with
  | .nil =>
      cases h'
      rfl
  | .cons h hs' =>
      cases h' with
      | cons h' hs'' =>
          exact Expr.cons_equalList.mpr
            ⟨_, _, rfl, h.of_finals hs hacyclic hes.1 h', hs'.of_finals hs hacyclic hes.2 hs''⟩

end

/-- The rewriting keeps what every formula stands for: inlined completely, each by its own definitions, the final and
the simplified trees of a formula are equal. -/
theorem inlines_finals (hs : s.Finite) (hacyclic : ∀ n, ¬ TransGen s.simplified.Refers n n) {n : String} {t : Expr}
    (ht : s.simplified.get? n = some t) :
    ∃ f, s.finals.get? n = some f ∧ (∃ a, Inlines s.finals f a) ∧ (∃ b, Inlines s.simplified t b) ∧
      ∀ a b, Inlines s.finals f a → Inlines s.simplified t b → a == b := by
  have hfinite := finite_simplified hs
  have hacyclic' (n : String) : ¬ TransGen s.finals.Refers n n :=
    fun hcycle => hacyclic n (path_of_return hcycle .refl)
  obtain ⟨f, hf⟩ := exists_finals ht
  refine ⟨f, hf, exists_inlines hacyclic' f, exists_inlines hacyclic t, fun a b ha hb => ?_⟩
  have halike := alike_finals hfinite hacyclic ht hf
  obtain ⟨c, hc⟩ := exists_inlines hacyclic f
  have hfinal := ha.of_finals hfinite hacyclic halike.finite hc
  exact Expr.beq_trans hfinal (Expr.beq_symm (halike.agree hb hc))

theorem ratePercent_finite : ratePercent.Finite := by
  intro n t ht
  have hmem := Table.get?_eq_some.mp ht
  have hentries : ratePercent.entries = [("Rate", .binary .div (.ref "x") (.ref "y")),
    ("Percent", .binary .mul (.literal (.ofNat 100)) (.binary .div (.ref "x") (.ref "y")))] := rfl
  rw [hentries, List.mem_cons, List.mem_singleton] at hmem
  rcases hmem with heq | heq
  · cases heq
    exact ⟨trivial, trivial⟩
  · cases heq
    have hhundred : (Binary64.ofNat 100).isFinite := by decide +kernel
    exact ⟨hhundred, trivial, trivial⟩

theorem inlines_finals_ratePercent :
    ∃ t f, ratePercent.simplified.get? "Percent" = some t ∧ ratePercent.finals.get? "Percent" = some f ∧
      Event.bare "Rate" ∈ f.events ∧
      ∃ a b, Inlines ratePercent.finals f a ∧ Inlines ratePercent.simplified t b ∧ a == b := by
  have hcontains : ratePercent.simplified.contains "Percent" := by decide +kernel
  have hrefers : ratePercent.finals.Refers "Percent" "Rate" := by decide +kernel
  obtain ⟨t, ht⟩ := Table.contains_iff.mp hcontains
  obtain ⟨f, hf, ⟨a, ha⟩, ⟨b, hb⟩, hequal⟩ := inlines_finals ratePercent_finite ratePercent_acyclic ht
  obtain ⟨f', hf', hrate, -⟩ := hrefers
  cases hf.symm.trans hf'
  exact ⟨t, f, ht, hf, hrate, a, b, ha, hb, hequal a b ha hb⟩

end MetricFormula.FormulaSet
