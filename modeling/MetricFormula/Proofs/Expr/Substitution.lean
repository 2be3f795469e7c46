import MetricFormula.Expr.Printer
import MetricFormula.Proofs.Expr.Position
import MetricFormula.Proofs.Expr.Replace

/-!
# Laws of substitution

A substitution leaves no occurrence of what it takes out, and it can be undone if what it puts in is new to the tree.
What contains an inserted tree without being one is larger than it, and so no other occurrence of it can arise.
-/

namespace MetricFormula.Expr

variable {t n r : Expr}

/-! ## Below the root -/

/-- A tree that is not replaced as a whole keeps its root. -/
theorem node_replace (h : ¬ t == n) (r : Expr) : (t.replace n r).node = t.node := by
  cases t with
  | call f as => rw [replace, if_neg h, node, node, replaceList_eq_map, List.length_map]
  | _ => simp [replace, h, node]

theorem children_replace (h : ¬ t == n) (r : Expr) : (t.replace n r).children = t.children.map (·.replace n r) := by
  cases t with
  | call f as =>
      rw [replace, if_neg h]
      exact replaceList_eq_map as n r
  | _ => simp [replace, h, children]

/-! ## Occurrences of what is put in -/

/-- What is put in is found in the result. -/
theorem contains_replace (hr : r.NanFree) (h : t.contains n) : (t.replace n r).contains r := by
  induction t using induction_children with
  | step t ih =>
    rw [contains_iff_children]
    by_cases heq : t == n
    · rw [replace_of_beq heq]
      exact .inl ((beq_self_iff r).mpr hr)
    · obtain ⟨c, hc, hcn⟩ := (contains_iff_children.mp h).resolve_left heq
      rw [children_replace heq]
      exact .inr ⟨_, List.mem_map_of_mem hc, ih c hc hcn⟩

/-- A result that is not itself inserted is larger than what is inserted into it. -/
theorem nodeCount_lt_replace (hr : r.NanFree) (heq : ¬ t == n) (h : t.contains n) :
    r.nodeCount < (t.replace n r).nodeCount := by
  obtain ⟨c, hc, hcn⟩ := (contains_iff_children.mp h).resolve_left heq
  have hmem : c.replace n r ∈ (t.replace n r).children := by
    rw [children_replace heq]
    exact List.mem_map_of_mem hc
  calc r.nodeCount ≤ (c.replace n r).nodeCount := nodeCount_le_of_contains (contains_replace hr hcn)
    _ < (t.replace n r).nodeCount := nodeCount_children hmem

/-- In a tree without `r` only the inserted trees are equal to it. -/
theorem not_replace_beq (hr : r.NanFree) (heq : ¬ t == n) (h : ¬ t.contains r) : ¬ t.replace n r == r := by
  intro hroot
  by_cases hn : t.contains n
  · have hlt := nodeCount_lt_replace hr heq hn
    rw [nodeCount_of_beq hroot] at hlt
    exact Nat.lt_irrefl _ hlt
  · rw [replace_eq_self hn] at hroot
    exact h (contains_iff_children.mpr (.inl hroot))

/-! ## The laws -/

theorem replace_replace (ht : t.NanFree) (hr : r.NanFree) (h : ¬ t.contains r) :
    (t.replace n r).replace r n == t := by
  induction t using induction_children with
  | step t ih =>
    by_cases heq : t == n
    · rw [replace_of_beq heq, replace_of_beq ((beq_self_iff r).mpr hr)]
      exact beq_symm heq
    · have hroot := not_replace_beq hr heq h
      have hbelow : ∀ c ∈ t.children, (c.replace n r).replace r n == c := fun c hc =>
        ih c hc (ht.children c hc) fun hcr => h (contains_iff_children.mpr (.inr ⟨c, hc, hcr⟩))
      apply beq_symm
      apply beq_of_children ht
      · rw [node_replace hroot, node_replace heq]
      · rw [children_replace hroot, children_replace heq, List.map_map]
        exact equalList_symm (equalList_map hbelow)

/-- An occurrence that is not left over would be inserted, or formed around an inserted tree. -/
theorem not_contains_replace (hr : r.NanFree) (hnr : ¬ n.contains r) (hrn : ¬ r.contains n) :
    ¬ (t.replace n r).contains n := by
  induction t using induction_children with
  | step t ih =>
    by_cases heq : t == n
    · rwa [replace_of_beq heq]
    · rw [contains_iff_children, children_replace heq]
      rintro (hroot | ⟨c, hc, hcn⟩)
      · by_cases hn : t.contains n
        · have hself : n.contains (t.replace n r) := contains_iff_children.mpr (.inl (beq_symm hroot))
          exact hnr (contains_trans hself (contains_replace hr hn))
        · rw [replace_eq_self hn] at hroot
          exact heq hroot
      · obtain ⟨b, hb, rfl⟩ := List.mem_map.mp hc
        exact ih b hb hcn

/-- A substitution can be undone if what it puts in is new to the tree. It leaves and forms no occurrence of what it
takes out, unless one of the two trees occurs in the other. -/
theorem replace_laws (ht : t.NanFree) (hr : r.NanFree) :
    (¬ t.contains r → (t.replace n r).replace r n == t) ∧
      (¬ n.contains r → ¬ r.contains n → ¬ (t.replace n r).contains n) :=
  ⟨replace_replace ht hr, not_contains_replace hr⟩

/-- `0 / x + -0 / x` -/
def zeroRates : Expr :=
  let rate (negative : Bool) : Expr := .binary .div (.literal (.zero negative)) (.ref "x")
  .binary .add (rate false) (rate true)

/-- Both zeros are one number, and both quotients become a reference and the quotient of `-0` again. -/
theorem replace_laws_zeroRates :
    zeroRates.NanFree ∧ (ref "Rate").NanFree ∧
      ∃ rate : Expr, rate.print = "-0 / x" ∧ (zeroRates.replace rate (.ref "Rate")).print = "Rate + Rate" ∧
        ((zeroRates.replace rate (.ref "Rate")).replace (.ref "Rate") rate).print = "-0 / x + -0 / x" ∧
        (zeroRates.replace rate (.ref "Rate")).replace (.ref "Rate") rate == zeroRates ∧
        ¬ (zeroRates.replace rate (.ref "Rate")).contains rate := by
  have hfree : zeroRates.NanFree := by simp [zeroRates, NanFree, Binary64.zero, ref]
  have hrate : (ref "Rate").NanFree := trivial
  refine ⟨hfree, hrate, .binary .div (.literal (.zero true)) (.ref "x"), ?_⟩
  obtain ⟨hundo, hnone⟩ := replace_laws (n := .binary .div (.literal (.zero true)) (.ref "x")) hfree hrate
  exact ⟨by decide +kernel, by decide +kernel, by decide +kernel, hundo (by decide +kernel),
    hnone (by decide +kernel) (by decide +kernel)⟩

end MetricFormula.Expr
