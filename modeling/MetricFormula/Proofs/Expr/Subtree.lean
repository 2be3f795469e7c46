import MetricFormula.Expr.Subtree
import MetricFormula.Proofs.Expr.Equality

/-! The trees within a tree, and the sizes of equal trees and of subtrees. -/

namespace MetricFormula.Expr

mutual

/-- The tree and all trees within it. -/
def subtrees : Expr → List Expr
  | .literal x => [.literal x]
  | .event e => [.event e]
  | .binary op l r => .binary op l r :: (l.subtrees ++ r.subtrees)
  | .call f as => .call f as :: subtreesList as
  | .conditional v t o => .conditional v t o :: (v.subtrees ++ t.subtrees ++ o.subtrees)

def subtreesList : List Expr → List Expr
  | [] => []
  | a :: as => a.subtrees ++ subtreesList as

end

theorem self_mem_subtrees (t : Expr) : t ∈ t.subtrees := by
  cases t <;> exact List.mem_cons_self

mutual

theorem nodeCount_of_beq {a b : Expr} (h : a == b) : a.nodeCount = b.nodeCount := by
  match a with
  | .literal x =>
      obtain ⟨y, rfl, -⟩ := literal_beq.mp h
      rfl
  | .event e =>
      obtain rfl := event_beq.mp h
      rfl
  | .binary op l r =>
      obtain ⟨l', r', rfl, hl, hr⟩ := binary_beq.mp h
      rw [nodeCount, nodeCount, nodeCount_of_beq hl, nodeCount_of_beq hr]
  | .call f as =>
      obtain ⟨bs, rfl, hs⟩ := call_beq.mp h
      rw [nodeCount, nodeCount, nodeCountList_of_equalList hs]
  | .conditional v t o =>
      obtain ⟨v', t', o', rfl, hv, ht, ho⟩ := conditional_beq.mp h
      rw [nodeCount, nodeCount, nodeCount_of_beq hv, nodeCount_of_beq ht, nodeCount_of_beq ho]

theorem nodeCountList_of_equalList {as bs : List Expr} (h : equalList as bs) :
    nodeCountList as = nodeCountList bs := by
  match as with
  | [] =>
      obtain rfl := nil_equalList.mp h
      rfl
  | a :: as =>
      obtain ⟨b, bs, rfl, hab, hs⟩ := cons_equalList.mp h
      rw [nodeCountList, nodeCountList, nodeCount_of_beq hab, nodeCountList_of_equalList hs]

end

mutual

/-- A tree that occurs in another is equal to it or smaller. -/
theorem beq_or_nodeCount_lt {t n : Expr} (h : t.contains n) : t == n ∨ n.nodeCount < t.nodeCount := by
  match t with
  | .literal x => exact .inl h
  | .event e => exact .inl h
  | .binary op a b =>
      simp only [contains, Bool.or_eq_true] at h
      rcases h with (h | h) | h
      · exact .inl h
      · have := nodeCount_le_of_contains h
        simp only [nodeCount]
        omega
      · have := nodeCount_le_of_contains h
        simp only [nodeCount]
        omega
  | .call f as =>
      simp only [contains, Bool.or_eq_true] at h
      rcases h with h | h
      · exact .inl h
      · have := nodeCount_le_of_containsList h
        simp only [nodeCount]
        omega
  | .conditional v t o =>
      simp only [contains, Bool.or_eq_true] at h
      rcases h with ((h | h) | h) | h
      · exact .inl h
      · have := nodeCount_le_of_contains h
        simp only [nodeCount]
        omega
      · have := nodeCount_le_of_contains h
        simp only [nodeCount]
        omega
      · have := nodeCount_le_of_contains h
        simp only [nodeCount]
        omega

theorem nodeCount_le_of_contains {t n : Expr} (h : t.contains n) : n.nodeCount ≤ t.nodeCount := by
  rcases beq_or_nodeCount_lt h with heq | hlt
  · exact Nat.le_of_eq (nodeCount_of_beq heq).symm
  · exact Nat.le_of_lt hlt

theorem nodeCount_le_of_containsList {as : List Expr} {n : Expr} (h : containsList as n) :
    n.nodeCount ≤ nodeCountList as := by
  match as with
  | [] => cases h
  | a :: as =>
      simp only [containsList, Bool.or_eq_true] at h
      rcases h with h | h
      · have := nodeCount_le_of_contains h
        simp only [nodeCountList]
        omega
      · have := nodeCount_le_of_containsList h
        simp only [nodeCountList]
        omega

end

end MetricFormula.Expr
