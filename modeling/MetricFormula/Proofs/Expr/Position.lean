import MetricFormula.Proofs.Expr.Subtree

/-! Positions in a tree: the way to a subtree, as the numbers of the children that it passes. -/

namespace MetricFormula.Expr

/-- A node without the trees below it. -/
inductive Node where
  | literal (value : Binary64)
  | event (event : Event)
  | binary (op : Operator)
  | call (function : Builtin) (arity : Nat)
  | conditional

def node : Expr → Node
  | .literal x => .literal x
  | .event e => .event e
  | .binary op _ _ => .binary op
  | .call f as => .call f as.length
  | .conditional .. => .conditional

/-- The trees right below the root, from left to right. -/
def children : Expr → List Expr
  | .literal _ | .event _ => []
  | .binary _ l r => [l, r]
  | .call _ as => as
  | .conditional v t o => [v, t, o]

/-- The tree at a position; `none` if the position is not in the tree. -/
def subtree? (t : Expr) : List Nat → Option Expr
  | [] => some t
  | i :: p => t.children[i]?.bind fun c => c.subtree? p

def nodeAt? (t : Expr) (p : List Nat) : Option Node := (t.subtree? p).map node

variable {t : Expr} {i : Nat} {p : List Nat}

@[simp] theorem subtree?_nil (t : Expr) : t.subtree? [] = some t := rfl

@[simp] theorem nodeAt?_nil (t : Expr) : t.nodeAt? [] = some t.node := rfl

theorem subtree?_cons (t : Expr) (i : Nat) (p : List Nat) :
    t.subtree? (i :: p) = t.children[i]?.bind fun c => c.subtree? p := rfl

theorem subtree?_append (t : Expr) (p q : List Nat) :
    t.subtree? (p ++ q) = (t.subtree? p).bind fun w => w.subtree? q := by
  induction p generalizing t with
  | nil => rfl
  | cons i p ih =>
      rw [List.cons_append, subtree?_cons, subtree?_cons]
      cases t.children[i]? with
      | none => rfl
      | some c => exact ih c

theorem nodeAt?_cons (t : Expr) (i : Nat) (p : List Nat) :
    t.nodeAt? (i :: p) = t.children[i]?.bind fun c => c.nodeAt? p := by
  rw [nodeAt?, subtree?_cons]
  cases t.children[i]? <;> rfl

/-- Nothing is below a leaf. -/
theorem nodeAt?_cons_of_leaf (h : t.children = []) : t.nodeAt? (i :: p) = none := by
  simp [nodeAt?_cons, h]

theorem subtree?_eq_event {e : Event} : t.subtree? p = some (.event e) ↔ t.nodeAt? p = some (.event e) := by
  rw [nodeAt?, Option.map_eq_some_iff]
  constructor
  · intro h
    exact ⟨_, h, rfl⟩
  · rintro ⟨w, hw, hnode⟩
    cases w <;> cases hnode
    exact hw

theorem isSome_subtree? (t : Expr) (p : List Nat) : (t.subtree? p).isSome = (t.nodeAt? p).isSome := by
  rw [nodeAt?, Option.isSome_map]

/-! ## Below the root -/

mutual

/-- Induction by the trees right below the root. -/
theorem induction_children {motive : Expr → Prop} (step : ∀ t, (∀ c ∈ t.children, motive c) → motive t) (t : Expr) :
    motive t := by
  match t with
  | .literal x => exact step _ (List.forall_mem_nil _)
  | .event e => exact step _ (List.forall_mem_nil _)
  | .binary op l r =>
      apply step
      simpa [children] using ⟨induction_children step l, induction_children step r⟩
  | .call f as => exact step _ (forall_of_induction_children step as)
  | .conditional v t o =>
      apply step
      simpa [children] using ⟨induction_children step v, induction_children step t, induction_children step o⟩

theorem forall_of_induction_children {motive : Expr → Prop} (step : ∀ t, (∀ c ∈ t.children, motive c) → motive t)
    (as : List Expr) : ∀ a ∈ as, motive a := by
  match as with
  | [] => exact List.forall_mem_nil _
  | a :: as => exact List.forall_mem_cons.mpr ⟨induction_children step a, forall_of_induction_children step as⟩

end

/-- What is somewhere in a tree is at its root or in a tree right below. -/
theorem exists_subtree?_iff {P : Expr → Prop} : (∃ p w, t.subtree? p = some w ∧ P w) ↔
    P t ∨ ∃ c ∈ t.children, ∃ p w, c.subtree? p = some w ∧ P w := by
  constructor
  · rintro ⟨p, w, hp, hw⟩
    cases p with
    | nil =>
        cases hp
        exact .inl hw
    | cons i p =>
        obtain ⟨c, hc, hp⟩ := Option.bind_eq_some_iff.mp hp
        exact .inr ⟨c, List.mem_of_getElem? hc, p, w, hp, hw⟩
  · rintro (h | ⟨c, hc, p, w, hp, hw⟩)
    · exact ⟨[], t, rfl, h⟩
    · obtain ⟨i, hi⟩ := List.mem_iff_getElem?.mp hc
      exact ⟨i :: p, w, by rw [subtree?_cons, hi]; exact hp, hw⟩

theorem nodeCount_le_nodeCountList {a : Expr} {as : List Expr} (h : a ∈ as) : a.nodeCount ≤ nodeCountList as := by
  induction as with
  | nil => cases h
  | cons b as ih =>
      rw [nodeCountList]
      rcases List.mem_cons.mp h with rfl | h
      · exact Nat.le_add_right _ _
      · exact Nat.le_add_left_of_le (ih h)

theorem nodeCount_children {c : Expr} (hc : c ∈ t.children) : c.nodeCount < t.nodeCount := by
  cases t with
  | literal x => cases hc
  | event e => cases hc
  | binary op l r =>
      simp only [children, List.mem_cons, List.not_mem_nil, or_false] at hc
      rcases hc with rfl | rfl <;> simp only [nodeCount] <;> omega
  | call f as =>
      have hle : c.nodeCount ≤ nodeCountList as := nodeCount_le_nodeCountList hc
      simp only [nodeCount]
      omega
  | conditional v t o =>
      simp only [children, List.mem_cons, List.not_mem_nil, or_false] at hc
      rcases hc with rfl | rfl | rfl <;> simp only [nodeCount] <;> omega

theorem NanFreeList.mem {as : List Expr} (h : NanFreeList as) : ∀ a ∈ as, a.NanFree := by
  induction as with
  | nil => exact List.forall_mem_nil _
  | cons a as ih => exact List.forall_mem_cons.mpr ⟨h.1, ih h.2⟩

theorem NanFree.children (h : t.NanFree) : ∀ c ∈ t.children, c.NanFree := by
  cases t with
  | literal x => exact List.forall_mem_nil _
  | event e => exact List.forall_mem_nil _
  | binary op l r => simpa [Expr.children, NanFree] using h
  | call f as => exact NanFreeList.mem h
  | conditional v t o => simpa [Expr.children, NanFree] using h

/-! ## Equal trees -/

theorem equalList_children {a b : Expr} (h : a == b) : equalList a.children b.children := by
  cases a with
  | literal x =>
      obtain ⟨y, rfl, -⟩ := literal_beq.mp h
      rfl
  | event e =>
      obtain rfl := event_beq.mp h
      rfl
  | binary op l r =>
      obtain ⟨l', r', rfl, hl, hr⟩ := binary_beq.mp h
      simp only [children, cons_equalList_cons, hl, hr]
      rfl
  | call f as =>
      obtain ⟨bs, rfl, hs⟩ := call_beq.mp h
      exact hs
  | conditional v t o =>
      obtain ⟨v', t', o', rfl, hv, ht, ho⟩ := conditional_beq.mp h
      simp only [children, cons_equalList_cons, hv, ht, ho]
      rfl

theorem getElem?_of_equalList {as bs : List Expr} {a : Expr} (h : equalList as bs) (ha : as[i]? = some a) :
    ∃ b, bs[i]? = some b ∧ a == b := by
  induction as generalizing bs i with
  | nil => cases ha
  | cons c as ih =>
      obtain ⟨b, bs', rfl, hcb, hs⟩ := cons_equalList.mp h
      cases i with
      | zero =>
          cases ha
          exact ⟨b, rfl, hcb⟩
      | succ i =>
          rw [List.getElem?_cons_succ] at ha ⊢
          exact ih hs ha

/-- Equal trees have equal trees at a position. -/
theorem subtree?_of_beq {a b w : Expr} (h : a == b) (hw : a.subtree? p = some w) :
    ∃ w', b.subtree? p = some w' ∧ w == w' := by
  induction p generalizing a b with
  | nil =>
      cases hw
      exact ⟨b, rfl, h⟩
  | cons i p ih =>
      obtain ⟨c, hc, hw⟩ := Option.bind_eq_some_iff.mp hw
      obtain ⟨c', hc', heq⟩ := getElem?_of_equalList (equalList_children h) hc
      rw [subtree?_cons, hc']
      exact ih heq hw

theorem equalList_map {f : Expr → Expr} {as : List Expr} (h : ∀ a ∈ as, f a == a) : equalList (as.map f) as := by
  induction as with
  | nil => rfl
  | cons a as ih =>
      obtain ⟨ha, has⟩ := List.forall_mem_cons.mp h
      exact cons_equalList.mpr ⟨a, as, rfl, ha, ih has⟩

/-- Trees with the same root are equal if the trees below are. -/
theorem beq_of_children {a b : Expr} (ha : a.NanFree) (hnode : a.node = b.node)
    (h : equalList a.children b.children) : a == b := by
  cases a with
  | literal x =>
      cases b <;> cases hnode
      exact (beq_self_iff _).mpr ha
  | event e =>
      cases b <;> cases hnode
      exact event_beq.mpr rfl
  | binary op l r =>
      cases b <;> cases hnode
      simp only [children, cons_equalList_cons, Bool.and_eq_true] at h
      obtain ⟨hl, hr, -⟩ := h
      exact binary_beq.mpr ⟨_, _, rfl, hl, hr⟩
  | call f as =>
      cases b with
      | call g bs =>
          obtain ⟨rfl, -⟩ := Node.call.inj hnode
          exact call_beq.mpr ⟨bs, rfl, h⟩
      | _ => cases hnode
  | conditional v t o =>
      cases b <;> cases hnode
      simp only [children, cons_equalList_cons, Bool.and_eq_true] at h
      obtain ⟨hv, ht, ho, -⟩ := h
      exact conditional_beq.mpr ⟨_, _, _, rfl, hv, ht, ho⟩

/-! ## Occurrences -/

theorem containsList_iff {as : List Expr} {n : Expr} : containsList as n ↔ ∃ a ∈ as, a.contains n := by
  induction as with
  | nil => simp [containsList]
  | cons a as ih => simp [containsList, ih]

theorem contains_iff_children {n : Expr} : t.contains n ↔ t == n ∨ ∃ c ∈ t.children, c.contains n := by
  cases t with
  | call f as => simp [contains, children, containsList_iff]
  | _ => simp [contains, children, or_assoc]

theorem contains_iff_subtree? {n : Expr} : t.contains n ↔ ∃ p w, t.subtree? p = some w ∧ w == n := by
  induction t using induction_children with
  | step t ih =>
    rw [contains_iff_children, exists_subtree?_iff]
    exact or_congr_right (exists_congr fun c => and_congr_right fun hc => ih c hc)

theorem contains_trans {u w : Expr} (h : t.contains u) (h' : u.contains w) : t.contains w := by
  obtain ⟨p, x, hx, hxu⟩ := contains_iff_subtree?.mp h
  obtain ⟨q, y, hy, hyw⟩ := contains_iff_subtree?.mp h'
  obtain ⟨z, hz, hyz⟩ := subtree?_of_beq (beq_symm hxu) hy
  have htz : t.subtree? (p ++ q) = some z := by rw [subtree?_append, hx, Option.bind_some, hz]
  exact contains_iff_subtree?.mpr ⟨p ++ q, z, htz, beq_trans (beq_symm hyz) hyw⟩

theorem events_children {c : Expr} (hc : c ∈ t.children) : c.events ⊆ t.events := by
  cases t with
  | literal x => cases hc
  | event e => cases hc
  | binary op l r =>
      simp only [children, List.mem_cons, List.not_mem_nil, or_false] at hc
      rcases hc with rfl | rfl <;> simp [events]
  | call f as =>
      induction as with
      | nil => cases hc
      | cons a as ih =>
          rcases List.mem_cons.mp hc with rfl | hc
          · exact List.subset_append_left _ _
          · exact List.subset_append_of_subset_right _ (ih hc)
  | conditional v t o =>
      simp only [children, List.mem_cons, List.not_mem_nil, or_false] at hc
      rcases hc with rfl | rfl | rfl <;> simp [events]

theorem events_subtree? {w : Expr} (h : t.subtree? p = some w) : w.events ⊆ t.events := by
  induction p generalizing t with
  | nil =>
      cases h
      exact List.Subset.refl _
  | cons i p ih =>
      obtain ⟨c, hc, hw⟩ := Option.bind_eq_some_iff.mp h
      exact List.Subset.trans (ih hw) (events_children (List.mem_of_getElem? hc))

theorem events_of_contains {n : Expr} (h : t.contains n) : n.events ⊆ t.events := by
  obtain ⟨p, w, hw, heq⟩ := contains_iff_subtree?.mp h
  rw [← events_of_beq heq]
  exact events_subtree? hw

end MetricFormula.Expr
