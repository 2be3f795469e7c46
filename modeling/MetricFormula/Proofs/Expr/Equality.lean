import MetricFormula.Expr.Basic

/-! Equality of trees is an equivalence, except that a literal which is not a number equals nothing. -/

namespace MetricFormula

namespace Binary64

theorem beq_self_iff {x : Binary64} : x == x ↔ x ≠ .nan := by
  cases x <;> simp [BEq.beq, equal]

theorem beq_self {x : Binary64} (h : x.isFinite) : x == x := by
  rw [beq_self_iff]
  rintro rfl
  cases h

theorem beq_symm {x y : Binary64} (h : x == y) : y == x := by
  cases x with
  | nan => cases h
  | infinite n => cases y with
    | infinite m => cases n <;> cases m <;> first | rfl | cases h
    | nan => cases h
    | finite m v hv => cases h
  | finite n u hu => cases y with
    | finite m v hv =>
        have hxy : u = v ∧ (n = m ∨ u = 0) := by simpa [BEq.beq, equal] using h
        obtain ⟨rfl, hnm⟩ := hxy
        simpa [BEq.beq, equal] using hnm.imp_left Eq.symm
    | nan => cases h
    | infinite m => cases h

theorem beq_trans {x y z : Binary64} (h : x == y) (h' : y == z) : x == z := by
  cases x with
  | nan => cases h
  | infinite n =>
      cases y with
      | infinite m =>
          cases z with
          | infinite k =>
              have hnm : n = m := by cases n <;> cases m <;> first | rfl | cases h
              exact hnm ▸ h'
          | nan => cases h'
          | finite k w hw => cases h'
      | nan => cases h
      | finite m v hv => cases h
  | finite n u hu =>
      cases y with
      | finite m v hv =>
          cases z with
          | finite k w hw =>
              have hxy : u = v ∧ (n = m ∨ u = 0) := by simpa [BEq.beq, equal] using h
              have hyz : v = w ∧ (m = k ∨ v = 0) := by simpa [BEq.beq, equal] using h'
              obtain ⟨rfl, hnm⟩ := hxy
              obtain ⟨rfl, hmk⟩ := hyz
              have hnk : n = k ∨ u = 0 := by
                rcases hnm with rfl | h0
                · exact hmk
                · exact .inr h0
              simpa [BEq.beq, equal] using hnk
          | nan => cases h'
          | infinite k => cases h'
      | nan => cases h
      | infinite m => cases h

theorem exists_finite {x : Binary64} (h : x.isFinite) : ∃ n u hu, x = finite n u hu := by
  cases x with
  | nan => cases h
  | infinite n => cases h
  | finite n u hu => exact ⟨n, u, hu, rfl⟩

theorem isFinite_of_beq {x y : Binary64} (h : x == y) (hx : x.isFinite) : y.isFinite := by
  obtain ⟨n, u, hu, rfl⟩ := exists_finite hx
  cases y with
  | finite m v hv => rfl
  | nan => cases h
  | infinite m => cases h

theorem signed_congr {n m : Bool} {u v : Nat} {hu : Representable u} {hv : Representable v}
    (h : finite n u hu == finite m v hv) : signed n u = signed m v := by
  have huv : u = v ∧ (n = m ∨ u = 0) := by simpa [BEq.beq, equal] using h
  obtain ⟨rfl, rfl | rfl⟩ := huv
  · rfl
  · simp [signed]

theorem zero_beq (n m : Bool) : zero n == zero m := by simp [BEq.beq, equal, zero]

theorem finite_sub_finite {n m : Bool} {u v : Nat} (hu : Representable u) (hv : Representable v) :
    finite n u hu - finite m v hv =
      if signed n u - signed m v = 0 then zero (n && !m)
      else ofRatio (decide (signed n u - signed m v < 0)) (signed n u - signed m v).natAbs 1 := rfl

/-- Equal numbers have equal differences. -/
theorem sub_congr {x x' y y' : Binary64} (hx : x == x') (hy : y == y') (hxf : x.isFinite) (hyf : y.isFinite)
    (h : (x - y).isFinite) : x - y == x' - y' := by
  obtain ⟨n', u', hu', rfl⟩ := exists_finite (isFinite_of_beq hx hxf)
  obtain ⟨m', v', hv', rfl⟩ := exists_finite (isFinite_of_beq hy hyf)
  obtain ⟨n, u, hu, rfl⟩ := exists_finite hxf
  obtain ⟨m, v, hv, rfl⟩ := exists_finite hyf
  rw [finite_sub_finite, signed_congr hx, signed_congr hy] at h ⊢
  rw [finite_sub_finite]
  split
  · exact zero_beq _ _
  · rename_i hne
    rw [if_neg hne] at h
    exact beq_self h

end Binary64

namespace Expr

mutual

/-- Every literal is a finite number. -/
def Finite : Expr → Prop
  | .literal x => x.isFinite
  | .event _ => True
  | .binary _ l r => l.Finite ∧ r.Finite
  | .call _ as => FiniteList as
  | .conditional v t o => v.Finite ∧ t.Finite ∧ o.Finite

def FiniteList : List Expr → Prop
  | [] => True
  | a :: as => a.Finite ∧ FiniteList as

end

mutual

/-- No literal is `nan`. -/
def NanFree : Expr → Prop
  | .literal x => x ≠ .nan
  | .event _ => True
  | .binary _ l r => l.NanFree ∧ r.NanFree
  | .call _ as => NanFreeList as
  | .conditional v t o => v.NanFree ∧ t.NanFree ∧ o.NanFree

def NanFreeList : List Expr → Prop
  | [] => True
  | a :: as => a.NanFree ∧ NanFreeList as

end

mutual

theorem Finite.nanFree {t : Expr} (h : t.Finite) : t.NanFree := by
  match t with
  | .literal x =>
      rintro rfl
      cases h
  | .event e => trivial
  | .binary op l r => exact ⟨h.1.nanFree, h.2.nanFree⟩
  | .call f as => exact FiniteList.nanFreeList h
  | .conditional v t o => exact ⟨h.1.nanFree, h.2.1.nanFree, h.2.2.nanFree⟩

theorem FiniteList.nanFreeList {as : List Expr} (h : FiniteList as) : NanFreeList as := by
  match as with
  | [] => trivial
  | a :: as => exact ⟨h.1.nanFree, h.2.nanFreeList⟩

end

/-! ## Trees equal to a given one -/

theorem literal_beq {x : Binary64} {b : Expr} : (literal x == b) ↔ ∃ y, b = literal y ∧ x == y := by
  constructor
  · intro h
    cases b with
    | literal y => exact ⟨y, rfl, h⟩
    | event e => cases h
    | binary op l r => cases h
    | call f as => cases h
    | conditional v t o => cases h
  · rintro ⟨y, rfl, h⟩
    exact h

theorem event_beq {e : Event} {b : Expr} : (event e == b) ↔ b = event e := by
  constructor
  · intro h
    cases b with
    | event e' =>
        have he : (e == e') = true := h
        rw [eq_of_beq he]
    | literal y => cases h
    | binary op l r => cases h
    | call f as => cases h
    | conditional v t o => cases h
  · rintro rfl
    exact beq_self_eq_true e

theorem binary_beq {op : Operator} {l r b : Expr} :
    (binary op l r == b) ↔ ∃ l' r', b = binary op l' r' ∧ l == l' ∧ r == r' := by
  constructor
  · intro h
    cases b with
    | binary op' l' r' =>
        have hall : (op == op' && l.equal l' && r.equal r') = true := h
        simp only [Bool.and_eq_true, beq_iff_eq] at hall
        obtain ⟨⟨rfl, hl⟩, hr⟩ := hall
        exact ⟨l', r', rfl, hl, hr⟩
    | literal y => cases h
    | event e => cases h
    | call f as => cases h
    | conditional v t o => cases h
  · rintro ⟨l', r', rfl, hl, hr⟩
    exact Bool.and_eq_true_iff.mpr ⟨Bool.and_eq_true_iff.mpr ⟨beq_self_eq_true op, hl⟩, hr⟩

theorem call_beq {f : Builtin} {as : List Expr} {b : Expr} :
    (call f as == b) ↔ ∃ bs, b = call f bs ∧ equalList as bs := by
  constructor
  · intro h
    cases b with
    | call g bs =>
        have hall : (f == g && equalList as bs) = true := h
        simp only [Bool.and_eq_true, beq_iff_eq] at hall
        obtain ⟨rfl, hs⟩ := hall
        exact ⟨bs, rfl, hs⟩
    | literal y => cases h
    | event e => cases h
    | binary op l r => cases h
    | conditional v t o => cases h
  · rintro ⟨bs, rfl, h⟩
    exact Bool.and_eq_true_iff.mpr ⟨beq_self_eq_true f, h⟩

theorem conditional_beq {v t o b : Expr} :
    (conditional v t o == b) ↔ ∃ v' t' o', b = conditional v' t' o' ∧ v == v' ∧ t == t' ∧ o == o' := by
  constructor
  · intro h
    cases b with
    | conditional v' t' o' =>
        have hall : (v.equal v' && t.equal t' && o.equal o') = true := h
        simp only [Bool.and_eq_true] at hall
        obtain ⟨⟨hv, ht⟩, ho⟩ := hall
        exact ⟨v', t', o', rfl, hv, ht, ho⟩
    | literal y => cases h
    | event e => cases h
    | binary op l r => cases h
    | call f as => cases h
  · rintro ⟨v', t', o', rfl, hv, ht, ho⟩
    exact Bool.and_eq_true_iff.mpr ⟨Bool.and_eq_true_iff.mpr ⟨hv, ht⟩, ho⟩

theorem nil_equalList {bs : List Expr} : equalList [] bs ↔ bs = [] := by
  cases bs <;> simp [equalList]

theorem cons_equalList {a : Expr} {as bs : List Expr} :
    equalList (a :: as) bs ↔ ∃ b bs', bs = b :: bs' ∧ a == b ∧ equalList as bs' := by
  cases bs with
  | nil => simp [equalList]
  | cons b bs =>
      rw [equalList, Bool.and_eq_true]
      constructor
      · rintro ⟨h, hs⟩
        exact ⟨b, bs, rfl, h, hs⟩
      · rintro ⟨_, _, heq, h, hs⟩
        cases heq
        exact ⟨h, hs⟩

/-! ## Trees of one kind -/

theorem event_beq_event (e e' : Event) : (event e == event e') = (e == e') := rfl

theorem binary_beq_binary (op op' : Operator) (l l' r r' : Expr) :
    (binary op l r == binary op' l' r') = (op == op' && l == l' && r == r') := rfl

theorem call_beq_call (f f' : Builtin) (as as' : List Expr) :
    (call f as == call f' as') = (f == f' && equalList as as') := rfl

theorem conditional_beq_conditional (v v' t t' o o' : Expr) :
    (conditional v t o == conditional v' t' o') = (v == v' && t == t' && o == o') := rfl

theorem cons_equalList_cons (a b : Expr) (as bs : List Expr) :
    equalList (a :: as) (b :: bs) = (a == b && equalList as bs) := rfl

/-! ## Laws -/

mutual

theorem beq_self_iff (t : Expr) : t == t ↔ t.NanFree := by
  match t with
  | .literal x => exact Binary64.beq_self_iff
  | .event e => exact iff_of_true (event_beq.mpr rfl) trivial
  | .binary op l r =>
      rw [binary_beq_binary, Bool.and_eq_true, Bool.and_eq_true, beq_self_iff l, beq_self_iff r]
      simp [NanFree]
  | .call f as =>
      rw [call_beq_call, Bool.and_eq_true, equalList_self_iff as]
      simp [NanFree]
  | .conditional v t o =>
      rw [conditional_beq_conditional, Bool.and_eq_true, Bool.and_eq_true, beq_self_iff v, beq_self_iff t,
        beq_self_iff o, and_assoc]
      rfl

theorem equalList_self_iff (as : List Expr) : equalList as as ↔ NanFreeList as := by
  match as with
  | [] => exact iff_of_true rfl trivial
  | a :: as =>
      rw [cons_equalList_cons, Bool.and_eq_true, beq_self_iff a, equalList_self_iff as]
      rfl

end

theorem beq_self (t : Expr) (h : t.Finite) : t == t := (beq_self_iff t).mpr h.nanFree

theorem equalList_self (as : List Expr) (h : FiniteList as) : equalList as as :=
  (equalList_self_iff as).mpr h.nanFreeList

mutual

theorem beq_symm {a b : Expr} (h : a == b) : b == a := by
  match a with
  | .literal x =>
      obtain ⟨y, rfl, hxy⟩ := literal_beq.mp h
      exact literal_beq.mpr ⟨x, rfl, Binary64.beq_symm hxy⟩
  | .event e =>
      obtain rfl := event_beq.mp h
      exact h
  | .binary op l r =>
      obtain ⟨l', r', rfl, hl, hr⟩ := binary_beq.mp h
      exact binary_beq.mpr ⟨l, r, rfl, beq_symm hl, beq_symm hr⟩
  | .call f as =>
      obtain ⟨bs, rfl, hs⟩ := call_beq.mp h
      exact call_beq.mpr ⟨as, rfl, equalList_symm hs⟩
  | .conditional v t o =>
      obtain ⟨v', t', o', rfl, hv, ht, ho⟩ := conditional_beq.mp h
      exact conditional_beq.mpr ⟨v, t, o, rfl, beq_symm hv, beq_symm ht, beq_symm ho⟩

theorem equalList_symm {as bs : List Expr} (h : equalList as bs) : equalList bs as := by
  match as with
  | [] =>
      obtain rfl := nil_equalList.mp h
      rfl
  | a :: as =>
      obtain ⟨b, bs, rfl, hab, hs⟩ := cons_equalList.mp h
      exact cons_equalList.mpr ⟨a, as, rfl, beq_symm hab, equalList_symm hs⟩

end

mutual

theorem beq_trans {a b c : Expr} (h : a == b) (h' : b == c) : a == c := by
  match a with
  | .literal x =>
      obtain ⟨y, rfl, hxy⟩ := literal_beq.mp h
      obtain ⟨z, rfl, hyz⟩ := literal_beq.mp h'
      exact literal_beq.mpr ⟨z, rfl, Binary64.beq_trans hxy hyz⟩
  | .event e =>
      obtain rfl := event_beq.mp h
      exact h'
  | .binary op l r =>
      obtain ⟨l', r', rfl, hl, hr⟩ := binary_beq.mp h
      obtain ⟨l'', r'', rfl, hl', hr'⟩ := binary_beq.mp h'
      exact binary_beq.mpr ⟨l'', r'', rfl, beq_trans hl hl', beq_trans hr hr'⟩
  | .call f as =>
      obtain ⟨bs, rfl, hs⟩ := call_beq.mp h
      obtain ⟨cs, rfl, hs'⟩ := call_beq.mp h'
      exact call_beq.mpr ⟨cs, rfl, equalList_trans hs hs'⟩
  | .conditional v t o =>
      obtain ⟨v', t', o', rfl, hv, ht, ho⟩ := conditional_beq.mp h
      obtain ⟨v'', t'', o'', rfl, hv', ht', ho'⟩ := conditional_beq.mp h'
      exact conditional_beq.mpr ⟨v'', t'', o'', rfl, beq_trans hv hv', beq_trans ht ht', beq_trans ho ho'⟩

theorem equalList_trans {as bs cs : List Expr} (h : equalList as bs) (h' : equalList bs cs) : equalList as cs := by
  match as with
  | [] =>
      obtain rfl := nil_equalList.mp h
      exact h'
  | a :: as =>
      obtain ⟨b, bs, rfl, hab, hs⟩ := cons_equalList.mp h
      obtain ⟨c, cs, rfl, hbc, hs'⟩ := cons_equalList.mp h'
      exact cons_equalList.mpr ⟨c, cs, rfl, beq_trans hab hbc, equalList_trans hs hs'⟩

end

mutual

theorem finite_of_beq {a b : Expr} (h : a == b) (ha : a.Finite) : b.Finite := by
  match a with
  | .literal x =>
      obtain ⟨y, rfl, hxy⟩ := literal_beq.mp h
      exact Binary64.isFinite_of_beq hxy ha
  | .event e =>
      obtain rfl := event_beq.mp h
      exact ha
  | .binary op l r =>
      obtain ⟨l', r', rfl, hl, hr⟩ := binary_beq.mp h
      exact ⟨finite_of_beq hl ha.1, finite_of_beq hr ha.2⟩
  | .call f as =>
      obtain ⟨bs, rfl, hs⟩ := call_beq.mp h
      exact finiteList_of_equalList hs ha
  | .conditional v t o =>
      obtain ⟨v', t', o', rfl, hv, ht, ho⟩ := conditional_beq.mp h
      exact ⟨finite_of_beq hv ha.1, finite_of_beq ht ha.2.1, finite_of_beq ho ha.2.2⟩

theorem finiteList_of_equalList {as bs : List Expr} (h : equalList as bs) (has : FiniteList as) : FiniteList bs := by
  match as with
  | [] =>
      obtain rfl := nil_equalList.mp h
      trivial
  | a :: as =>
      obtain ⟨b, bs, rfl, hab, hs⟩ := cons_equalList.mp h
      exact ⟨finite_of_beq hab has.1, finiteList_of_equalList hs has.2⟩

end

/-! ## What equal trees share -/

mutual

theorem events_of_beq {a b : Expr} (h : a == b) : a.events = b.events := by
  match a with
  | .literal x =>
      obtain ⟨y, rfl, -⟩ := literal_beq.mp h
      rfl
  | .event e =>
      obtain rfl := event_beq.mp h
      rfl
  | .binary op l r =>
      obtain ⟨l', r', rfl, hl, hr⟩ := binary_beq.mp h
      simp only [events, events_of_beq hl, events_of_beq hr]
  | .call f as =>
      obtain ⟨bs, rfl, hs⟩ := call_beq.mp h
      simp only [events, eventsList_of_equalList hs]
  | .conditional v t o =>
      obtain ⟨v', t', o', rfl, hv, ht, ho⟩ := conditional_beq.mp h
      simp only [events, events_of_beq hv, events_of_beq ht, events_of_beq ho]

theorem eventsList_of_equalList {as bs : List Expr} (h : equalList as bs) : eventsList as = eventsList bs := by
  match as with
  | [] =>
      obtain rfl := nil_equalList.mp h
      rfl
  | a :: as =>
      obtain ⟨b, bs, rfl, hab, hs⟩ := cons_equalList.mp h
      simp only [eventsList, events_of_beq hab, eventsList_of_equalList hs]

end

end Expr

end MetricFormula
