import Mathlib.Data.List.Forall2
import MetricFormula.Proofs.Expr.NormalForm
import MetricFormula.Proofs.Expr.Placeholder
import MetricFormula.Proofs.Grammar.Printable

/-!
# Placeholders that simplification uncovers

Placeholders are filled before the tree is simplified. A rule can then leave an event to the left of a `*`, or a
placeholder to the right, where there was more around it when the placeholders were filled. Nothing else leaves a
placeholder: a product has one after both passes exactly if it was no such product in the tree itself, but would be one
with simplified operands.
-/

namespace MetricFormula.Expr

/-- The operands of a product with a placeholder. -/
def Fillable (l r : Expr) : Prop := (∃ e, l = .event e) ∧ ∃ p, Hole r p

/-- Some product in the tree has such operands. -/
def SomeProduct (P : Expr → Expr → Prop) (t : Expr) : Prop := ∃ q l r, t.subtree? q = some (.binary .mul l r) ∧ P l r

variable {P : Expr → Expr → Prop} {t t' l l' r r' : Expr} {e : Event}

/-! ## Products of a tree -/

theorem someProduct_iff : SomeProduct P t ↔
    (∃ l r, t = .binary .mul l r ∧ P l r) ∨ ∃ c ∈ t.children, SomeProduct P c := by
  have hsubtree (t : Expr) : SomeProduct P t ↔
      ∃ q w, t.subtree? q = some w ∧ ∃ l r, w = .binary .mul l r ∧ P l r := by
    constructor
    · rintro ⟨q, l, r, hq, h⟩
      exact ⟨q, _, hq, l, r, rfl, h⟩
    · rintro ⟨q, _, hq, l, r, rfl, h⟩
      exact ⟨q, l, r, hq, h⟩
  simp only [hsubtree]
  exact exists_subtree?_iff

@[simp] theorem not_someProduct_literal (x : Binary64) : ¬ SomeProduct P (.literal x) := by
  rw [someProduct_iff]
  simp [children]

@[simp] theorem not_someProduct_event (e : Event) : ¬ SomeProduct P (.event e) := by
  rw [someProduct_iff]
  simp [children]

@[simp] theorem someProduct_binary {op : Operator} :
    SomeProduct P (.binary op l r) ↔ op = .mul ∧ P l r ∨ SomeProduct P l ∨ SomeProduct P r := by
  rw [someProduct_iff]
  simp [children, and_assoc]

@[simp] theorem someProduct_call {f : Builtin} {as : List Expr} :
    SomeProduct P (.call f as) ↔ ∃ a ∈ as, SomeProduct P a := by
  rw [someProduct_iff]
  simp [children]

@[simp] theorem someProduct_conditional {v t o : Expr} :
    SomeProduct P (.conditional v t o) ↔ SomeProduct P v ∨ SomeProduct P t ∨ SomeProduct P o := by
  rw [someProduct_iff]
  simp [children]

theorem someProduct_fillable : SomeProduct Fillable t ↔ ∃ e p, t.PlaceholderAt e p := by
  constructor
  · rintro ⟨q, _, r, hq, ⟨e, rfl⟩, h, hole⟩
    exact ⟨e, _, q, r, h, hq, hole, rfl⟩
  · rintro ⟨e, _, q, r, h, hq, hole, rfl⟩
    exact ⟨q, _, r, hq, ⟨e, rfl⟩, h, hole⟩

/-! ## Places for a placeholder -/

@[simp] theorem exists_hole_event : (∃ p, Hole (.event e) p) ↔ e = placeholder := by
  constructor
  · rintro ⟨p, hole⟩
    cases hole
    rfl
  · rintro rfl
    exact ⟨[], .whole⟩

@[simp] theorem exists_hole_call {f : Builtin} {as : List Expr} :
    (∃ p, Hole (.call f as) p) ↔ (f = .min ∨ f = .max) ∧ ∃ bs, as = .event placeholder :: bs := by
  constructor
  · rintro ⟨p, hole⟩
    cases hole with
    | bounded hf => exact ⟨hf, _, rfl⟩
  · rintro ⟨hf, bs, rfl⟩
    exact ⟨[0], .bounded hf⟩

@[simp] theorem not_hole_literal (x : Binary64) (p : List Nat) : ¬ Hole (.literal x) p := nofun

@[simp] theorem not_hole_binary (op : Operator) (l r : Expr) (p : List Nat) : ¬ Hole (.binary op l r) p := nofun

@[simp] theorem not_hole_conditional (v t o : Expr) (p : List Nat) : ¬ Hole (.conditional v t o) p := nofun

theorem Hole.of_beq {p : List Nat} (h : Hole r p) (heq : r == r') : Hole r' p := by
  cases h with
  | whole =>
      obtain rfl := event_beq.mp heq
      exact .whole
  | bounded hf =>
      obtain ⟨bs, rfl, hs⟩ := call_beq.mp heq
      obtain ⟨b, bs, rfl, hb, -⟩ := cons_equalList.mp hs
      obtain rfl := event_beq.mp hb
      exact .bounded hf

theorem SomeProduct.of_beq (h : SomeProduct Fillable t) (heq : t == t') : SomeProduct Fillable t' := by
  obtain ⟨q, _, r, hq, ⟨e, rfl⟩, p, hole⟩ := h
  obtain ⟨w, hw, hprod⟩ := subtree?_of_beq heq hq
  obtain ⟨l', r', rfl, hl, hr⟩ := binary_beq.mp hprod
  exact ⟨q, l', r', hw, ⟨e, event_beq.mp hl⟩, p, hole.of_beq hr⟩

/-! ## Products of a simplified tree -/

/-- A rule neither makes a product with a placeholder nor takes one away, whose operands it leaves as they are. -/
theorem Rule.someProduct_fillable (h : Rule t t') : SomeProduct Fillable t' ↔ SomeProduct Fillable t := by
  cases h with
  | addZero _ => simp
  | zeroAdd _ => simp
  | subZero _ => simp
  | merge _ _ => simp [Fillable]
  | @collapse v s s' z z' _ _ hs =>
      -- The test that goes has the products of the test that stays.
      have htest (h : SomeProduct Fillable s') : SomeProduct Fillable s := h.of_beq (beq_symm hs)
      simp only [someProduct_conditional, not_someProduct_literal, or_false]
      exact ⟨.inl, fun h => h.elim id fun h => .inr (htest h)⟩
  | andOne _ => simp
  | oneAnd _ => simp

theorem simplifyPassList_eq_map (as : List Expr) : simplifyPassList as = as.map simplifyPass := by
  induction as with
  | nil => rfl
  | cons a as ih => rw [simplifyPassList, List.map_cons, ih]

/-- The products of a simplified tree are those of the tree with simplified operands. -/
theorem someProduct_simplifyPass (t : Expr) :
    SomeProduct Fillable t.simplifyPass ↔ SomeProduct (fun l r => Fillable l.simplifyPass r.simplifyPass) t := by
  induction t using induction_children with
  | step t ih =>
    cases t with
    | literal x => simp [simplifyPass]
    | event e => simp [simplifyPass]
    | binary op l r =>
        have hrule : SomeProduct Fillable (simplifyBinary op l.simplifyPass r.simplifyPass) ↔
            SomeProduct Fillable (.binary op l.simplifyPass r.simplifyPass) := by
          rcases simplifyBinary_cases op l.simplifyPass r.simplifyPass with h | ⟨h, -⟩
          · exact h.someProduct_fillable
          · rw [h]
        rw [simplifyPass, hrule, someProduct_binary, someProduct_binary, ih l (by simp [children]),
          ih r (by simp [children])]
    | call f as =>
        rw [simplifyPass, simplifyPassList_eq_map, someProduct_call, someProduct_call]
        simpa [children] using exists_congr fun a => and_congr_right fun ha => ih a ha
    | conditional v s o =>
        have hrule : SomeProduct Fillable (simplifyConditional v.simplifyPass s.simplifyPass o.simplifyPass) ↔
            SomeProduct Fillable (.conditional v.simplifyPass s.simplifyPass o.simplifyPass) := by
          rcases simplifyConditional_cases v.simplifyPass s.simplifyPass o.simplifyPass with ⟨h, heq⟩ | ⟨heq, -⟩
          · rw [heq]
            exact h.someProduct_fillable
          · rw [heq]
        rw [simplifyPass, hrule, someProduct_conditional, someProduct_conditional, ih v (by simp [children]),
          ih s (by simp [children]), ih o (by simp [children])]

/-! ## Filling before simplification -/

/-- The trees are the same as far as the rules for `*` and for literals look at them. -/
structure Resembles (a b : Expr) : Prop where
  literal : ∀ x, a = .literal x ↔ b = .literal x
  event : ∀ e, a = .event e ↔ b = .event e
  hole : (∃ p, Hole a p) ↔ ∃ p, Hole b p

theorem Resembles.refl (a : Expr) : Resembles a a := ⟨fun _ => .rfl, fun _ => .rfl, .rfl⟩

theorem resembles_binary (op op' : Operator) (l l' r r' : Expr) :
    Resembles (.binary op l r) (.binary op' l' r') := ⟨by simp, by simp, by simp⟩

theorem resembles_conditional (v v' s s' o o' : Expr) :
    Resembles (.conditional v s o) (.conditional v' s' o') := ⟨by simp, by simp, by simp⟩

theorem resembles_call {f : Builtin} {as bs : List Expr} (h : List.Forall₂ Resembles as bs) :
    Resembles (.call f as) (.call f bs) := by
  refine ⟨by simp, by simp, ?_⟩
  rw [exists_hole_call, exists_hole_call]
  cases h with
  | nil => exact .rfl
  | cons hab _ => simp [hab.event]

theorem Resembles.isLiteral (h : Resembles l l') (x : Binary64) : l.isLiteral x = l'.isLiteral x := by
  rw [Bool.eq_iff_iff, isLiteral_iff, isLiteral_iff]
  simp only [h.literal]

theorem Resembles.fillable (hl : Resembles l l') (hr : Resembles r r') : Fillable l r ↔ Fillable l' r' := by
  rw [Fillable, Fillable, hr.hole]
  simp only [hl.event]

theorem simplifyDifference_eq_binary (l r : Expr) : ∃ op l' r', simplifyDifference l r = .binary op l' r' := by
  unfold simplifyDifference
  split
  · split
    · exact ⟨_, _, _, rfl⟩
    · exact ⟨_, _, _, rfl⟩
  · exact ⟨_, _, _, rfl⟩

theorem Resembles.simplifyBinary (op : Operator) (hl : Resembles l l') (hr : Resembles r r') :
    Resembles (simplifyBinary op l r) (Expr.simplifyBinary op l' r') := by
  match op with
  | .add | .and =>
      simp only [Expr.simplifyBinary, hl.isLiteral, hr.isLiteral]
      split
      · exact hl
      · split
        · exact hr
        · exact resembles_binary _ _ _ _ _ _
  | .sub =>
      simp only [Expr.simplifyBinary, hr.isLiteral]
      split
      · exact hl
      · obtain ⟨_, _, _, h⟩ := simplifyDifference_eq_binary l r
        obtain ⟨_, _, _, h'⟩ := simplifyDifference_eq_binary l' r'
        rw [h, h']
        exact resembles_binary _ _ _ _ _ _
  | .mul | .div | .less | .greater | .lessEq | .greaterEq | .or => exact resembles_binary _ _ _ _ _ _

theorem simplifyConditional_eq_conditional (v s o : Expr) :
    ∃ v' s' o', simplifyConditional v s o = .conditional v' s' o' := by
  unfold simplifyConditional
  split
  · split
    · exact ⟨_, _, _, rfl⟩
    · exact ⟨_, _, _, rfl⟩
  · exact ⟨_, _, _, rfl⟩

/-- A simplified tree has the same root whether placeholders are filled before or not. -/
theorem resembles_simplifyPass (t : Expr) : Resembles t.expandPlaceholders.simplifyPass t.simplifyPass := by
  induction t using induction_children with
  | step t ih =>
    cases t with
    | literal x => exact .refl _
    | event e => exact .refl _
    | binary op l r =>
        rcases expandProduct_cases op l.expandPlaceholders r.expandPlaceholders with h | ⟨e, rfl, -, h⟩
        · rw [expandPlaceholders, h]
          exact (ih l (by simp [children])).simplifyBinary op (ih r (by simp [children]))
        · rw [expandPlaceholders, h]
          exact resembles_binary _ _ _ _ _ _
    | call f as =>
        rw [expandPlaceholders, simplifyPass, simplifyPass, expandPlaceholdersList_eq_map, simplifyPassList_eq_map,
          simplifyPassList_eq_map, List.map_map]
        apply resembles_call
        rw [List.forall₂_map_left_iff, List.forall₂_map_right_iff, List.forall₂_same]
        exact ih
    | conditional v s o =>
        obtain ⟨_, _, _, h⟩ := simplifyConditional_eq_conditional v.expandPlaceholders.simplifyPass
          s.expandPlaceholders.simplifyPass o.expandPlaceholders.simplifyPass
        obtain ⟨_, _, _, h'⟩ := simplifyConditional_eq_conditional v.simplifyPass s.simplifyPass o.simplifyPass
        rw [expandPlaceholders, simplifyPass, simplifyPass, h, h']
        exact resembles_conditional _ _ _ _ _ _

theorem fillable_expandPlaceholders : Fillable l.expandPlaceholders r.expandPlaceholders ↔ Fillable l r := by
  simp only [Fillable, expandPlaceholders_eq_event, hole_expandPlaceholders]

theorem expandProduct_of_not_fillable {op : Operator} (h : ¬ (op = .mul ∧ Fillable l r)) :
    expandProduct op l r = .binary op l r := by
  rcases expandProduct_cases op l r with heq | ⟨e, rfl, rfl, heq⟩
  · exact heq
  · rw [heq, fillPlaceholder_of_not_hole fun p hole => h ⟨rfl, ⟨e, rfl⟩, p, hole⟩]

/-- What a placeholder is filled with is no placeholder, also with simplified arguments. -/
theorem Hole.not_hole_fillPlaceholder {p : List Nat} (h : Hole r p) (e : Event) (q : List Nat) :
    ¬ Hole (fillPlaceholder e r).simplifyPass q := by
  intro hole
  cases h with
  | whole => exact e.sampled_ne_placeholder (exists_hole_event.mp ⟨q, hole⟩)
  | bounded hf =>
      rw [fillPlaceholder, if_pos ⟨rfl, hf⟩] at hole
      obtain ⟨-, bs, heq⟩ := exists_hole_call.mp ⟨q, hole⟩
      exact e.sampled_ne_placeholder (Expr.event.inj (List.cons.inj heq).1)

theorem someProduct_fillPlaceholder (e : Event) (r : Expr) :
    SomeProduct P (fillPlaceholder e r) ↔ SomeProduct P r := by
  rcases fillPlaceholder_cases e r with h | ⟨rfl, h⟩ | ⟨f, as, -, rfl, h⟩
  · rw [h]
  · simp [h]
  · simp [h]

/-- Filled products never get a placeholder again, and all others are as they were. -/
theorem someProduct_expandPlaceholders (t : Expr) :
    SomeProduct (fun l r => Fillable l.simplifyPass r.simplifyPass) t.expandPlaceholders ↔
      SomeProduct (fun l r => Fillable l.simplifyPass r.simplifyPass ∧ ¬ Fillable l r) t := by
  induction t using induction_children with
  | step t ih =>
    cases t with
    | literal x => simp [expandPlaceholders]
    | event e => simp [expandPlaceholders]
    | binary op l r =>
        have hl := ih l (by simp [children])
        have hr := ih r (by simp [children])
        by_cases hfill : op = .mul ∧ Fillable l r
        · obtain ⟨rfl, ⟨e, rfl⟩, p, hole⟩ := hfill
          have hroot : Fillable (.event e) r := ⟨⟨e, rfl⟩, p, hole⟩
          have hfilled : ¬ Fillable (simplifyPass (.event e)) (fillPlaceholder e r.expandPlaceholders).simplifyPass := by
            rintro ⟨-, q, hq⟩
            exact (hole_expandPlaceholders.mpr hole).not_hole_fillPlaceholder e q hq
          change SomeProduct _ (.binary .mul (.event e) (fillPlaceholder e r.expandPlaceholders)) ↔ _
          rw [someProduct_binary, someProduct_binary, someProduct_fillPlaceholder, hr]
          simp [hroot, hfilled]
        · have hsame : Fillable l.expandPlaceholders.simplifyPass r.expandPlaceholders.simplifyPass ↔
              Fillable l.simplifyPass r.simplifyPass := (resembles_simplifyPass l).fillable (resembles_simplifyPass r)
          have hroot : op = .mul → ¬ Fillable l r := fun hop h => hfill ⟨hop, h⟩
          rw [expandPlaceholders, expandProduct_of_not_fillable (by rwa [fillable_expandPlaceholders]),
            someProduct_binary, someProduct_binary, hsame, hl, hr, ← and_assoc,
            and_iff_left_of_imp fun h : op = .mul ∧ _ => hroot h.1]
    | call f as =>
        rw [expandPlaceholders, expandPlaceholdersList_eq_map, someProduct_call, someProduct_call]
        simpa [children] using exists_congr fun a => and_congr_right fun ha => ih a ha
    | conditional v s o =>
        rw [expandPlaceholders, someProduct_conditional, someProduct_conditional, ih v (by simp [children]),
          ih s (by simp [children]), ih o (by simp [children])]

/-! ## Both passes -/

theorem expandPlaceholders_eq_self (h : ¬ SomeProduct Fillable t) : t.expandPlaceholders = t := by
  induction t using induction_children with
  | step t ih =>
    cases t with
    | literal x => rfl
    | event e => rfl
    | binary op l r =>
        simp only [someProduct_binary, not_or] at h
        rw [expandPlaceholders, ih l (by simp [children]) h.2.1, ih r (by simp [children]) h.2.2,
          expandProduct_of_not_fillable h.1]
    | call f as =>
        have hargs : as.map expandPlaceholders = as.map id :=
          List.map_congr_left fun a ha => ih a ha fun hsome => h (someProduct_call.mpr ⟨a, ha, hsome⟩)
        rw [expandPlaceholders, expandPlaceholdersList_eq_map, hargs, List.map_id]
    | conditional v s o =>
        simp only [someProduct_conditional, not_or] at h
        rw [expandPlaceholders, ih v (by simp [children]) h.1, ih s (by simp [children]) h.2.1,
          ih o (by simp [children]) h.2.2]

theorem expandPlaceholders_beq_iff (h : t.Finite) : t.expandPlaceholders == t ↔ ¬ SomeProduct Fillable t := by
  constructor
  · intro heq hsome
    obtain ⟨e, p, hat⟩ := someProduct_fillable.mp hsome
    obtain ⟨w, hw, hnode⟩ := subtree?_of_beq heq (subtree?_expandPlaceholders hat)
    rw [hat.subtree?] at hw
    obtain rfl := event_beq.mp hnode
    exact e.sampled_ne_placeholder (Expr.event.inj (Option.some.inj hw)).symm
  · intro hno
    rw [expandPlaceholders_eq_self hno]
    exact beq_self t h

/-- No product gets a placeholder by the simplification of its operands. -/
def NoneExposed (t : Expr) : Prop :=
  ∀ q l r, t.subtree? q = some (.binary .mul l r) → Fillable l.simplify r.simplify → Fillable l r

/-- Exactly the products that get a placeholder by simplification have one in the end. -/
theorem someProduct_simplify_expandPlaceholders (t : Expr) :
    ¬ SomeProduct Fillable t.expandPlaceholders.simplify ↔ t.NoneExposed := by
  rw [simplify_eq_simplifyPass, someProduct_simplifyPass, someProduct_expandPlaceholders]
  simp only [SomeProduct, NoneExposed, simplify_eq_simplifyPass]
  push Not
  rfl

/-- The placeholders of a formula are filled once and for all before it is simplified, exactly if none gets exposed. -/
theorem noneExposed_iff {text : String} {t : Expr} (h : parse text = .ok t) :
    ((t.expandPlaceholders.simplify.expandPlaceholders == t.expandPlaceholders.simplify) ↔ t.NoneExposed) ∧
      ((∀ e p, ¬ t.expandPlaceholders.simplify.PlaceholderAt e p) ↔ t.NoneExposed) := by
  obtain ⟨hwell, -⟩ := wellFormed_of_parse h
  have hfinite := finite_simplify (wellFormed_expandPlaceholders t hwell).finite
  rw [expandPlaceholders_beq_iff hfinite, ← someProduct_simplify_expandPlaceholders, someProduct_fillable]
  push Not
  exact ⟨.rfl, .rfl⟩

theorem noneExposed_iff_boundedLatency : ∃ t, parse "A * min(PEBS, 9) + 0" = .ok t ∧
    t.expandPlaceholders.simplify.print = "A * min(A:R, 9)" ∧ t.NoneExposed ∧
      ∀ e p, ¬ t.expandPlaceholders.simplify.PlaceholderAt e p := by
  have hread : (parse "A * min(PEBS, 9) + 0").toOption.any (fun t =>
      t.expandPlaceholders.simplify.print == "A * min(A:R, 9)" &&
        t.expandPlaceholders.simplify.expandPlaceholders == t.expandPlaceholders.simplify) := by decide +kernel
  obtain ⟨t, ht, hboth⟩ := (Option.any_eq_true _ _).mp hread
  obtain ⟨hprint, hequal⟩ := Bool.and_eq_true_iff.mp hboth
  have hparse := toOption_eq_some.mp ht
  obtain ⟨hagain, hnone⟩ := noneExposed_iff hparse
  have hnoneExposed := hagain.mp hequal
  exact ⟨t, hparse, eq_of_beq hprint, hnoneExposed, hnone.mpr hnoneExposed⟩

/-- The sum gives way to the event only after the placeholders were filled. -/
theorem expandPlaceholders_simplify_ne : ∃ t, parse "(A + 0) * PEBS" = .ok t ∧
    t.expandPlaceholders.simplify.print = "A * PEBS" ∧
      t.expandPlaceholders.simplify.expandPlaceholders.print = "A * A:R" ∧
      ¬ (t.expandPlaceholders.simplify.expandPlaceholders == t.expandPlaceholders.simplify) := by
  have hread : (parse "(A + 0) * PEBS").toOption.any (fun t =>
      t.expandPlaceholders.simplify.print == "A * PEBS" &&
        (t.expandPlaceholders.simplify.expandPlaceholders.print == "A * A:R" &&
          !(t.expandPlaceholders.simplify.expandPlaceholders == t.expandPlaceholders.simplify))) := by decide +kernel
  obtain ⟨t, ht, hall⟩ := (Option.any_eq_true _ _).mp hread
  simp only [Bool.and_eq_true, beq_iff_eq, Bool.not_eq_true'] at hall
  obtain ⟨hprint, hagain, hne⟩ := hall
  exact ⟨t, toOption_eq_some.mp ht, hprint, hagain, by simp [hne]⟩

end MetricFormula.Expr
