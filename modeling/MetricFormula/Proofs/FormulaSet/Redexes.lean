import MetricFormula.Proofs.Expr.Preservation
import MetricFormula.Proofs.FormulaSet.Candidates

/-!
# What the rewriting leaves to simplify

Formulas are simplified before references are put into them, and not again. A reference is an event, so that the
difference of two products may have become one that is merged; and tests that were different may have become equal. No
other rule applies to a new tree.
-/

namespace MetricFormula

namespace Expr

/-! ## Rules at subtrees -/

mutual

/-- A tree is normal if no rule applies to a tree within it. -/
theorem normal_iff {e : Expr} : Normal e ↔ ∀ w ∈ e.subtrees, ∀ w', ¬ Rule w w' := by
  match e with
  | .literal x =>
      refine ⟨fun _ => List.forall_mem_singleton.mpr fun w' h => ?_, fun _ => normal_literal x⟩
      cases h
  | .event ev =>
      refine ⟨fun _ => List.forall_mem_singleton.mpr fun w' h => ?_, fun _ => normal_event ev⟩
      cases h
  | .binary op l r =>
      rw [normal_binary_iff, normal_iff, normal_iff, subtrees, List.forall_mem_cons, List.forall_mem_append]
  | .call f as =>
      have hroot : ∀ w', ¬ Rule (.call f as) w' := by
        intro w' h
        cases h
      rw [normal_call_iff, normalList_iff, subtrees, List.forall_mem_cons, and_iff_right hroot]
  | .conditional v t o =>
      rw [normal_conditional_iff, normal_iff, normal_iff, normal_iff, subtrees, List.forall_mem_cons,
        List.forall_mem_append, List.forall_mem_append, and_assoc]

theorem normalList_iff {as : List Expr} : NormalList as ↔ ∀ w ∈ subtreesList as, ∀ w', ¬ Rule w w' := by
  match as with
  | [] => exact ⟨fun _ => nofun, fun _ => normalList_nil⟩
  | a :: as => rw [normalList_cons_iff, normal_iff, normalList_iff, subtreesList, List.forall_mem_append]

end

/-- Whatever simplification changes, it changes to a tree that is not equal. -/
theorem normal_of_simplify_beq {e : Expr} (h : e.simplify == e) : Normal e := by
  rcases (steps_simplify e).cases_head with heq | ⟨e', hstep, hsteps⟩
  · exact heq ▸ normal_simplify e
  · have hlt := hstep.nodeCount_lt
    have hle := nodeCount_le_of_steps hsteps
    have heq := nodeCount_of_beq h
    omega

end Expr

namespace FormulaSet

variable {s : FormulaSet} {n : String} {t : Expr}

/-! ## Rules that a reference gives rise to -/

/-- A rule applies to the tree because a reference to a candidate for `n` was put in: the coefficients of the reference
are merged, or it occurs in a test that guards twice. -/
inductive NewRedex (s : FormulaSet) (n : String) (t : Expr) : Expr → Prop where
  | merge {m u a b} : Candidate s n t m u → (a - b).isFinite →
      NewRedex s n t (.binary .sub (.binary .mul (.literal a) (.ref m)) (.binary .mul (.literal b) (.ref m)))
  | collapse {m u v p p' z z'} : Candidate s n t m u → Event.bare m ∈ p.events → z == 0 → z' == 0 → p == p' →
      NewRedex s n t (.conditional (.conditional v p (.literal z)) p' (.literal z'))

theorem NewRedex.rule {w : Expr} (h : NewRedex s n t w) : ∃ w', Expr.Rule w w' := by
  cases h with
  | merge _ hfinite => exact ⟨_, .merge (beq_self_eq_true _) hfinite⟩
  | collapse _ _ hz hz' hp => exact ⟨_, .collapse hz hz' hp⟩

/-- If every rule that applies to a tree is such a one, then so is every rule after one more reference is put in. -/
theorem NewRedex.of_replace {x u : Expr} {m : String} (hu : Candidate s n t m u)
    (hx : ∀ x', Expr.Rule x x' → NewRedex s n t x) {w w' : Expr} (hw : w = x.replace u (.ref m)) (h : Expr.Rule w w') :
    NewRedex s n t w := by
  -- Literals stay where they are, so that a rule for 0 or 1 applies before, if it does after.
  cases h with
  | addZero hz =>
      obtain ⟨l, rfl⟩ := Expr.binary_literal_of_replace hw.symm
      cases hx _ (.addZero hz)
  | zeroAdd hz =>
      obtain ⟨r, rfl⟩ := Expr.literal_binary_of_replace hw.symm
      cases hx _ (.zeroAdd hz)
  | subZero hz =>
      obtain ⟨l, rfl⟩ := Expr.binary_literal_of_replace hw.symm
      cases hx _ (.subZero hz)
  | andOne hz =>
      obtain ⟨l, rfl⟩ := Expr.binary_literal_of_replace hw.symm
      cases hx _ (.andOne hz)
  | oneAnd hz =>
      obtain ⟨r, rfl⟩ := Expr.literal_binary_of_replace hw.symm
      cases hx _ (.oneAnd hz)
  -- Either event is the new reference, or both were there.
  | merge heq hfinite =>
      obtain ⟨l, r, rfl, hl, hr⟩ := Expr.binary_of_replace hw.symm
      obtain ⟨la, le, rfl, hla, hle⟩ := Expr.binary_of_replace hl
      obtain ⟨ra, re, rfl, hra, hre⟩ := Expr.binary_of_replace hr
      obtain rfl := Expr.eq_literal_of_replace hla
      obtain rfl := Expr.eq_literal_of_replace hra
      obtain rfl := eq_of_beq heq
      rcases Expr.event_of_replace hle with rfl | rfl
      · rcases Expr.event_of_replace hre with rfl | rfl
        · exact hx _ (.merge heq hfinite)
        · exact .merge hu hfinite
      · exact .merge hu hfinite
  -- Either test mentions the new reference, or both were there.
  | collapse hz hz' hp =>
      obtain ⟨v, p', o, rfl, hv, rfl, ho⟩ := Expr.conditional_of_replace hw.symm
      obtain ⟨v, p, o', rfl, rfl, rfl, ho'⟩ := Expr.conditional_of_replace hv
      obtain rfl := Expr.eq_literal_of_replace ho
      obtain rfl := Expr.eq_literal_of_replace ho'
      by_cases hcontains : p.contains u
      · exact .collapse hu (Expr.mem_events_replace hcontains m) hz hz' hp
      by_cases hcontains' : p'.contains u
      · exact .collapse hu (Expr.events_of_beq hp ▸ Expr.mem_events_replace hcontains' m) hz hz' hp
      rw [Expr.replace_eq_self hcontains, Expr.replace_eq_self hcontains'] at hp ⊢
      cases hx _ (.collapse hz hz' hp) with
      | collapse hm hmem _ _ _ => exact .collapse hm hmem hz hz' hp

/-- No rule applies to a tree within but for a reference that was put in. -/
def SimplifiedBut (s : FormulaSet) (n : String) (t tree : Expr) : Prop :=
  ∀ w ∈ tree.subtrees, ∀ w', Expr.Rule w w' → NewRedex s n t w

theorem SimplifiedBut.replace {tree u : Expr} {m : String} (h : SimplifiedBut s n t tree) (hu : Candidate s n t m u) :
    SimplifiedBut s n t (tree.replace u (.ref m)) := by
  intro w hw w' hrule
  obtain ⟨x, hx, heq⟩ := Expr.mem_subtrees_replace hw
  exact .of_replace hu (h x hx) heq hrule

theorem SimplifiedBut.of_normal {tree : Expr} (h : Expr.Normal tree) : SimplifiedBut s n t tree :=
  fun w hw w' hrule => absurd hrule (Expr.normal_iff.mp h w hw w')

theorem simplifiedBut_crossReference {d : Expr} (ht : s.simplified.get? n = some t) (hd : (n, d) ∈ s.crossReference) :
    SimplifiedBut s n t d := by
  obtain ⟨e, -, rfl⟩ := get?_simplified.mp ht
  exact crossReference_induction (fun _ _ hu _ _ htree => htree.replace hu) ht hd (.of_normal e.normal_simplify)

/-- A new tree is its own simplified form, unless a reference put into it merges coefficients or makes tests equal; and
then it is not. -/
theorem simplify_crossReference {d : Expr} (hd : (n, d) ∈ s.crossReference) :
    ∃ t, s.simplified.get? n = some t ∧
      ((∀ w ∈ d.subtrees, ¬ NewRedex s n t w) → d.simplify = d) ∧
      ∀ w ∈ d.subtrees, NewRedex s n t w → ¬ (d.simplify == d) := by
  obtain ⟨t, ht⟩ := exists_simplified_of_mem hd
  refine ⟨t, ht, fun hnone => ?_, fun w hw hnew hequal => ?_⟩
  · have hnormal : Expr.Normal d :=
      Expr.normal_iff.mpr fun w hw w' hrule => hnone w hw (simplifiedBut_crossReference ht hd w hw w' hrule)
    exact hnormal.simplify
  · obtain ⟨w', hrule⟩ := hnew.rule
    exact Expr.normal_iff.mp (Expr.normal_of_simplify_beq hequal) w hw w' hrule

/-- A rate, a multiple of it, and the difference of two multiples. -/
def multiplesOfRate : FormulaSet :=
  let multiple (n : Nat) : Expr := .binary .mul (.literal (.ofNat n)) (.binary .div (.ref "x") (.ref "y"))
  .ofList [("Rate", .binary .div (.ref "x") (.ref "y")), ("Percent", multiple 100),
    ("Difference", .binary .sub (multiple 2) (multiple 1))]

theorem simplify_crossReference_multiplesOfRate :
    ∃ d, ("Percent", d) ∈ multiplesOfRate.crossReference ∧ Event.bare "Rate" ∈ d.events ∧ d.simplify = d := by
  have hnew : (Entries.find? "Percent" multiplesOfRate.crossReference).any
      (· == .binary .mul (.literal (.ofNat 100)) (.ref "Rate")) := by decide +kernel
  obtain ⟨d, hd, hequal⟩ := (Option.any_eq_true _ _).mp hnew
  obtain ⟨l, r, rfl, hl, hr⟩ := Expr.binary_beq.mp (Expr.beq_symm hequal)
  obtain ⟨x, rfl, -⟩ := Expr.literal_beq.mp hl
  obtain rfl := Expr.event_beq.mp hr
  have hmem := Entries.mem_of_find? hd
  obtain ⟨t, -, hsimplified, -⟩ := simplify_crossReference hmem
  refine ⟨_, hmem, List.mem_singleton_self _, hsimplified fun w hw h => ?_⟩
  cases h <;> simp [Expr.subtrees] at hw

theorem simplify_crossReference_ne :
    ∃ d, ("Difference", d) ∈ multiplesOfRate.crossReference ∧ d.print = "2 * Rate - 1 * Rate" ∧
      ¬ (d.simplify == d) := by
  have hnew : (Entries.find? "Difference" multiplesOfRate.crossReference).any
      (fun d => d.print == "2 * Rate - 1 * Rate" && !(d.simplify == d)) := by decide +kernel
  obtain ⟨d, hd, hboth⟩ := (Option.any_eq_true _ _).mp hnew
  obtain ⟨hprint, hne⟩ := Bool.and_eq_true_iff.mp hboth
  exact ⟨d, Entries.mem_of_find? hd, eq_of_beq hprint, by simpa using hne⟩

end FormulaSet

end MetricFormula
