import MetricFormula.Proofs.FormulaSet.Candidates
import MetricFormula.Proofs.FormulaSet.Produced
import MetricFormula.Proofs.Grammar.Stability

/-!
# Reading what the rewriting gives

A reference is never grouped, so that the text of a new tree opens no more levels than that of the simplified one. Every
name is read back as it is printed but the empty one, which has no text.
-/

namespace MetricFormula

namespace Expr

/-! ## The levels of a tree with references -/

theorem precedence_le_reference (t : Expr) (m : String) : t.precedence ≤ (ref m).precedence := by
  cases t with
  | binary op l r => exact Nat.le_of_lt op.precedence_lt
  | conditional v t o => exact Nat.zero_le 6
  | literal x => exact Nat.le_refl 6
  | event e => exact Nat.le_refl 6
  | call f as => exact Nat.le_refl 6

/-- A tree opens no more levels than another that is grouped wherever it is. -/
theorem nestingAt_mono {e e' : Expr} (h : e'.nesting ≤ e.nesting) (hprec : e.precedence ≤ e'.precedence) (k : Nat) :
    e'.nestingAt k ≤ e.nestingAt k := by
  rcases Nat.lt_or_ge e'.precedence k with hk | hk
  · rw [nestingAt_of_lt hk, nestingAt_of_lt (Nat.lt_of_le_of_lt hprec hk)]
    exact Nat.succ_le_succ h
  · rw [nestingAt_of_le hk]
    exact Nat.le_trans h (nesting_le_nestingAt k e)

mutual

theorem nestingAt_replace_le (k : Nat) (t n : Expr) (m : String) :
    (t.replace n (.ref m)).nestingAt k ≤ t.nestingAt k := by
  by_cases heq : t == n
  · rw [replace_of_beq heq]
    exact nestingAt_mono (Nat.zero_le _) (t.precedence_le_reference m) k
  · match t with
    | .literal x =>
        have hsame : (literal x).replace n (.ref m) = .literal x := by rw [replace, if_neg heq]
        exact Nat.le_of_eq (congrArg (nestingAt k) hsame)
    | .event e =>
        have hsame : (event e).replace n (.ref m) = .event e := by rw [replace, if_neg heq]
        exact Nat.le_of_eq (congrArg (nestingAt k) hsame)
    | .binary op a b =>
        have ha := nestingAt_replace_le op.leftStrength a n m
        have hb := nestingAt_replace_le (op.precedence + 1) b n m
        have hnest : (binary op (a.replace n (.ref m)) (b.replace n (.ref m))).nesting ≤ (binary op a b).nesting := by
          rw [nesting_binary, nesting_binary]
          omega
        rw [replace, if_neg heq]
        exact nestingAt_mono hnest (Nat.le_refl op.precedence) k
    | .call f as =>
        have hnest : (call f (replaceList as n (.ref m))).nesting ≤ (call f as).nesting :=
          nestingList_replaceList_le as n m
        rw [replace, if_neg heq]
        exact nestingAt_mono hnest (Nat.le_refl 6) k
    | .conditional v c o =>
        have hv := nestingAt_replace_le 1 v n m
        have hc := nestingAt_replace_le 1 c n m
        have ho := nestingAt_replace_le 0 o n m
        have hnest : (conditional (v.replace n (.ref m)) (c.replace n (.ref m)) (o.replace n (.ref m))).nesting ≤
            (conditional v c o).nesting := by
          rw [nestingAt_zero, nestingAt_zero] at ho
          rw [nesting_conditional, nesting_conditional]
          omega
        rw [replace, if_neg heq]
        exact nestingAt_mono hnest (Nat.zero_le 0) k

theorem nestingList_replaceList_le (as : List Expr) (n : Expr) (m : String) :
    nestingList (replaceList as n (.ref m)) ≤ nestingList as := by
  match as with
  | [] => exact Nat.le_refl _
  | a :: as =>
      have ha := nestingAt_replace_le 0 a n m
      have has := nestingList_replaceList_le as n m
      rw [nestingAt_zero, nestingAt_zero] at ha
      rw [replaceList, nestingList, nestingList]
      omega

end

/-! ## Trees whose text is read as an equal tree -/

/-- What a tree needs for its text to be read as an equal tree, apart from names for its events. -/
structure Fitting (t : Expr) : Prop extends t.Bounded where
  nesting_lt : t.nesting < maxNesting

theorem Fitting.replace {t : Expr} (h : t.Fitting) (n : Expr) (m : String) : (t.replace n (.ref m)).Fitting := by
  have hnest := nestingAt_replace_le 0 t n m
  rw [nestingAt_zero, nestingAt_zero] at hnest
  exact ⟨h.toBounded.replace n m, Nat.lt_of_le_of_lt hnest h.nesting_lt⟩

/-- The text of a tree is read as an equal tree. -/
def ReadsBack (t : Expr) : Prop := ∃ t', parse t.print = .ok t' ∧ t' == t

theorem readsBack_iff {t : Expr} : (parse t.print).toOption.any (· == t) ↔ t.ReadsBack := by
  simp only [Option.any_eq_true, toOption_eq_some, ReadsBack]

instance (t : Expr) : Decidable t.ReadsBack := decidable_of_iff _ readsBack_iff

theorem ReadsBack.fitting {t : Expr} (h : t.ReadsBack) : t.Fitting ∧ t.Named := by
  obtain ⟨t', hparse, hequal⟩ := h
  obtain ⟨hwell, hnamed, -, -⟩ := wellFormed_of_parse hparse
  have hwell := hwell.of_beq hequal
  have hnamed := hnamed.of_beq hequal
  obtain ⟨-, hdepth, hnest⟩ := eq_of_parse_print hwell hnamed hparse
  exact ⟨⟨⟨hwell, hdepth⟩, hnest⟩, hnamed⟩

theorem Fitting.readsBack {t : Expr} (h : t.Fitting) (hnamed : t.Named) : t.ReadsBack :=
  ⟨t, parse_print_of_nesting h.wellFormed hnamed h.depth_le h.nesting_lt, beq_self t h.wellFormed.finite⟩

end Expr

namespace FormulaSet

variable {s : FormulaSet} {n : String} {t : Expr}

theorem fitting_crossReference {d : Expr} (h : t.Fitting) (ht : s.simplified.get? n = some t)
    (hd : (n, d) ∈ s.crossReference) : d.Fitting :=
  crossReference_induction (fun m u _ _ _ htree => htree.replace u m) ht hd h

/-- All events of a new tree have names, unless the reference without a name was put in. -/
theorem named_crossReference {d : Expr} (h : t.Named) (ht : s.simplified.get? n = some t)
    (hd : (n, d) ∈ s.crossReference) : d.Named ↔ Event.bare "" ∉ d.events := by
  constructor
  · intro hnamed hmem
    exact hnamed _ hmem rfl
  · intro hfree e he hname
    rcases mem_events_of_finals ht (get?_finals_of_mem hd) he with he | ⟨m, -, rfl⟩
    · exact h e he hname
    · obtain rfl : m = "" := hname
      exact hfree he

/-- If the text of a simplified formula is read as an equal tree, so is that of the new tree, unless a reference to a
formula with the empty name was put in. -/
theorem readsBack_crossReference {d : Expr} (ht : s.simplified.get? n = some t) (hread : t.ReadsBack)
    (hd : (n, d) ∈ s.crossReference) :
    (d.ReadsBack ↔ Event.bare "" ∉ d.events) ∧ (¬ s.contains "" → d.ReadsBack) := by
  obtain ⟨hfitting, hnamed⟩ := hread.fitting
  have hfits := fitting_crossReference hfitting ht hd
  have hnames := named_crossReference hnamed ht hd
  have hiff : d.ReadsBack ↔ Event.bare "" ∉ d.events :=
    ⟨fun h => hnames.mp h.fitting.2, fun h => hfits.readsBack (hnames.mpr h)⟩
  refine ⟨hiff, fun hempty => hiff.mpr fun hmem => ?_⟩
  rcases mem_events_of_finals ht (get?_finals_of_mem hd) hmem with hmem | ⟨m, hm, heq⟩
  · exact hnamed _ hmem rfl
  · obtain rfl : "" = m := congrArg Event.name heq
    obtain ⟨u, hu⟩ := Table.contains_iff.mp hm
    obtain ⟨e, he, -⟩ := get?_simplified.mp hu
    exact hempty (Table.contains_iff.mpr ⟨e, he⟩)

/-- A rate under some name, and a product with it. -/
def productWithRate (name : String) : FormulaSet :=
  .ofList [(name, .binary .div (.ref "x") (.ref "y")),
    ("Product", .binary .mul (.binary .div (.ref "x") (.ref "y")) (.ref "z"))]

theorem readsBack_crossReference_keyword :
    ∃ d, ("Product", d) ∈ (productWithRate "if").crossReference ∧ d.print = "\\if * z" ∧ d.ReadsBack := by
  have hnew : (Entries.find? "Product" (productWithRate "if").crossReference).any
      (·.print == "\\if * z") := by decide +kernel
  obtain ⟨d, hd, hprint⟩ := (Option.any_eq_true _ _).mp hnew
  have hmem := Entries.mem_of_find? hd
  let product : Expr := .binary .mul (.binary .div (.ref "x") (.ref "y")) (.ref "z")
  have hsimplified : (productWithRate "if").simplified.get? "Product" = some product := rfl
  have hread : product.ReadsBack := by decide +kernel
  have hback := (readsBack_crossReference hsimplified hread hmem).2 (by decide +kernel)
  exact ⟨d, hmem, eq_of_beq hprint, hback⟩

/-- A set takes the empty name, but the name has no text. -/
theorem not_readsBack_unnamed :
    (do (← FormulaSet.pushText .empty "" "x / y").pushText "Product" "x / y * z") = .ok (productWithRate "") ∧
      (∀ n t, (productWithRate "").simplified.get? n = some t → t.ReadsBack) ∧
      ∃ d, ("Product", d) ∈ (productWithRate "").crossReference ∧ d.print = " * z" ∧ ¬ d.ReadsBack := by
  refine ⟨rfl, fun n t ht => ?_, ?_⟩
  · have hread : ∀ c ∈ (productWithRate "").simplified.entries, c.2.ReadsBack := by decide +kernel
    exact hread (n, t) (Table.get?_eq_some.mp ht)
  · have hnew : (Entries.find? "Product" (productWithRate "").crossReference).any
        (fun d => d.print == " * z" && !decide d.ReadsBack) := by decide +kernel
    obtain ⟨d, hd, hboth⟩ := (Option.any_eq_true _ _).mp hnew
    obtain ⟨hprint, hfails⟩ := Bool.and_eq_true_iff.mp hboth
    exact ⟨d, Entries.mem_of_find? hd, eq_of_beq hprint, by simpa using hfails⟩

end FormulaSet

end MetricFormula
