import MetricFormula.Proofs.Expr.Tokens
import MetricFormula.Proofs.Grammar.Phrase

/-!
# The levels of canonical text

The tokens of a tree are a phrase for it, and no other phrase for the tree opens fewer levels.
-/

namespace MetricFormula

/-- A sign opens a level. -/
def Binary64.nesting : Binary64 → Nat
  | .finite true _ _ => 1
  | _ => 0

theorem Binary64.nesting_le (x : Binary64) : x.nesting ≤ 1 := by unfold nesting; split <;> decide

namespace Expr

def groupedNesting (parens : Bool) (n : Nat) : Nat := if parens then n + 1 else n

mutual

/-- The levels that the tokens of the tree open inside the level of the formula. -/
def nesting : Expr → Nat
  | .literal x => x.nesting
  | .event _ => 0
  | .binary op l r =>
    max (groupedNesting (groupsLeft op l) l.nesting) (groupedNesting (groupsRight op r) r.nesting)
  | .call _ as => nestingList as
  | .conditional v t o =>
    max (max (groupedNesting v.isConditional v.nesting) (groupedNesting t.isConditional t.nesting)) (o.nesting + 1)

def nestingList : List Expr → Nat
  | [] => 0
  | a :: as => max (a.nesting + 1) (nestingList as)

end

theorem groupsLeft_iff {op : Operator} {e : Expr} : groupsLeft op e ↔ e.precedence < op.leftStrength := by
  unfold groupsLeft Operator.leftStrength
  split
  · rw [decide_eq_true_iff, Nat.lt_succ_iff]
  · rw [decide_eq_true_iff]

theorem groupsRight_iff {op : Operator} {e : Expr} : groupsRight op e ↔ e.precedence < op.precedence + 1 := by
  rw [groupsRight, decide_eq_true_iff, Nat.lt_succ_iff]

theorem isConditional_iff {e : Expr} : e.isConditional ↔ e.precedence < 1 := by
  cases e with
  | conditional v t o => simp [isConditional, precedence]
  | binary op l r => simp [isConditional, precedence, Nat.ne_of_gt op.precedence_pos]
  | literal x => simp [isConditional, precedence]
  | event e => simp [isConditional, precedence]
  | call f as => simp [isConditional, precedence]

end Expr

theorem Operator.leftStrength_le (op : Operator) : op.leftStrength ≤ 5 := by cases op <;> decide

theorem Operator.leftStrength_pos (op : Operator) : 0 < op.leftStrength := by cases op <;> decide

/-! ## Every phrase opens as many levels -/

/-- A phrase of strength `k` that opens at most `n` levels has room for the canonical phrase of `e`, with or without
parentheses around it. -/
def Fits (k n : Nat) (e : Expr) : Prop := e.nesting < n ∨ 0 < k ∧ min k 6 ≤ e.precedence ∧ e.nesting ≤ n

namespace Fits

theorem le {k n : Nat} {e : Expr} (h : Fits k n e) : e.nesting ≤ n := by
  rcases h with h | ⟨_, _, h⟩
  · exact Nat.le_of_lt h
  · exact h

theorem lt {n : Nat} {e : Expr} (h : Fits 0 n e) : e.nesting < n := by
  rcases h with h | ⟨h, _⟩
  · exact h
  · cases h

/-- An operand has room for its parentheses, if it needs them. -/
theorem grouped {k n : Nat} {e : Expr} {parens : Bool} (h : Fits k n e) (hk : k ≤ 6) (hp : parens ↔ e.precedence < k) :
    Expr.groupedNesting parens e.nesting ≤ n := by
  cases parens with
  | false => exact h.le
  | true =>
      have hlt := hp.mp rfl
      rcases h with h | ⟨_, hmin, _⟩
      · exact h
      · omega

end Fits

theorem Fits.negated {n : Nat} {e : Expr} (h : Fits 6 n e) : Fits 6 (n + 1) e.negated := by
  unfold Expr.negated
  split
  · rename_i x
    exact .inr ⟨by decide, Nat.le_refl _, Nat.le_trans (-x).nesting_le (Nat.le_add_left 1 n)⟩
  · have hright : Expr.groupedNesting (Expr.groupsRight .sub e) e.nesting ≤ n :=
      Fits.grouped (k := 5) (h.imp_right fun ⟨_, hmin, hle⟩ => ⟨by decide, by omega, hle⟩) (by decide)
        Expr.groupsRight_iff
    refine .inl ?_
    have hzero : Expr.groupedNesting (Expr.groupsLeft .sub (.literal 0)) (Expr.literal 0).nesting = 0 := rfl
    rw [Expr.nesting, hzero, Nat.zero_max]
    exact Nat.lt_succ_of_le hright

theorem Token.WellFormed.nesting {x : Binary64} (h : (Token.number x).WellFormed) : x.nesting = 0 := by
  obtain ⟨u, hu, rfl⟩ := h
  rfl

mutual

theorem Phrase.fits {k n ts e} (h : Phrase k n ts e) (hts : ∀ t ∈ ts, t.WellFormed) : Fits k n e := by
  match h with
  | .plain h => exact .inl (Nat.lt_succ_of_le (h.fits hts).le)
  | .conditional hv ht ho =>
      simp only [List.forall_mem_append, List.forall_mem_cons] at hts
      obtain ⟨hts, _, hus, _, hws⟩ := hts
      have hvalue := (hv.fits hts).grouped (by decide) Expr.isConditional_iff
      have htest := (ht.fits hus).grouped (by decide) Expr.isConditional_iff
      have hlast := (ho.fits hws).lt
      exact .inl (Nat.lt_succ_of_le (Nat.max_le.mpr ⟨Nat.max_le.mpr ⟨hvalue, htest⟩, hlast⟩))
  | @Phrase.binary _ _ op _ _ _ _ hk hl hr =>
      simp only [List.forall_mem_append, List.forall_mem_cons] at hts
      obtain ⟨hts, _, hus⟩ := hts
      have hpos := op.precedence_pos
      have hlt := op.precedence_lt
      have hleft := (hl.fits hts).grouped (Nat.le_succ_of_le op.leftStrength_le) Expr.groupsLeft_iff
      have hright := (hr.fits hus).grouped (by omega) (by rw [Expr.groupsRight_iff, hk])
      exact .inr ⟨by omega, by rw [Expr.precedence]; omega, Nat.max_le.mpr ⟨hleft, hright⟩⟩
  | .tighter hk _ h => exact (h.fits hts).imp_right fun ⟨_, hmin, hle⟩ => ⟨hk, by omega, hle⟩
  | .sign h => exact (h.fits (List.forall_mem_cons.mp hts).2).negated
  | .number =>
      refine .inr ⟨by decide, Nat.le_refl _, ?_⟩
      rw [Expr.nesting, Token.WellFormed.nesting (hts _ (by simp))]
      exact Nat.zero_le _
  | .event => exact .inr ⟨by decide, Nat.le_refl _, Nat.zero_le _⟩
  | .name _ => exact .inr ⟨by decide, Nat.le_refl _, Nat.zero_le _⟩
  | .group h =>
      simp only [List.forall_mem_append, List.forall_mem_cons] at hts
      exact .inl (h.fits hts.2.1).lt
  | .call _ h _ _ =>
      simp only [List.forall_mem_append, List.forall_mem_cons] at hts
      exact .inr ⟨by decide, Nat.le_refl _, h.nestingList_le hts.2.2.1⟩

theorem Arguments.nestingList_le {n ts as} (h : Arguments n ts as) (hts : ∀ t ∈ ts, t.WellFormed) :
    Expr.nestingList as ≤ n := by
  match h with
  | .last h => exact Nat.max_le.mpr ⟨(h.fits hts).lt, Nat.zero_le _⟩
  | .more h hs =>
      simp only [List.forall_mem_append, List.forall_mem_cons] at hts
      exact Nat.max_le.mpr ⟨(h.fits hts.1).lt, hs.nestingList_le hts.2.2⟩

end

/-! ## Phrases of well-formed tokens -/

theorem Expr.WellFormed.negated {e : Expr} (h : e.WellFormed) : e.negated.WellFormed := by
  unfold Expr.negated
  split
  · rename_i x
    cases x with
    | nan => cases h
    | infinite n => cases h
    | finite n u hu => exact (rfl : (Binary64.finite (!n) u hu).isFinite = true)
  · exact ⟨(rfl : (0 : Binary64).isFinite = true), h⟩

theorem Expr.Named.negated {e : Expr} (h : e.Named) : e.negated.Named := by
  unfold Expr.negated
  split
  · exact h
  · exact List.forall_mem_append.mpr ⟨nofun, h⟩

mutual

/-- A phrase of well-formed tokens stands for a well-formed tree. -/
theorem Phrase.wellFormed {k n ts e} (h : Phrase k n ts e) (hts : ∀ t ∈ ts, t.WellFormed) : e.WellFormed ∧ e.Named := by
  match h with
  | .plain h => exact h.wellFormed hts
  | .conditional hv ht ho =>
      simp only [List.forall_mem_append, List.forall_mem_cons] at hts
      obtain ⟨hts, _, hus, _, hws⟩ := hts
      obtain ⟨hv, hvn⟩ := hv.wellFormed hts
      obtain ⟨ht, htn⟩ := ht.wellFormed hus
      obtain ⟨ho, hon⟩ := ho.wellFormed hws
      exact ⟨⟨hv, ht, ho⟩, List.forall_mem_append.mpr ⟨List.forall_mem_append.mpr ⟨hvn, htn⟩, hon⟩⟩
  | .binary _ hl hr =>
      simp only [List.forall_mem_append, List.forall_mem_cons] at hts
      obtain ⟨hl, hln⟩ := hl.wellFormed hts.1
      obtain ⟨hr, hrn⟩ := hr.wellFormed hts.2.2
      exact ⟨⟨hl, hr⟩, List.forall_mem_append.mpr ⟨hln, hrn⟩⟩
  | .tighter _ _ h => exact h.wellFormed hts
  | .sign h =>
      obtain ⟨he, hen⟩ := h.wellFormed (List.forall_mem_cons.mp hts).2
      exact ⟨he.negated, hen.negated⟩
  | .number =>
      obtain ⟨u, hu, rfl⟩ := List.forall_mem_singleton.mp hts
      exact ⟨rfl, nofun⟩
  | .event =>
      obtain ⟨he, hname⟩ := List.forall_mem_singleton.mp hts
      exact ⟨he, List.forall_mem_singleton.mpr hname⟩
  | .name _ =>
      have hname := List.forall_mem_singleton.mp hts
      exact ⟨Event.WellFormed.bare _, List.forall_mem_singleton.mpr hname⟩
  | .group h =>
      simp only [List.forall_mem_append, List.forall_mem_cons] at hts
      exact h.wellFormed hts.2.1
  | .call _ h hlen hevent =>
      simp only [List.forall_mem_append, List.forall_mem_cons] at hts
      obtain ⟨hargs, hnames⟩ := h.wellFormedList hts.2.2.1
      exact ⟨⟨hlen, hevent, hargs⟩, hnames⟩

theorem Arguments.wellFormedList {n ts as} (h : Arguments n ts as) (hts : ∀ t ∈ ts, t.WellFormed) :
    Expr.WellFormedList as ∧ ∀ e ∈ Expr.eventsList as, e.name ≠ "" := by
  match h with
  | .last h =>
      obtain ⟨ha, han⟩ := h.wellFormed hts
      exact ⟨⟨ha, trivial⟩, List.forall_mem_append.mpr ⟨han, nofun⟩⟩
  | .more h hs =>
      simp only [List.forall_mem_append, List.forall_mem_cons] at hts
      obtain ⟨ha, han⟩ := h.wellFormed hts.1
      obtain ⟨has, hasn⟩ := hs.wellFormedList hts.2.2
      exact ⟨⟨ha, has⟩, List.forall_mem_append.mpr ⟨han, hasn⟩⟩

end

/-! ## The canonical phrase -/

theorem Phrase.loosen {k m n ts e} (h : Phrase m n ts e) (hk : 0 < k) (hkm : k ≤ m) (hm : m ≤ 7) : Phrase k n ts e := by
  obtain ⟨d, rfl⟩ := Nat.exists_eq_add_of_le hkm
  induction d with
  | zero => exact h
  | succ d ih => exact ih (.tighter (by omega) (by omega) h) (by omega) (by omega)

/-- The phrases of a tree at its own strength and as a formula. -/
structure Canonical (n : Nat) (ts : List Token) (e : Expr) : Prop where
  operand : 0 < e.precedence → Phrase e.precedence n ts e
  formula : Phrase 0 (n + 1) ts e

theorem Canonical.ofOperand {n ts e} (hpos : 0 < e.precedence) (hle : e.precedence ≤ 7)
    (h : Phrase e.precedence n ts e) : Canonical n ts e :=
  ⟨fun _ => h, .plain (h.loosen (by decide) hpos hle)⟩

namespace Expr

theorem precedence_le (e : Expr) : e.precedence ≤ 7 := by
  cases e with
  | binary op l r => exact Nat.le_of_lt (Nat.lt_succ_of_lt op.precedence_lt)
  | conditional v t o => exact Nat.zero_le 7
  | literal x => exact Nat.le_succ 6
  | event e => exact Nat.le_succ 6
  | call f as => exact Nat.le_succ 6

theorem phrase_grouped {k n : Nat} {e : Expr} {parens : Bool} (h : ∀ m, e.nesting ≤ m → Canonical m e.tokens e)
    (hk : 0 < k) (hk' : k ≤ 7) (hp : parens ↔ e.precedence < k) (hn : groupedNesting parens e.nesting ≤ n) :
    Phrase k n (groupedTokens parens e.tokens) e := by
  cases parens with
  | true =>
      obtain ⟨m, rfl⟩ : ∃ m, n = m + 1 := ⟨n - 1, by simp only [groupedNesting, if_true] at hn; omega⟩
      exact (Phrase.group (h m (Nat.le_of_succ_le_succ hn)).formula).loosen hk hk' (Nat.le_refl _)
  | false =>
      have hle : k ≤ e.precedence := Nat.le_of_not_lt fun hlt => Bool.false_ne_true (hp.mpr hlt)
      exact ((h n hn).operand (by omega)).loosen hk hle e.precedence_le

/-- An operand without a sign is a phrase of its own strength. -/
theorem canonical_of_operand {n ts} {e : Expr} (hprec : e.precedence = 6) (h : Phrase 7 n ts e) : Canonical n ts e :=
  .ofOperand (by omega) (by omega) (hprec ▸ .tighter (by decide) (by decide) h)

theorem phrase_event {e : Event} (hname : e.name ≠ "") (n : Nat) : Phrase 7 n [e.token] (.event e) := by
  unfold Event.token
  split
  · rename_i h
    obtain ⟨hbare, hplain⟩ := Bool.and_eq_true_iff.mp h
    have hfree := Lexer.isReserved_of_not_escapes hname (by simpa using hplain)
    simp only [isReserved, Bool.or_eq_false_iff] at hfree
    have hnone : Builtin.ofName? e.name = none := Option.not_isSome_iff_eq_none.mp (by simp [hfree.2])
    rw [Event.isBare_iff.mp hbare]
    exact .name hnone
  · exact .event

theorem phrase_literal {x : Binary64} {n : Nat} (hn : x.nesting ≤ n) : Phrase 6 n x.tokens (.literal x) := by
  unfold Binary64.tokens
  split
  · rename_i u hu
    obtain ⟨m, rfl⟩ : ∃ m, n = m + 1 := ⟨n - 1, (Nat.sub_add_cancel hn).symm⟩
    exact .sign (.tighter (by decide) (by decide) .number)
  · exact .tighter (by decide) (by decide) .number

mutual

theorem canonical_tokens (t : Expr) (h : t.WellFormed) (hn : t.Named) {n : Nat} (hnest : t.nesting ≤ n) :
    Canonical n t.tokens t := by
  match t with
  | .literal x => exact .ofOperand (Nat.succ_pos 5) (Nat.le_succ 6) (phrase_literal hnest)
  | .event e => exact canonical_of_operand rfl (phrase_event (hn e (List.mem_singleton_self e)) n)
  | .binary op l r =>
      obtain ⟨hln, hrn⟩ := List.forall_mem_append.mp hn
      obtain ⟨hleft, hright⟩ := Nat.max_le.mp hnest
      have hlt := op.precedence_lt
      refine .ofOperand op.precedence_pos (precedence_le _) (.binary rfl ?_ ?_)
      · exact phrase_grouped (fun _ hm => canonical_tokens l h.1 hln hm) op.leftStrength_pos
          (Nat.le_trans op.leftStrength_le (by decide)) groupsLeft_iff hleft
      · exact phrase_grouped (fun _ hm => canonical_tokens r h.2 hrn hm) (Nat.succ_pos _)
          (Nat.le_succ_of_le (Nat.succ_le_of_lt hlt)) groupsRight_iff hright
  | .call f as =>
      obtain ⟨hlen, hevent, has⟩ := h
      have hargs := arguments_tokens as has hn hnest (by rintro rfl; exact absurd hlen (Nat.ne_of_lt f.arity_pos))
      exact canonical_of_operand rfl (.call (by cases f <;> rfl) hargs hlen hevent)
  | .conditional v t o =>
      obtain ⟨hvtn, hon⟩ := List.forall_mem_append.mp hn
      obtain ⟨hvn, htn⟩ := List.forall_mem_append.mp hvtn
      obtain ⟨hvt, ho⟩ := Nat.max_le.mp hnest
      obtain ⟨hv, ht⟩ := Nat.max_le.mp hvt
      obtain ⟨m, rfl⟩ : ∃ m, n = m + 1 := ⟨n - 1, by omega⟩
      have hlast := (canonical_tokens o h.2.2 hon (Nat.le_of_succ_le_succ ho)).formula
      refine ⟨nofun, .conditional ?_ ?_ hlast⟩
      · exact phrase_grouped (fun _ hm => canonical_tokens v h.1 hvn hm) (by decide) (by decide) isConditional_iff hv
      · exact phrase_grouped (fun _ hm => canonical_tokens t h.2.1 htn hm) (by decide) (by decide) isConditional_iff ht

theorem arguments_tokens (as : List Expr) (h : WellFormedList as) (hn : ∀ e ∈ eventsList as, e.name ≠ "") {n : Nat}
    (hnest : nestingList as ≤ n) (hne : as ≠ []) : Arguments n (argumentsTokens as) as := by
  match as with
  | [] => exact absurd rfl hne
  | a :: as =>
      obtain ⟨han, hasn⟩ := List.forall_mem_append.mp hn
      obtain ⟨ha, has⟩ := Nat.max_le.mp hnest
      obtain ⟨m, rfl⟩ : ∃ m, n = m + 1 := ⟨n - 1, by omega⟩
      have hfirst := (canonical_tokens a h.1 han (Nat.le_of_succ_le_succ ha)).formula
      have hmore := arguments_tokens as h.2 hasn has
      cases as with
      | nil =>
          rw [argumentsTokens, moreArgumentsTokens, List.append_nil]
          exact .last hfirst
      | cons b bs => exact .more hfirst (hmore (List.cons_ne_nil _ _))

end

end Expr

end MetricFormula
