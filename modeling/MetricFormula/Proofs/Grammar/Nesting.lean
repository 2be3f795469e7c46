import MetricFormula.Proofs.Grammar.Completeness

/-!
# Open constructs

A parenthesis, an `else` branch and a sign are open up to the end of what belongs to them. The tokens before a point
tell which of them are open there, without a tree.
-/

namespace MetricFormula

inductive Construct where
  | group
  | branch
  | sign
  deriving DecidableEq

/-- The constructs that are open, the innermost first, and whether an operand has just ended. -/
structure Scope where
  constructs : List Construct
  afterOperand : Bool

namespace Scope

/-- Nothing is open before the first token. -/
def start : Scope := ⟨[], false⟩

/-- A sign reaches no further than its operand. -/
def closeSigns (cs : List Construct) : List Construct := cs.dropWhile (· == .sign)

/-- What is open within the innermost parentheses ends with them, and with an argument of theirs. -/
def closeToGroup (cs : List Construct) : List Construct := cs.dropWhile (· != .group)

/-- A minus is a sign where no operand has ended. -/
def next (s : Scope) : Token → Scope
  | .number _ | .word _ | .event _ => ⟨s.constructs, true⟩
  | .openParen => ⟨.group :: s.constructs, false⟩
  | .closeParen => ⟨(closeToGroup s.constructs).tail, true⟩
  | .comma => ⟨closeToGroup s.constructs, false⟩
  | .ifKeyword => ⟨closeSigns s.constructs, false⟩
  | .elseKeyword => ⟨.branch :: closeSigns s.constructs, false⟩
  | .operator op =>
    if s.afterOperand then ⟨closeSigns s.constructs, false⟩
    else if op = .sub then ⟨.sign :: s.constructs, false⟩
    else s

end Scope

def scopeAfter (ts : List Token) : Scope := ts.foldl Scope.next .start

theorem scopeAfter_concat (ts : List Token) (x : Token) : scopeAfter (ts ++ [x]) = (scopeAfter ts).next x :=
  List.foldl_append

/-- From the first scope the tokens lead to the second, and fewer than `m` constructs are open before each of them. -/
inductive Scans (m : Nat) : Scope → List Token → Scope → Prop where
  | nil {s} : Scans m s [] s
  | cons {s t ts u} : s.constructs.length < m → Scans m (s.next t) ts u → Scans m s (t :: ts) u

namespace Scans

variable {m : Nat} {s t u : Scope} {x : Token} {ts us : List Token}

theorem append (h : Scans m s ts t) (h' : Scans m t us u) : Scans m s (ts ++ us) u := by
  induction h with
  | nil => exact h'
  | cons hlt _ ih => exact .cons hlt (ih h')

theorem single (h : s.constructs.length < m) : Scans m s [x] (s.next x) := .cons h .nil

theorem concat (h : Scans m s ts t) (hlt : t.constructs.length < m) : Scans m s (ts ++ [x]) (t.next x) :=
  h.append (single hlt)

theorem foldl_eq (h : Scans m s ts t) : ts.foldl Scope.next s = t := by
  induction h with
  | nil => rfl
  | cons _ _ ih => exact ih

theorem scopeAfter_eq (h : Scans m .start ts t) : scopeAfter ts = t := h.foldl_eq

theorem lt_of_prefix (h : Scans m s ts t) {us : List Token} (hus : us <+: ts) (hne : us ≠ ts) :
    (us.foldl Scope.next s).constructs.length < m := by
  induction h generalizing us with
  | nil => exact absurd (List.prefix_nil.mp hus) hne
  | @cons s x ts t hlt _ ih =>
      cases us with
      | nil => exact hlt
      | cons y us =>
          obtain ⟨rfl, hrest⟩ := List.cons_prefix_cons.mp hus
          exact ih hrest fun heq => hne (heq ▸ rfl)

end Scans

/-! ## What a phrase leaves open -/

/-- No sign is innermost, so that the next operator closes nothing. -/
def Settled (cs : List Construct) : Prop := ∀ c ∈ cs.head?, c ≠ .sign

theorem settled_group (cs : List Construct) : Settled (.group :: cs) := by rintro c ⟨⟩; decide

theorem settled_branch (cs : List Construct) : Settled (.branch :: cs) := by rintro c ⟨⟩; decide

namespace Scope

theorem closeSigns_append {signs cs : List Construct} (hs : ∀ c ∈ signs, c = .sign) (hcs : Settled cs) :
    closeSigns (signs ++ cs) = cs := by
  induction signs with
  | nil =>
      cases cs with
      | nil => rfl
      | cons c cs => exact List.dropWhile_cons_of_neg (by simpa using hcs c rfl)
  | cons c signs ih =>
      obtain ⟨rfl, hsigns⟩ := List.forall_mem_cons.mp hs
      exact ih hsigns

theorem closeToGroup_append {inner cs : List Construct} (h : .group ∉ inner) :
    closeToGroup (inner ++ .group :: cs) = .group :: cs := by
  induction inner with
  | nil => rfl
  | cons c inner ih =>
      obtain ⟨hc, h⟩ := not_or.mp (mt List.mem_cons.mpr h)
      rw [closeToGroup, List.cons_append, List.dropWhile_cons_of_pos (by simpa using Ne.symm hc)]
      exact ih h

end Scope

/-- What a phrase of strength `k` leaves open: its signs, and the branch of a formula. -/
structure Leaves (k : Nat) (inner : List Construct) : Prop where
  group : .group ∉ inner
  signs : 0 < k → ∀ c ∈ inner, c = .sign

theorem leaves_nil (k : Nat) : Leaves k [] := ⟨nofun, nofun⟩

theorem Leaves.of_signs {inner : List Construct} (h : ∀ c ∈ inner, c = .sign) (k : Nat) : Leaves k inner :=
  ⟨fun hmem => absurd (h _ hmem) (by decide), fun _ => h⟩

/-- Where the phrase ends; fewer than `m` constructs are open all along. -/
def ScansPhrase (m k : Nat) (cs : List Construct) (ts : List Token) : Prop :=
  ∃ inner, Leaves k inner ∧ (inner ++ cs).length < m ∧ Scans m ⟨cs, false⟩ ts ⟨inner ++ cs, true⟩

variable {m k n : Nat} {cs : List Construct} {ts us : List Token}

theorem ScansPhrase.of_tighter {j : Nat} (h : ScansPhrase m j cs ts) (hj : 0 < j) : ScansPhrase m k cs ts := by
  obtain ⟨inner, hleaves, hlt, hscans⟩ := h
  exact ⟨inner, .of_signs (hleaves.signs hj) k, hlt, hscans⟩

theorem scansPhrase_operand {x : Token} (hx : ∀ s : Scope, s.next x = ⟨s.constructs, true⟩) (hlt : cs.length < m) :
    ScansPhrase m k cs [x] :=
  ⟨[], leaves_nil k, hlt, hx ⟨cs, false⟩ ▸ .single hlt⟩

theorem ScansPhrase.followed {x : Token} {s : Scope} (h : ScansPhrase m k cs ts)
    (hx : ∀ inner, Leaves k inner → Scope.next ⟨inner ++ cs, true⟩ x = s) :
    Scans m ⟨cs, false⟩ (ts ++ [x]) s := by
  obtain ⟨inner, hleaves, hlt, hscans⟩ := h
  exact hx inner hleaves ▸ hscans.concat hlt

/-! ## What comes after a phrase -/

namespace Leaves

variable {inner : List Construct}

/-- After an operator, the constructs are open that were open before its left operand. -/
theorem next_operator (h : Leaves k inner) (hk : 0 < k) (hcs : Settled cs) (op : Operator) :
    Scope.next ⟨inner ++ cs, true⟩ (.operator op) = ⟨cs, false⟩ := by
  rw [Scope.next, if_pos rfl, Scope.closeSigns_append (h.signs hk) hcs]

theorem next_ifKeyword (h : Leaves k inner) (hk : 0 < k) (hcs : Settled cs) :
    Scope.next ⟨inner ++ cs, true⟩ .ifKeyword = ⟨cs, false⟩ := by
  rw [Scope.next, Scope.closeSigns_append (h.signs hk) hcs]

theorem next_elseKeyword (h : Leaves k inner) (hk : 0 < k) (hcs : Settled cs) :
    Scope.next ⟨inner ++ cs, true⟩ .elseKeyword = ⟨.branch :: cs, false⟩ := by
  rw [Scope.next, Scope.closeSigns_append (h.signs hk) hcs]

theorem next_comma (h : Leaves k inner) : Scope.next ⟨inner ++ .group :: cs, true⟩ .comma = ⟨.group :: cs, false⟩ := by
  rw [Scope.next, Scope.closeToGroup_append h.group]

theorem next_closeParen (h : Leaves k inner) : Scope.next ⟨inner ++ .group :: cs, true⟩ .closeParen = ⟨cs, true⟩ := by
  rw [Scope.next, Scope.closeToGroup_append h.group]
  rfl

end Leaves

/-! ## Phrases -/

mutual

/-- A phrase that opens at most `n` levels opens no more constructs; a formula is itself one of its levels. -/
theorem Phrase.scans {k n ts e} (h : Phrase k n ts e) (m : Nat) (cs : List Construct)
    (hroom : n + cs.length < m + (1 - k)) (hcs : k < 6 → Settled cs) : ScansPhrase m k cs ts := by
  match h with
  | .plain h => exact (h.scans m cs (by omega) fun _ => hcs (by decide)).of_tighter (by decide)
  | @Phrase.conditional n ts us ws _ _ _ hv ht ho =>
      have hsettled := hcs (by decide)
      have hvalue := (hv.scans m cs (by omega) fun _ => hsettled).followed fun _ h =>
        h.next_ifKeyword (by decide) hsettled
      have htest := (ht.scans m cs (by omega) fun _ => hsettled).followed fun _ h =>
        h.next_elseKeyword (by decide) hsettled
      obtain ⟨inner, hleaves, hlt, hscans⟩ :=
        ho.scans m (.branch :: cs) (by simp only [List.length_cons]; omega) fun _ => settled_branch cs
      refine ⟨inner ++ [.branch], ⟨?_, nofun⟩, by simpa using hlt, ?_⟩
      · simpa using hleaves.group
      · simpa using hvalue.append (htest.append hscans)
  | @Phrase.binary _ _ op ts us _ _ hop hl hr =>
      have hlt := op.precedence_lt
      have hpos := op.precedence_pos
      have hstrength : 0 < op.leftStrength := by cases op <;> decide
      have hsettled := hcs (by omega)
      have hleft := (hl.scans m cs (by omega) fun _ => hsettled).followed fun _ h =>
        h.next_operator hstrength hsettled op
      obtain ⟨inner, hleaves, hlt, hscans⟩ := (hr.scans m cs (by omega) fun _ => hsettled).of_tighter (Nat.succ_pos _)
      exact ⟨inner, hleaves, hlt, by simpa using hleft.append hscans⟩
  | .tighter h₀ h₇ h => exact (h.scans m cs (by omega) fun _ => hcs (by omega)).of_tighter (Nat.succ_pos _)
  | @Phrase.sign n ts _ h =>
      obtain ⟨inner, hleaves, hlt, hscans⟩ :=
        h.scans m (.sign :: cs) (by simp only [List.length_cons]; omega) fun h₆ => absurd h₆ (by decide)
      refine ⟨inner ++ [.sign], .of_signs ?_ 6, by simpa using hlt, ?_⟩
      · exact List.forall_mem_append.mpr ⟨hleaves.signs (by decide), by simp⟩
      · rw [List.append_assoc]
        exact .cons (show cs.length < m by omega) hscans
  | .number => exact scansPhrase_operand (fun _ => rfl) (by omega)
  | .event => exact scansPhrase_operand (fun _ => rfl) (by omega)
  | .name _ => exact scansPhrase_operand (fun _ => rfl) (by omega)
  | .group h =>
      have hlt : cs.length < m := by omega
      have hinner := (h.scans m (.group :: cs) (by simp only [List.length_cons]; omega) fun _ => settled_group cs).followed
        fun _ h => h.next_closeParen
      exact ⟨[], leaves_nil 7, hlt, .cons hlt hinner⟩
  | .call _ h _ _ =>
      have hlt : cs.length < m := by omega
      exact ⟨[], leaves_nil 7, hlt, .cons hlt (.cons hlt (h.scans m cs (by omega)))⟩

theorem Arguments.scans {n ts args} (h : Arguments n ts args) (m : Nat) (cs : List Construct)
    (hroom : n + cs.length < m) : Scans m ⟨.group :: cs, false⟩ (ts ++ [.closeParen]) ⟨cs, true⟩ := by
  match h with
  | .last h =>
      exact (h.scans m (.group :: cs) (by simp only [List.length_cons]; omega) fun _ => settled_group cs).followed
        fun _ h => h.next_closeParen
  | .more h hmore =>
      have hfirst := (h.scans m (.group :: cs) (by simp only [List.length_cons]; omega) fun _ => settled_group cs).followed
        fun _ h => h.next_comma
      simpa using hfirst.append (hmore.scans m cs hroom)

end

end MetricFormula
