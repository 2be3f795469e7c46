import MetricFormula.Proofs.Grammar.Nesting
import MetricFormula.Proofs.Grammar.RoundTrip

/-!
# The limit of nesting

The formula itself takes one of the levels. So of the constructs one less can be open than there are levels, and what is
refused is the construct that takes the last of them. It is already read by then, and the error is at the token after it.
-/

namespace MetricFormula

/-- The place of the first token, or the end of the text. -/
def firstPlace (ls : List LocatedToken) (textEnd : Nat) : Span :=
  match ls with
  | t :: _ => t.span
  | [] => ⟨textEnd, textEnd⟩

namespace Parser

theorem State.span_eq_firstPlace (s : State) : s.span = firstPlace s.rest s.textEnd := rfl

variable {all : List LocatedToken} {textEnd : Nat}

/-! ## States of a run -/

/-- The parser of the tokens `all` stands at `s`, before an operand, with `n` levels left and the constructs `cs` open.
Within a level `d` is 1, and before one it is 0. -/
structure Stands (all : List LocatedToken) (textEnd d n : Nat) (s : State) (cs : List Construct) : Prop where
  read : ∃ ts, all = ts ++ s.rest ∧ Scans maxNesting .start (ts.map LocatedToken.token) ⟨cs, false⟩
  textEnd : s.textEnd = textEnd
  nesting : s.nesting = cs.length + d
  room : s.nesting + n = maxNesting

/-- Where a fault for nesting is: as many constructs are open as there are levels, for the first time. -/
def AtLimit (all : List LocatedToken) (textEnd : Nat) (f : Fault) : Prop :=
  f.cause = .nestingTooDeep → ∃ ts rest s, all = ts ++ rest ∧
    Scans maxNesting .start (ts.map LocatedToken.token) s ∧ s.constructs.length = maxNesting ∧
    f.span = firstPlace rest textEnd

/-- A parser of phrases of strength `k` whose faults for nesting are at the limit. -/
def Limited (all : List LocatedToken) (textEnd k n : Nat) (p : Parser) : Prop :=
  ∀ ⦃s cs f⦄, Stands all textEnd 1 n s cs → (k < 6 → Settled cs) → p s = .error f → AtLimit all textEnd f

structure Level.Limited (all : List LocatedToken) (textEnd n : Nat) (l : Level) : Prop where
  expr : ∀ ⦃s cs f⦄, Stands all textEnd 0 n s cs → Settled cs → l.expr s = .error f → AtLimit all textEnd f
  unary : ∀ ⦃s cs f⦄, Stands all textEnd 0 n s cs → l.unary s = .error f → AtLimit all textEnd f

variable {d k n : Nat} {s t : State} {cs : List Construct} {e left : Expr} {f : Fault}

theorem atLimit_of_checked {start : State} (h : checked start e s = .error f) : AtLimit all textEnd f := by
  unfold checked at h
  split at h
  · cases h
  · cases h
    exact nofun

namespace Stands

theorem count_lt (h : Stands all textEnd 1 n s cs) : cs.length < maxNesting := by
  have hnesting := h.nesting
  have hroom := h.room
  omega

/-- One more token is taken, and an operand comes next. -/
theorem take {us : List LocatedToken} {x : LocatedToken} {d' : Nat} {cs' : List Construct}
    (h : Stands all textEnd d n s cs) (hs : s.rest = us ++ t.rest) (ht : t.rest = x :: t.next.rest)
    (hnesting : t.nesting = s.nesting) (hend : t.textEnd = s.textEnd)
    (hscans : Scans maxNesting ⟨cs, false⟩ (us.map LocatedToken.token ++ [x.token]) ⟨cs', false⟩)
    (hd : cs'.length + d' = cs.length + d) : Stands all textEnd d' n t.next cs' := by
  obtain ⟨ts, hall, hread⟩ := h.read
  refine ⟨⟨ts ++ (us ++ [x]), ?_, ?_⟩, by rw [State.next_textEnd, hend, h.textEnd], ?_, ?_⟩
  · rw [hall, hs, ht]
    simp
  · rw [List.map_append, List.map_append]
    exact hread.append hscans
  · rw [State.next_nesting, hnesting, h.nesting, hd]
  · rw [State.next_nesting, hnesting, h.room]

/-- After a phrase and the token `x` that belongs to what the phrase is part of. -/
theorem follow {x : Token} {d' : Nat} {cs' : List Construct} (h : Stands all textEnd d n s cs) (hr : Reads k n s e t)
    (hk : 1 ≤ d + (1 - k)) (hcs : k < 6 → Settled cs) (ht : t.token? = some x)
    (hx : ∀ inner, Leaves k inner → Scope.next ⟨inner ++ cs, true⟩ x = ⟨cs', false⟩)
    (hd : cs'.length + d' = cs.length + d) : Stands all textEnd d' n t.next cs' := by
  obtain ⟨us, hus, hphrase⟩ := hr.phrase
  obtain ⟨y, hy, rfl⟩ := State.token?_eq_some ht
  have hnesting := h.nesting
  have hroom := h.room
  -- A formula opens constructs within its own level, other phrases within the level they stand in: `hk` is that level.
  have hscans := (hphrase.scans maxNesting cs (by omega) hcs).followed hx
  exact h.take hus hy hr.nesting hr.textEnd hscans hd

theorem operator {op : Operator} (h : Stands all textEnd 1 n s cs) (hr : Reads k n s e t) (hk : 0 < k)
    (hcs : Settled cs) (ht : t.token? = some (.operator op)) : Stands all textEnd 1 n t.next cs :=
  h.follow hr (by omega) (fun _ => hcs) ht (fun _ hleaves => hleaves.next_operator hk hcs op) rfl

/-- The token `x` opens the construct `c`. -/
theorem opens {x : Token} {c : Construct} (h : Stands all textEnd 1 n s cs) (hs : s.token? = some x)
    (hx : Scope.next ⟨cs, false⟩ x = ⟨c :: cs, false⟩) : Stands all textEnd 0 n s.next (c :: cs) := by
  obtain ⟨y, hy, rfl⟩ := State.token?_eq_some hs
  exact h.take (List.nil_append s.rest).symm hy rfl rfl (hx ▸ .single h.count_lt) rfl

/-- The parenthesis after the name of a function opens a group, too. -/
theorem opens_call {name : String} (h : Stands all textEnd 1 n s cs) (hs : s.token? = some (.word name))
    (hopen : s.next.token? = some .openParen) : Stands all textEnd 0 n s.next.next (.group :: cs) := by
  obtain ⟨x, hx, hname⟩ := State.token?_eq_some hs
  obtain ⟨y, hy, hgroup⟩ := State.token?_eq_some hopen
  have hword : s.rest = [x] ++ s.next.rest := hx
  refine h.take hword hy s.next_nesting s.next_textEnd ?_ rfl
  rw [List.map_singleton, hname, hgroup]
  exact .cons h.count_lt (.single h.count_lt)

end Stands

/-! ## Operators -/

theorem chainRest_limited {operand : Parser} (ho : Sound (k + 1) n operand) (hl : Limited all textEnd (k + 1) n operand)
    (h₀ : 0 < k) (h₃ : k ≠ 3) (fuel : Nat) (hs : Stands all textEnd 1 n s cs) (hcs : Settled cs)
    (hleft : Reads k n s left t) (h : chainRest operand k s fuel left t = .error f) : AtLimit all textEnd f := by
  induction fuel generalizing left t with
  | zero => cases h
  | succ fuel ih =>
      unfold chainRest at h
      split at h
      · cases h
      · rename_i op hop
        obtain ⟨ht, hp⟩ := State.operator?_eq_some hop
        rcases bind_eq_error.mp h with h | ⟨⟨right, u⟩, hright, h⟩
        · exact hl (hs.operator hleft h₀ hcs ht) (fun _ => hcs) h
        · rcases bind_eq_error.mp h with h | ⟨⟨e', v⟩, hc, h⟩
          · exact atLimit_of_checked h
          · obtain ⟨hd, rfl, rfl⟩ := checked_eq_ok.mp hc
            have hstrength : op.leftStrength = k := by rw [op.leftStrength_of_ne (hp ▸ h₃), hp]
            exact ih (Reads.binary (hstrength.symm ▸ hleft) ht hp (ho hright) hd) h

theorem chain_limited {operand : Parser} (ho : Sound (k + 1) n operand) (hl : Limited all textEnd (k + 1) n operand)
    (h₀ : 0 < k) (h₆ : k < 6) (h₃ : k ≠ 3) : Limited all textEnd k n (chain operand k) := by
  intro s cs f hs hcs h
  rcases bind_eq_error.mp h with h | ⟨⟨left, t⟩, hleft, h⟩
  · exact hl hs (fun _ => hcs h₆) h
  · exact chainRest_limited ho hl h₀ h₃ _ hs (hcs h₆) ((ho hleft).tighter h₀ (Nat.lt_succ_of_lt h₆)) h

theorem comparison_limited {operand : Parser} (ho : Sound 4 n operand) (hl : Limited all textEnd 4 n operand) :
    Limited all textEnd 3 n (comparison operand) := by
  intro s cs f hs hcs h
  have hcs := hcs (by decide)
  rcases bind_eq_error.mp h with h | ⟨⟨left, t⟩, hleft, h⟩
  · exact hl hs (fun _ => hcs) h
  · dsimp only at h
    split at h
    · cases h
    · rename_i op hop
      rcases bind_eq_error.mp h with h | ⟨⟨right, u⟩, hright, h⟩
      · exact hl (hs.operator (ho hleft) (by decide) hcs (State.operator?_eq_some hop).1) (fun _ => hcs) h
      · dsimp only at h
        split at h
        · cases h
          exact nofun
        · exact atLimit_of_checked h

/-! ## Operands -/

theorem argumentList_limited {l : Level} (ho : l.Sound n) (hl : l.Limited all textEnd n) (fuel : Nat)
    (hs : Stands all textEnd 0 n s (.group :: cs)) (h : argumentList l fuel s = .error f) : AtLimit all textEnd f := by
  induction fuel generalizing s with
  | zero =>
      cases h
      exact nofun
  | succ fuel ih =>
      have hcs := settled_group cs
      rcases bind_eq_error.mp h with h | ⟨⟨a, t⟩, ha, h⟩
      · exact hl.expr hs hcs h
      · dsimp only at h
        split at h
        · rename_i ht
          rcases bind_eq_error.mp h with h | ⟨r, -, h⟩
          · exact ih (hs.follow (ho.expr ha) (by decide) (fun _ => hcs) ht (fun _ hleaves => hleaves.next_comma) rfl) h
          · cases h
        · cases h
        · cases h
          exact nofun

theorem ne_nestingTooDeep_of_checkArguments {g : Builtin} {args : List Expr} {cause : Cause}
    (h : checkArguments g args = .error cause) : cause ≠ .nestingTooDeep := by
  unfold checkArguments at h
  split at h
  · cases h
    exact nofun
  · split at h
    · cases h
      exact nofun
    · cases h

theorem call_limited {l : Level} (ho : l.Sound n) (hl : l.Limited all textEnd n) {name : String}
    (hs : Stands all textEnd 1 n s cs) (hword : s.token? = some (.word name)) (hopen : s.next.token? = some .openParen)
    (h : call l name s = .error f) : AtLimit all textEnd f := by
  unfold call at h
  split at h
  · cases h
    exact nofun
  · rcases bind_eq_error.mp h with h | ⟨⟨args, t⟩, -, h⟩
    · unfold arguments at h
      split at h
      · cases h
      · exact argumentList_limited ho hl _ (hs.opens_call hword hopen) h
    · dsimp only at h
      split at h
      · rename_i hcheck
        cases h
        exact fun hcause => absurd hcause (ne_nestingTooDeep_of_checkArguments hcheck)
      · exact atLimit_of_checked h

theorem group_limited {l : Level} (hl : l.Limited all textEnd n) (hs : Stands all textEnd 1 n s cs)
    (hopen : s.token? = some .openParen) (h : group l s.next = .error f) : AtLimit all textEnd f := by
  rcases bind_eq_error.mp h with h | ⟨⟨e, t⟩, -, h⟩
  · exact hl.expr (hs.opens hopen rfl) (settled_group cs) h
  · dsimp only at h
    split at h
    · cases h
    · cases h
      exact nofun

theorem primary_limited {l : Level} (ho : l.Sound n) (hl : l.Limited all textEnd n) :
    Limited all textEnd 7 n (primary l) := by
  intro s cs f hs _ h
  unfold primary at h
  split at h
  · cases h
  · cases h
  · rename_i hopen
    exact group_limited hl hs hopen h
  · rename_i hword
    split at h
    · exact call_limited ho hl hs hword ‹_› h
    · cases h
      exact nofun
    · cases h
  · cases h
    exact nofun

theorem unary_limited {l : Level} (ho : l.Sound n) (hl : l.Limited all textEnd n) :
    Limited all textEnd 6 n (unary l) := by
  intro s cs f hs _ h
  unfold unary at h
  split at h
  · rename_i hsign
    rcases bind_eq_error.mp h with h | ⟨⟨e, t⟩, -, h⟩
    · exact hl.unary (hs.opens hsign rfl) h
    · dsimp only at h
      split at h
      · cases h
      · exact atLimit_of_checked h
  · exact primary_limited ho hl hs (fun h => absurd h (by decide)) h

/-! ## Formulas -/

theorem disjunction_limited {l : Level} (ho : l.Sound n) (hl : l.Limited all textEnd n) :
    Limited all textEnd 1 n (disjunction l) := by
  have hproduct : Sound 5 n (product l) := chain_sound (unary_sound ho) (by decide) (by decide) (by decide)
  have hproduct' : Limited all textEnd 5 n (product l) :=
    chain_limited (unary_sound ho) (unary_limited ho hl) (by decide) (by decide) (by decide)
  have hsum : Sound 4 n (sum l) := chain_sound hproduct (by decide) (by decide) (by decide)
  have hsum' : Limited all textEnd 4 n (sum l) := chain_limited hproduct hproduct' (by decide) (by decide) (by decide)
  have hcomparison' := comparison_limited hsum hsum'
  have hconjunction : Sound 2 n (conjunction l) :=
    chain_sound (comparison_sound hsum) (by decide) (by decide) (by decide)
  have hconjunction' : Limited all textEnd 2 n (conjunction l) :=
    chain_limited (comparison_sound hsum) hcomparison' (by decide) (by decide) (by decide)
  exact chain_limited hconjunction hconjunction' (by decide) (by decide) (by decide)

theorem conditional_limited {l : Level} (ho : l.Sound n) (hl : l.Limited all textEnd n)
    (hs : Stands all textEnd 1 n s cs) (hcs : Settled cs) (h : conditional l s = .error f) : AtLimit all textEnd f := by
  have hoperand := disjunction_sound ho
  have hlimited : Limited all textEnd 1 n (disjunction l) := disjunction_limited ho hl
  rcases bind_eq_error.mp h with h | ⟨⟨value, t⟩, hvalue, h⟩
  · exact hlimited hs (fun _ => hcs) h
  · dsimp only at h
    split at h
    · rename_i hif
      have ht := hs.follow (hoperand hvalue) (by decide) (fun _ => hcs) hif
        (fun _ hleaves => hleaves.next_ifKeyword (by decide) hcs) rfl
      rcases bind_eq_error.mp h with h | ⟨⟨test, u⟩, htest, h⟩
      · exact hlimited ht (fun _ => hcs) h
      · dsimp only at h
        split at h
        · rename_i helse
          have hu : Stands all textEnd 0 n u.next (.branch :: cs) := ht.follow (hoperand htest) (by decide) (fun _ => hcs) helse
            (fun _ hleaves => hleaves.next_elseKeyword (by decide) hcs) rfl
          rcases bind_eq_error.mp h with h | ⟨r, -, h⟩
          · exact hl.expr hu (settled_branch cs) h
          · exact atLimit_of_checked h
        · cases h
          exact nofun
    · cases h

theorem Stands.enter (h : Stands all textEnd 0 (n + 1) s cs) :
    Stands all textEnd 1 n { s with nesting := s.nesting + 1 } cs :=
  ⟨h.read, h.textEnd, congrArg (· + 1) h.nesting, (Nat.add_right_comm _ 1 n).trans h.room⟩

/-- Where there is room, the level is entered. -/
theorem nested_eq_error {p : Parser} (hroom : s.nesting + (n + 1) = maxNesting) (h : nested p s = .error f) :
    p { s with nesting := s.nesting + 1 } = .error f := by
  unfold nested at h
  rw [if_pos (by omega)] at h
  rcases bind_eq_error.mp h with h | ⟨r, -, h⟩
  · exact h
  · cases h

theorem nestingTooDeep_limited (hs : Stands all textEnd 0 0 s cs) (h : nestingTooDeep s = .error f) :
    AtLimit all textEnd f := by
  obtain ⟨ts, hall, hread⟩ := hs.read
  cases h
  refine fun _ => ⟨ts, s.rest, _, hall, hread, hs.nesting.symm.trans hs.room, ?_⟩
  rw [← hs.textEnd, State.span_eq_firstPlace]

theorem level_limited (n : Nat) : (level n).Limited all textEnd n := by
  induction n with
  | zero => exact ⟨fun _ _ _ hs _ h => nestingTooDeep_limited hs h, fun _ _ _ hs h => nestingTooDeep_limited hs h⟩
  | succ n ih =>
      have ho := level_sound n
      refine ⟨fun s cs f hs hcs h => ?_, fun s cs f hs h => ?_⟩
      · exact conditional_limited ho ih hs.enter hcs (nested_eq_error hs.room h)
      · exact unary_limited ho ih hs.enter (fun h => absurd h (by decide)) (nested_eq_error hs.room h)

theorem formula_limited (h : formula textEnd all = .error f) : AtLimit all textEnd f := by
  have hstart : Stands all textEnd 0 maxNesting ⟨all, 0, textEnd, 0⟩ [] := ⟨⟨[], rfl, .nil⟩, rfl, rfl, Nat.zero_add _⟩
  rcases bind_eq_error.mp h with h | ⟨⟨e, t⟩, -, h⟩
  · exact (level_limited maxNesting).expr hstart nofun h
  · dsimp only at h
    split at h
    · cases h
    · cases h
      exact nofun

end Parser

/-! ## Texts -/

/-- The number of constructs that are open after some tokens. -/
def openCount (ls : List LocatedToken) : Nat := (scopeAfter (ls.map LocatedToken.token)).constructs.length

theorem openCount_of_scans {m : Nat} {ls : List LocatedToken} {s : Scope}
    (h : Scans m .start (ls.map LocatedToken.token) s) : openCount ls = s.constructs.length := by
  rw [openCount, h.scopeAfter_eq]

theorem openCount_lt_of_scans {m : Nat} {ls us : List LocatedToken} {s : Scope}
    (h : Scans m .start (ls.map LocatedToken.token) s) (hus : us <+: ls) (hlt : us.length < ls.length) :
    openCount us < m := by
  refine h.lt_of_prefix (hus.map _) fun heq => ?_
  have hlen := congrArg List.length heq
  simp only [List.length_map] at hlen
  omega

/-- Only these tokens open a construct. -/
theorem Scope.opener_of_lt {s : Scope} {x : Token} (h : s.constructs.length < (s.next x).constructs.length) :
    x = .openParen ∨ x = .elseKeyword ∨ x = .operator .sub := by
  have hsigns : (closeSigns s.constructs).length ≤ s.constructs.length := (List.dropWhile_sublist _).length_le
  have hgroup : (closeToGroup s.constructs).length ≤ s.constructs.length := (List.dropWhile_sublist _).length_le
  cases x with
  | number | word | event => exact absurd h (Nat.lt_irrefl _)
  | openParen => exact .inl rfl
  | elseKeyword => exact .inr (.inl rfl)
  | closeParen =>
      simp only [next, List.length_tail] at h
      omega
  | comma => exact absurd h (Nat.not_lt.mpr hgroup)
  | ifKeyword => exact absurd h (Nat.not_lt.mpr hsigns)
  | operator op =>
      simp only [next] at h
      split at h
      · exact absurd h (Nat.not_lt.mpr hsigns)
      · split at h
        · rename_i hop
          exact .inr (.inr (congrArg _ hop))
        · exact absurd h (Nat.lt_irrefl _)

/-- A construct takes the last level, for the first time, and the place is that of the token after the one that opens it,
or the end of the text. -/
def RefusedAt (ls : List LocatedToken) (textEnd : Nat) (place : Span) : Prop :=
  ∃ before opener after, ls = before ++ opener :: after ∧
    (opener.token = .openParen ∨ opener.token = .elseKeyword ∨ opener.token = .operator .sub) ∧
    (∀ us, us <+: before → openCount us < maxNesting) ∧ openCount (before ++ [opener]) = maxNesting ∧
    place = firstPlace after textEnd

theorem Parser.AtLimit.refusedAt {all : List LocatedToken} {textEnd : Nat} {f : Fault} (h : AtLimit all textEnd f)
    (hcause : f.cause = .nestingTooDeep) : RefusedAt all textEnd f.span := by
  obtain ⟨ts, rest, s, rfl, hscans, hcount, hspan⟩ := h hcause
  rcases List.eq_nil_or_concat ts with rfl | ⟨before, opener, rfl⟩
  · cases hscans
    cases hcount
  · rw [List.concat_eq_append] at hscans ⊢
    have hopen : openCount (before ++ [opener]) = maxNesting := (openCount_of_scans hscans).trans hcount
    have hlt (us : List LocatedToken) (hus : us <+: before) : openCount us < maxNesting := by
      have hlen := hus.length_le
      refine openCount_lt_of_scans hscans (hus.trans (List.prefix_append _ _)) ?_
      rw [List.length_append, List.length_singleton]
      omega
    have hopener : (scopeAfter (before.map LocatedToken.token)).constructs.length <
        ((scopeAfter (before.map LocatedToken.token)).next opener.token).constructs.length := by
      rw [← scopeAfter_concat, ← List.map_singleton, ← List.map_append]
      exact Nat.lt_of_lt_of_eq (hlt before List.prefix_rfl) hopen.symm
    exact ⟨before, opener, rest, by simp, Scope.opener_of_lt hopener, hlt, hopen, hspan⟩

theorem not_refusedAt {ls : List LocatedToken} {textEnd : Nat} {place : Span}
    (h : ∀ us, us <+: ls → openCount us < maxNesting) : ¬RefusedAt ls textEnd place := by
  rintro ⟨before, opener, after, rfl, -, -, hopen, -⟩
  have hprefix : before ++ [opener] <+: before ++ opener :: after := ⟨after, by simp⟩
  exact absurd (h _ hprefix) (Nat.not_lt.mpr (Nat.le_of_eq hopen.symm))

/-- What is read has fewer constructs open than there are levels. -/
theorem openCount_lt_of_phrase {ls us : List LocatedToken} {t : Expr}
    (h : Phrase 0 maxNesting (ls.map LocatedToken.token) t) (hus : us <+: ls) : openCount us < maxNesting := by
  obtain ⟨inner, -, hlt, hscans⟩ := h.scans maxNesting [] (by decide) nofun
  rcases Nat.lt_or_eq_of_le hus.length_le with hlen | heq
  · exact openCount_lt_of_scans hscans hus hlen
  · rw [hus.eq_of_length heq, openCount_of_scans hscans]
    exact hlt

/-- A construct is refused if it takes the last of the levels, one of which is that of the formula. Where fewer are open
nothing is refused, and what is read has fewer open everywhere. -/
theorem parse_nesting {text : String} {ls : List LocatedToken} (h : tokenize text = .ok ls) :
    (∀ e, parse text = .error e → e.cause = .nestingTooDeep → RefusedAt ls (byteLength text.toList) e.span) ∧
    ((∀ us, us <+: ls → openCount us < maxNesting) → ∀ e, parse text = .error e → e.cause ≠ .nestingTooDeep) ∧
    ∀ t, parse text = .ok t → ∀ us, us <+: ls → openCount us < maxNesting := by
  have hlex := tokenize_eq_ok.mp h
  have hrefused (e : SyntaxError) (he : parse text = .error e) (hcause : e.cause = .nestingTooDeep) :
      RefusedAt ls (byteLength text.toList) e.span := by
    obtain ⟨f, hf, rfl⟩ := mapError_eq_error.mp he
    rw [hlex, ok_bind] at hf
    exact (Parser.formula_limited hf).refusedAt hcause
  refine ⟨hrefused, fun hlt e he hcause => not_refusedAt hlt (hrefused e he hcause), fun t ht us hus => ?_⟩
  obtain ⟨ls', hls', hformula⟩ := parse_eq_ok.mp ht
  obtain rfl : ls' = ls := Except.ok.inj (hls'.symm.trans hlex)
  exact openCount_lt_of_phrase (Parser.formula_sound hformula).1 hus

theorem parse_nesting_sign :
    ∃ ls t, tokenize "-(a)" = .ok ls ∧ parse "-(a)" = .ok t ∧ ∀ us, us <+: ls → openCount us < maxNesting := by
  have h : tokenize "-(a)" =
      .ok [⟨.operator .sub, ⟨0, 1⟩⟩, ⟨.openParen, ⟨1, 2⟩⟩, ⟨.word "a", ⟨2, 3⟩⟩, ⟨.closeParen, ⟨3, 4⟩⟩] := rfl
  have hparse : parse "-(a)" = .ok (.binary .sub (.literal 0) (.ref "a")) := rfl
  exact ⟨_, _, h, hparse, (parse_nesting h).2.2 _ hparse⟩

/-! ## At the limit -/

/-- Whether a text is refused for nesting where no parenthesis opens, though no more than `limit` constructs are open
anywhere in it. -/
def refusedWithin (limit : Nat) (text : String) : Bool :=
  match tokenize text, parse text with
  | .ok ls, .error ⟨.nestingTooDeep, _, place, _⟩ =>
    (List.range (ls.length + 1)).all (fun n => openCount (ls.take n) ≤ limit) &&
      ls.all fun t => match t.token with
        | .openParen => t.span.start != place.start
        | _ => true
  | _, _ => false

theorem exists_of_refusedWithin {limit : Nat} {text : String} (h : refusedWithin limit text) :
    ∃ ls e, tokenize text = .ok ls ∧ (∀ us, us <+: ls → openCount us ≤ limit) ∧ parse text = .error e ∧
      e.cause = .nestingTooDeep ∧ ∀ t ∈ ls, t.token = .openParen → t.span.start ≠ e.span.start := by
  unfold refusedWithin at h
  split at h
  · rename_i ls _ place _ hls hparse
    obtain ⟨hcount, hplace⟩ := Bool.and_eq_true_iff.mp h
    refine ⟨ls, _, hls, fun us hus => ?_, hparse, rfl, fun t ht hopen => ?_⟩
    · rw [List.prefix_iff_eq_take.mp hus]
      have hmem := List.mem_range.mpr (Nat.lt_succ_of_le hus.length_le)
      exact of_decide_eq_true (List.all_eq_true.mp hcount us.length hmem)
    · have hne := List.all_eq_true.mp hplace t ht
      rw [hopen] at hne
      exact bne_iff_ne.mp hne
  · cases h

/-- A name in `n` pairs of parentheses. -/
def inParentheses (n : Nat) : String := String.ofList (List.replicate n '(' ++ 'a' :: List.replicate n ')')

/-- As many parentheses as there are levels are refused, and not at any of them. -/
theorem parse_nesting_refused :
    ∃ ls e, tokenize (inParentheses maxNesting) = .ok ls ∧ (∀ us, us <+: ls → openCount us ≤ maxNesting) ∧
      parse (inParentheses maxNesting) = .error e ∧ e.cause = .nestingTooDeep ∧
      ∀ t ∈ ls, t.token = .openParen → t.span.start ≠ e.span.start :=
  exists_of_refusedWithin (by decide +kernel)

end MetricFormula
