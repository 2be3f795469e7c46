import MetricFormula.Proofs.Text.Place
import MetricFormula.Proofs.Token.Completeness
import MetricFormula.Proofs.Token.Soundness

/-! A fault of the lexer is a part of the text, and not an empty one. -/

namespace MetricFormula

/-- The fault spans a character or more of `cs`. -/
def LexFault.Within (f : LexFault) (cs : List Char) : Prop :=
  ∃ before inside, inside ≠ [] ∧ f.start = inside ++ f.stop ∧ cs = before ++ f.start

namespace Lexer

/-- A fault from the beginning of `cs` on, with what was read of it. -/
theorem within_read {cause : Cause} {ws rest : List Char} (h : ws ≠ []) :
    LexFault.Within ⟨cause, ws ++ rest, rest⟩ (ws ++ rest) :=
  ⟨[], ws, h, rfl, rfl⟩

/-! ## Events -/

/-- The characters left after the last complete term are left of the block. -/
theorem block_error {cs stop : List Char} (h : block cs = .error stop) : ∃ ws, cs = ws ++ stop := by
  unfold block at h
  split at h
  · cases h
    exact ⟨[], rfl⟩
  · rename_i m rest hterm
    obtain ⟨ws, rfl, -⟩ := term?_sound hterm
    generalize hmore : moreTerms rest.length rest = r at h
    obtain ⟨ms, rest'⟩ := r
    obtain ⟨vs, rfl, -⟩ := moreTerms_sound hmore
    split at h
    · cases h
    · rename_i heq
      cases heq
      cases h
      exact ⟨ws ++ vs, (List.append_assoc ws vs _).symm⟩

theorem addModifier_eq_error {start stop : List Char} {e : Event} {m : Modifier} {f : LexFault}
    (h : addModifier start stop e m = .error f) : ∃ cause, f = ⟨cause, start, stop⟩ := by
  unfold addModifier at h
  split at h
  · cases h
    exact ⟨_, rfl⟩
  · cases h

theorem foldlM_addModifier_eq_error {start stop : List Char} {ms : List Modifier} {e : Event} {f : LexFault}
    (h : ms.foldlM (addModifier start stop) e = .error f) : ∃ cause, f = ⟨cause, start, stop⟩ := by
  induction ms generalizing e with
  | nil => cases h
  | cons m ms ih =>
      rcases bind_eq_error.mp h with h | ⟨e', -, h⟩
      · exact addModifier_eq_error h
      · exact ih h

/-- The list is read after the characters `before` of its event. -/
theorem modifierList_within {fuel : Nat} {e : Event} {before cs : List Char} {f : LexFault} (hbefore : before ≠ [])
    (h : modifierList (before ++ cs) fuel e cs = .error f) : f.Within (before ++ cs) := by
  induction fuel generalizing e before cs with
  | zero => cases h
  | succ fuel ih =>
      by_cases hcolon : ∃ cs', cs = ':' :: cs'
      · obtain ⟨cs, rfl⟩ := hcolon
        rw [modifierList] at h
        split at h
        · cases h
          exact ⟨before, [':'], List.cons_ne_nil ':' [], rfl, rfl⟩
        · rename_i m rest hitem
          obtain ⟨ws, rfl, -⟩ := item?_sound hitem
          have hstart : before ++ ':' :: (ws ++ rest) = (before ++ ':' :: ws) ++ rest := by simp
          have hread : before ++ ':' :: ws ≠ [] := List.append_ne_nil_of_left_ne_nil hbefore _
          rw [hstart] at h ⊢
          split at h
          · exact ih hread h
          · split at h
            · rename_i hadd
              cases h
              obtain ⟨cause, rfl⟩ := addModifier_eq_error hadd
              exact within_read hread
            · exact ih hread h
      · rw [modifierList.eq_2 _ _ _ _ fun _ _ _ heq => hcolon ⟨_, heq⟩] at h
        cases h

theorem afterBlock_within {name : String} {ms : List Modifier} {before cs : List Char} {f : LexFault}
    (hbefore : before ≠ []) (h : afterBlock (before ++ cs) name ms cs = .error f) : f.Within (before ++ cs) := by
  rcases bind_eq_error.mp h with h | ⟨e, -, h⟩
  · obtain ⟨cause, rfl⟩ := foldlM_addModifier_eq_error h
    exact within_read hbefore
  · dsimp only at h
    split at h
    · rename_i rest hretired
      obtain rfl := retireSuffix?_sound hretired
      rcases bind_eq_error.mp h with h | ⟨r, -, h⟩
      · rw [List.append_cons] at h ⊢
        exact modifierList_within (List.append_ne_nil_of_left_ne_nil hbefore _) h
      · cases h
    · rcases bind_eq_error.mp h with h | ⟨r, -, h⟩
      · exact modifierList_within hbefore h
      · cases h

theorem afterName_within {n : Name} {before cs : List Char} {f : LexFault} (hbefore : before ≠ [])
    (h : afterName (before ++ cs) n cs = .error f) : f.Within (before ++ cs) := by
  unfold afterName at h
  split at h
  · rcases bind_eq_error.mp h with h | ⟨r, -, h⟩
    · exact modifierList_within hbefore h
    · cases h
  · split at h <;> cases h

theorem nameText_ne_nil {cs ns : List Char} (h : NameText cs ns) : ns ≠ [] := by
  obtain ⟨c, ws, rfl, -⟩ := nameText_head h
  exact List.cons_ne_nil c ws

theorem reference_within {cs : List Char} {f : LexFault} (hcs : cs ≠ []) (h : reference cs = .error f) :
    f.Within cs := by
  unfold reference at h
  split at h
  · rename_i body
    split at h
    · rename_i stop hblock
      cases h
      obtain ⟨ws, rfl⟩ := block_error hblock
      exact within_read (List.cons_ne_nil '@' ws)
    · rename_i hblock
      cases h
      obtain ⟨ws, rfl, -⟩ := block_sound hblock
      exact within_read (List.cons_ne_nil '@' ws)
    · rename_i hblock
      obtain ⟨ws, rfl, -⟩ := block_sound hblock
      exact afterBlock_within (List.cons_ne_nil '@' ws) h
  · split at h
    · cases h
      exact ⟨[], cs, hcs, (List.append_nil cs).symm, rfl⟩
    · rename_i n body hname
      obtain ⟨ns, rfl, hns, -⟩ := name?_sound hname
      have hread (ws : List Char) : ns ++ '@' :: ws ≠ [] := List.append_ne_nil_of_left_ne_nil (nameText_ne_nil hns) _
      have hstart (ws rest : List Char) : ns ++ '@' :: (ws ++ rest) = (ns ++ '@' :: ws) ++ rest := by simp
      split at h
      · rename_i stop hblock
        cases h
        obtain ⟨ws, rfl⟩ := block_error hblock
        rw [hstart]
        exact within_read (hread ws)
      · rename_i hblock
        obtain ⟨ws, rfl, -⟩ := block_sound hblock
        rw [hstart] at h ⊢
        exact afterBlock_within (hread ws) h
    · rename_i n rest _ hname
      obtain ⟨ns, rfl, hns, -⟩ := name?_sound hname
      exact afterName_within (nameText_ne_nil hns) h

/-! ## Tokens -/

theorem number_within {cs : List Char} {f : LexFault} (hstarts : Numeral.startsAt cs) (h : number cs = .error f) :
    f.Within cs := by
  have hdigits := Numeral.digits_of_startsAt hstarts
  unfold number at h
  generalize hscan : Numeral.scan cs = r at h
  obtain ⟨n, rest⟩ := r
  rw [hscan] at hdigits
  dsimp only at h
  split at h
  · cases h
  · cases h
    obtain ⟨ws, rfl, hn⟩ := Numeral.scan_sound hscan
    obtain ⟨c, cs, rfl, -⟩ := numeralText_head hn hdigits []
    exact within_read (List.cons_ne_nil c cs)

theorem token_within {c : Char} {cs : List Char} {f : LexFault} (h : token c cs = .error f) : f.Within (c :: cs) := by
  unfold token at h
  split at h
  · rename_i hstarts
    exact number_within hstarts h
  · split at h
    · exact reference_within (List.cons_ne_nil c cs) h
    · split at h
      · cases h
      · cases h
        exact within_read (List.cons_ne_nil c [])

/-- A fault is located at the bytes of its characters. -/
theorem tokens_error {start size fuel : Nat} {cs : List Char} {f : Fault} (h : tokens size fuel cs = .error f)
    (hsize : size = start + byteLength cs) :
    ∃ before inside after, cs = before ++ (inside ++ after) ∧
      f.span = ⟨start + byteLength before, start + byteLength (before ++ inside)⟩ := by
  induction fuel generalizing start cs with
  | zero => cases h
  | succ fuel ih =>
      rcases tokens_succ size fuel cs with ⟨-, heq⟩ | ⟨gap, c, cs', f', -, hcs, htoken, heq⟩ | ⟨gap, ws, t, rest, -, rfl, -, heq⟩
      · rw [heq] at h
        cases h
      · rw [heq] at h
        cases h
        obtain ⟨before, inside, hinside, hstart, htext⟩ := token_within htoken
        have hpos := byteLength_pos hinside
        rw [hstart] at htext
        rw [htext] at hcs
        refine ⟨gap ++ before, inside, f'.stop, by rw [hcs, List.append_assoc], ?_⟩
        simp only [hcs, byteLength_append] at hsize
        simp only [locate, offset, hstart, byteLength_append, Span.mk.injEq]
        omega
      · rw [heq, map_eq_error] at h
        have hrest : size = start + byteLength (gap ++ ws) + byteLength rest := by
          simp only [hsize, byteLength_append, Nat.add_assoc]
        obtain ⟨before, inside, after, rfl, hspan⟩ := ih h hrest
        refine ⟨gap ++ ws ++ before, inside, after, by simp only [List.append_assoc], ?_⟩
        rw [hspan]
        simp only [byteLength_append, Nat.add_assoc]

end Lexer

end MetricFormula
