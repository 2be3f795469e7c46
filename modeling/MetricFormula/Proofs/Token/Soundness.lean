import MetricFormula.Proofs.Token.Spelling

/-! What is read as a token is one of its spellings. -/

namespace MetricFormula

theorem tokenize_eq_ok {text : String} {ls : List LocatedToken} : tokenize text = .ok ls ↔ lex text = .ok ls :=
  mapError_eq_ok

namespace Lexer

/-! ## Names -/

theorem nameRest_sound {cs rest : List Char} {n : Name} (h : nameRest cs = (n, rest)) :
    ∃ ws, cs = ws ++ rest ∧ Written isWordChar n.chars ws ∧ n.escaped = ws.contains '\\' := by
  fun_induction nameRest cs generalizing n with
  | case1 => cases h; exact ⟨[], rfl, .nil, rfl⟩
  | case2 c cs n' rest' heq ih =>
      cases h
      obtain ⟨ws, rfl, hws, -⟩ := ih heq
      exact ⟨_, rfl, hws.escaped, by simp⟩
  | case3 c cs _ hc n' rest' heq ih =>
      cases h
      obtain ⟨ws, rfl, hws, hesc⟩ := ih heq
      have hne := ne_of_isWordChar hc (d := '\\') (by decide)
      exact ⟨_, rfl, hws.plain hc, by simp [hesc, hne.symm]⟩
  | case4 => cases h; exact ⟨[], rfl, .nil, rfl⟩

theorem name?_sound {cs rest : List Char} {n : Name} (h : name? cs = some (n, rest)) :
    ∃ ws, cs = ws ++ rest ∧ NameText n.chars ws ∧ n.escaped = ws.contains '\\' := by
  unfold name? at h
  split at h
  · rename_i c cs
    cases h
    have hread : nameRest cs = ((nameRest cs).1, (nameRest cs).2) := rfl
    obtain ⟨ws, hws, hwritten, -⟩ := nameRest_sound hread
    exact ⟨'\\' :: c :: ws, by rw [List.cons_append, List.cons_append, ← hws], .escaped hwritten, by simp⟩
  · rename_i c cs _
    split at h
    · rename_i hc
      cases h
      have hread : nameRest cs = ((nameRest cs).1, (nameRest cs).2) := rfl
      obtain ⟨ws, hws, hwritten, hesc⟩ := nameRest_sound hread
      have hne : c ≠ '\\' := by rintro rfl; exact absurd hc (by decide)
      exact ⟨c :: ws, by rw [List.cons_append, ← hws], .plain hc hwritten, by simp [hesc, hne.symm]⟩
    · cases h
  · cases h

/-! ## Modifier blocks -/

theorem termText_sound {cs rest t : List Char} (h : termText cs = (t, rest)) :
    ∃ ws, cs = ws ++ rest ∧ Written isTermChar t ws ∧ ∀ c ∈ t, c ≠ ',' ∧ c ≠ '=' := by
  fun_induction termText cs generalizing t with
  | case1 => cases h; exact ⟨[], rfl, .nil, nofun⟩
  | case2 => cases h; exact ⟨[], rfl, .nil, nofun⟩
  | case3 c cs hc t' rest' heq ih =>
      cases h
      obtain ⟨ws, rfl, hws, hchars⟩ := ih heq
      exact ⟨_, rfl, hws.escaped, List.forall_mem_cons.mpr ⟨not_or.mp hc, hchars⟩⟩
  | case4 c cs _ hc t' rest' heq ih =>
      cases h
      obtain ⟨ws, rfl, hws, hchars⟩ := ih heq
      have hsep : c ≠ ',' ∧ c ≠ '=' := by
        simp only [isTermChar, Bool.and_eq_true, bne_iff_ne] at hc
        exact ⟨hc.1.1.1.2, hc.1.1.2⟩
      exact ⟨_, rfl, hws.plain hc, List.forall_mem_cons.mpr ⟨hsep, hchars⟩⟩
  | case5 => cases h; exact ⟨[], rfl, .nil, nofun⟩

theorem ofList_ne_empty {c : Char} {cs : List Char} : String.ofList (c :: cs) ≠ "" := by
  intro h
  have := congrArg String.toList h
  simp at this

theorem termWord_sound {cs rest t : List Char} {c : Char} (h : termText cs = (c :: t, rest)) :
    ∃ ws, cs = ws ++ rest ∧ TermWord (String.ofList (c :: t)) ws := by
  obtain ⟨ws, rfl, hws, hchars⟩ := termText_sound h
  exact ⟨ws, rfl, ⟨ofList_ne_empty, by rwa [String.toList_ofList]⟩, by rwa [String.toList_ofList]⟩

theorem separator?_sound {c : Char} {cs rest : List Char} (h : separator? c cs = some rest) :
    ∃ sep, cs = sep ++ rest ∧ Separator c sep := by
  unfold separator? at h
  split at h
  · split at h
    · rename_i heq; cases h; cases heq; exact ⟨_, rfl, .escaped⟩
    · cases h
  · split at h
    · rename_i heq; cases h; cases heq; exact ⟨_, rfl, .plain⟩
    · cases h
  · cases h

theorem termValue_sound {cs rest : List Char} {v : Option String} (h : termValue cs = (v, rest)) :
    v = none ∧ cs = rest ∨
      ∃ value sep vs, v = some value ∧ cs = sep ++ (vs ++ rest) ∧ Separator '=' sep ∧ TermWord value vs := by
  unfold termValue at h
  split at h
  · cases h; exact .inl ⟨rfl, rfl⟩
  · rename_i after hsep
    split at h
    · cases h; exact .inl ⟨rfl, rfl⟩
    · rename_i chars rest' hne htext
      obtain ⟨c, value, rfl⟩ := List.exists_cons_of_ne_nil hne
      cases h
      obtain ⟨vs, rfl, hvalue⟩ := termWord_sound htext
      obtain ⟨sep, rfl, hmark⟩ := separator?_sound hsep
      exact .inr ⟨_, sep, vs, rfl, rfl, hmark, hvalue⟩

theorem term?_sound {cs rest : List Char} {m : Modifier} (h : term? cs = some (m, rest)) :
    ∃ ws, cs = ws ++ rest ∧ TermText m ws := by
  unfold term? at h
  split at h
  · cases h
  · rename_i chars after hne htext
    obtain ⟨c, key, rfl⟩ := List.exists_cons_of_ne_nil hne
    obtain ⟨ks, rfl, hkey⟩ := termWord_sound htext
    generalize hvalue : termValue after = r at h
    cases h
    obtain ⟨hnone, rfl⟩ | ⟨value, sep, vs, hsome, rfl, hmark, hword⟩ := termValue_sound hvalue
    · rw [hnone]
      exact ⟨ks, rfl, .flag hkey⟩
    · rw [hsome]
      exact ⟨ks ++ (sep ++ vs), by simp only [List.append_assoc], .pair hkey hmark hword⟩

/-- The closing mark is all that is missing after the terms. -/
theorem moreTerms_sound {fuel : Nat} {cs rest : List Char} {ms : List Modifier} (h : moreTerms fuel cs = (ms, rest)) :
    ∃ ws, cs = ws ++ rest ∧ TermsText ms (ws ++ ['@']) := by
  induction fuel generalizing cs ms with
  | zero => cases h; exact ⟨[], rfl, .close⟩
  | succ fuel ih =>
      unfold moreTerms at h
      split at h
      · cases h; exact ⟨[], rfl, .close⟩
      · rename_i m after hnext
        cases h
        obtain ⟨after', hsep, hterm⟩ := Option.bind_eq_some_iff.mp hnext
        obtain ⟨ws, rfl, htext⟩ := term?_sound hterm
        obtain ⟨sep, rfl, hmark⟩ := separator?_sound hsep
        have hread : moreTerms fuel after = ((moreTerms fuel after).1, (moreTerms fuel after).2) := rfl
        obtain ⟨vs, hvs, hmore⟩ := ih hread
        refine ⟨sep ++ (ws ++ vs), ?_, ?_⟩
        · rw [List.append_assoc, List.append_assoc, ← hvs]
        · rw [List.append_assoc, List.append_assoc]
          exact .more hmark htext hmore

theorem block_sound {cs rest : List Char} {m : Modifier} {ms : List Modifier} (h : block cs = .ok ((m, ms), rest)) :
    ∃ ws, cs = ws ++ rest ∧ BlockText m ms ws := by
  unfold block at h
  split at h
  · cases h
  · rename_i after hterm
    split at h
    · rename_i hmore
      cases h
      obtain ⟨vs, rfl, hterms⟩ := moreTerms_sound hmore
      obtain ⟨ws, rfl, htext⟩ := term?_sound hterm
      exact ⟨ws ++ (vs ++ ['@']), by simp only [List.append_assoc, List.singleton_append], .terms htext hterms⟩
    · cases h

/-! ## Modifier lists -/

theorem all_cons_takeWhile {p : Char → Bool} {c : Char} (hc : p c) (cs : List Char) :
    (String.ofList (c :: cs.takeWhile p)).toList.all p := by
  rw [String.toList_ofList, List.all_cons, hc, List.all_takeWhile, Bool.and_true]

theorem itemValue_sound {cs rest : List Char} {v : Option String} (h : itemValue cs = (v, rest)) :
    v = none ∧ cs = rest ∨
      ∃ value, v = some value ∧ cs = '=' :: (value.toList ++ rest) ∧ value ≠ "" ∧ value.toList.all isWordChar := by
  unfold itemValue at h
  split at h
  · rename_i c cs
    split at h
    · rename_i hc
      cases h
      refine .inr ⟨_, rfl, ?_, ofList_ne_empty, all_cons_takeWhile hc cs⟩
      rw [String.toList_ofList, List.cons_append, List.takeWhile_append_dropWhile]
    · cases h; exact .inl ⟨rfl, rfl⟩
  · cases h; exact .inl ⟨rfl, rfl⟩

theorem item?_sound {cs rest : List Char} {m : Modifier} (h : item? cs = some (m, rest)) :
    ∃ ws, cs = ws ++ rest ∧ ItemText m ws := by
  unfold item? at h
  split at h
  · cases h
  · rename_i c cs
    split at h
    · rename_i hc
      have hkey := all_cons_takeWhile hc cs
      have hcs : c :: cs = (String.ofList (c :: cs.takeWhile isKeyChar)).toList ++ cs.dropWhile isKeyChar := by
        rw [String.toList_ofList, List.cons_append, List.takeWhile_append_dropWhile]
      generalize hvalue : itemValue (cs.dropWhile isKeyChar) = r at h
      cases h
      obtain ⟨hnone, hrest⟩ | ⟨value, hsome, hrest, hne, hword⟩ := itemValue_sound hvalue
      · rw [hnone]
        exact ⟨_, hrest ▸ hcs, .flag ofList_ne_empty hkey⟩
      · rw [hsome]
        refine ⟨_, ?_, .pair ofList_ne_empty hkey hne hword⟩
        rw [hcs, hrest, List.append_assoc, List.cons_append]
    · cases h

theorem addModifier_eq_ok {start stop : List Char} {e e' : Event} {m : Modifier} :
    addModifier start stop e m = .ok e' ↔ e.modifier? m.key = none ∧ e.withModifier m = e' := by
  unfold addModifier
  split <;> simp [*]

/-- A list that is read at a colon begins with an item. -/
theorem modifierList_colon {start : List Char} {fuel : Nat} {e : Event} {cs : List Char} {r : Event × List Char}
    (h : modifierList start (fuel + 1) e (':' :: cs) = .ok r) :
    ∃ ws after m e₁, cs = ws ++ after ∧ ItemText m ws ∧ e.Takes m e₁ ∧ modifierList start fuel e₁ after = .ok r := by
  rw [modifierList] at h
  split at h
  · cases h
  · rename_i m after hitem
    obtain ⟨ws, rfl, htext⟩ := item?_sound hitem
    split at h
    · rename_i hm
      cases hm
      exact ⟨ws, after, _, _, rfl, htext, .qualifier, h⟩
    · rename_i hm
      split at h
      · cases h
      · rename_i hadd
        obtain ⟨hnew, rfl⟩ := addModifier_eq_ok.mp hadd
        exact ⟨ws, after, _, _, rfl, htext, .modifier hm hnew, h⟩

theorem modifierList_sound {start : List Char} {fuel : Nat} {e e' : Event} {cs rest : List Char}
    (h : modifierList start fuel e cs = .ok (e', rest)) : ∃ ws, cs = ws ++ rest ∧ ListText e ws e' := by
  induction fuel generalizing e cs with
  | zero => cases h; exact ⟨[], rfl, .nil⟩
  | succ fuel ih =>
      by_cases hcolon : ∃ cs', cs = ':' :: cs'
      · obtain ⟨cs, rfl⟩ := hcolon
        obtain ⟨ws, after, m, e₁, rfl, hitem, htakes, h⟩ := modifierList_colon h
        obtain ⟨vs, rfl, hlist⟩ := ih h
        exact ⟨':' :: (ws ++ vs), by simp, .item hitem htakes hlist⟩
      · rw [modifierList.eq_2 _ _ _ _ fun _ _ _ heq => hcolon ⟨_, heq⟩] at h
        cases h
        exact ⟨[], rfl, .nil⟩

/-! ## Events -/

theorem nodup_withModifier {e : Event} {m : Modifier} (h : (e.modifiers.map Modifier.key).Nodup)
    (hm : e.modifier? m.key = none) : ((e.withModifier m).modifiers.map Modifier.key).Nodup := by
  have hfresh := Event.modifier?_eq_none.mp hm
  rw [Event.withModifier, List.map_append]
  exact List.nodup_append.mpr ⟨h, by simp, by
    intro a ha b hb
    rw [List.mem_singleton.mp hb]
    rintro rfl
    exact hfresh ha⟩

theorem foldlM_addModifier_sound {start stop : List Char} {ms : List Modifier} {e e' : Event}
    (he : (e.modifiers.map Modifier.key).Nodup) (h : ms.foldlM (addModifier start stop) e = .ok e') :
    e' = ⟨e.name, e.modifiers ++ ms, e.qualifier⟩ ∧ (e'.modifiers.map Modifier.key).Nodup := by
  induction ms generalizing e with
  | nil => cases h; exact ⟨by rw [List.append_nil], he⟩
  | cons m ms ih =>
      obtain ⟨e₁, h₁, h⟩ := bind_eq_ok.mp h
      obtain ⟨hnew, rfl⟩ := addModifier_eq_ok.mp h₁
      obtain ⟨rfl, hnodup⟩ := ih (nodup_withModifier he hnew) h
      exact ⟨by simp [Event.withModifier], hnodup⟩

theorem retireSuffix?_sound {cs rest : List Char} (h : retireSuffix? cs = some rest) : cs = 'R' :: rest := by
  unfold retireSuffix? at h
  split at h
  · split at h
    · cases h
    · cases h; rfl
  · cases h; rfl
  · cases h

theorem afterBlock_sound {start : List Char} {name : String} {ms : List Modifier} {cs rest : List Char} {t : Token}
    (h : afterBlock start name ms cs = .ok (t, rest)) :
    ∃ ws e, cs = ws ++ rest ∧ t = .event e ∧ (ms.map Modifier.key).Nodup ∧ TailText ⟨name, ms, none⟩ ws e := by
  obtain ⟨e, hadded, h⟩ := bind_eq_ok.mp h
  obtain ⟨rfl, hkeys⟩ := foldlM_addModifier_sound (e := .bare name) List.nodup_nil hadded
  dsimp only at h
  split at h
  · rename_i after hretired
    obtain ⟨⟨e', rest'⟩, hread, h⟩ := bind_eq_ok.mp h
    obtain ⟨ws, hws, hlist⟩ := modifierList_sound hread
    cases h
    exact ⟨'R' :: ws, e', (retireSuffix?_sound hretired).trans (congrArg _ hws), rfl, hkeys, .retired hlist⟩
  · obtain ⟨⟨e', rest'⟩, hread, h⟩ := bind_eq_ok.mp h
    obtain ⟨ws, hws, hlist⟩ := modifierList_sound hread
    cases h
    exact ⟨ws, e', hws, rfl, hkeys, .list hlist⟩

theorem afterName_sound {start ns cs rest : List Char} {n : Name} {t : Token} (hn : NameText n.chars ns)
    (hesc : n.escaped = ns.contains '\\') (h : afterName start n cs = .ok (t, rest)) :
    ∃ ws, cs = ws ++ rest ∧ ReferenceText t (ns ++ ws) := by
  unfold afterName at h
  split at h
  · obtain ⟨⟨e, rest'⟩, hread, h⟩ := bind_eq_ok.mp h
    cases h
    obtain ⟨ws, after, m, e₁, rfl, hitem, htakes, hread⟩ := modifierList_colon hread
    obtain ⟨vs, rfl, hlist⟩ := modifierList_sound hread
    exact ⟨':' :: (ws ++ vs), by simp, .list hn (.item hitem htakes hlist)⟩
  · split at h
    · rename_i hescaped
      cases h
      rw [hesc] at hescaped
      exact ⟨[], rfl, by rw [List.append_nil]; exact .escaped hn (by simpa using hescaped)⟩
    · rename_i hplain
      cases h
      rw [hesc] at hplain
      exact ⟨[], rfl, by rw [List.append_nil]; exact .word hn (by simpa using hplain)⟩

theorem reference_sound {cs rest : List Char} {t : Token} (h : reference cs = .ok (t, rest)) :
    ∃ ws, cs = ws ++ rest ∧ ReferenceText t ws := by
  unfold reference at h
  split at h
  · split at h
    · cases h
    · cases h
    · rename_i hread
      obtain ⟨vs, e, rfl, rfl, hkeys, htail⟩ := afterBlock_sound h
      obtain ⟨ws, rfl, hblock⟩ := block_sound hread
      exact ⟨'@' :: (ws ++ vs), by simp, .leading hblock hkeys htail⟩
  · split at h
    · cases h
    · rename_i n body hread
      obtain ⟨ns, rfl, hname, -⟩ := name?_sound hread
      split at h
      · cases h
      · rename_i hbody
        obtain ⟨vs, e, rfl, rfl, hkeys, htail⟩ := afterBlock_sound h
        obtain ⟨ws, rfl, hblock⟩ := block_sound hbody
        exact ⟨ns ++ '@' :: (ws ++ vs), by simp, .block hname hblock hkeys htail⟩
    · rename_i n after _ hread
      obtain ⟨ns, rfl, hname, hesc⟩ := name?_sound hread
      obtain ⟨ws, rfl, htext⟩ := afterName_sound hname hesc h
      exact ⟨ns ++ ws, by simp, htext⟩

/-! ## Tokens -/

theorem number_sound {cs rest : List Char} {t : Token} (hstarts : Numeral.startsAt cs)
    (h : number cs = .ok (t, rest)) : ∃ ws, cs = ws ++ rest ∧ TokenText t ws := by
  have hdigits := Numeral.digits_of_startsAt hstarts
  unfold number at h
  generalize hscan : Numeral.scan cs = r at h
  obtain ⟨n, after⟩ := r
  rw [hscan] at hdigits
  dsimp only at h
  split at h
  · rename_i hfinite
    cases h
    obtain ⟨ws, rfl, hn⟩ := Numeral.scan_sound hscan
    exact ⟨ws, rfl, .number hn hdigits hfinite⟩
  · cases h

theorem symbol?_sound {cs rest : List Char} {t : Token} (h : symbol? cs = some (t, rest)) :
    ∃ ws, cs = ws ++ rest ∧ TokenText t ws := by
  unfold symbol? at h
  split at h
  all_goals cases h
  · exact ⟨_, rfl, .operator .lessEq⟩
  · exact ⟨_, rfl, .operator .greaterEq⟩
  · exact ⟨_, rfl, .operator .less⟩
  · exact ⟨_, rfl, .operator .greater⟩
  · exact ⟨_, rfl, .operator .add⟩
  · exact ⟨_, rfl, .operator .sub⟩
  · exact ⟨_, rfl, .operator .mul⟩
  · exact ⟨_, rfl, .operator .div⟩
  · exact ⟨_, rfl, .operator .and⟩
  · exact ⟨_, rfl, .operator .or⟩
  · exact ⟨_, rfl, .openParen⟩
  · exact ⟨_, rfl, .closeParen⟩
  · exact ⟨_, rfl, .comma⟩

/-- What is read as a token is a spelling of it. -/
theorem token_sound {c : Char} {cs rest : List Char} {t : Token} (h : token c cs = .ok (t, rest)) :
    ∃ ws, c :: cs = ws ++ rest ∧ TokenText t ws := by
  unfold token at h
  split at h
  · rename_i hstarts
    exact number_sound hstarts h
  · split at h
    · obtain ⟨ws, hws, htext⟩ := reference_sound h
      exact ⟨ws, hws, .reference htext⟩
    · split at h
      · rename_i hsymbol
        cases h
        exact symbol?_sound hsymbol
      · cases h

/-- The lexer comes to the end over blanks, or over blanks to a fault, or over blanks to a token and on. -/
theorem tokens_succ (size fuel : Nat) (cs : List Char) :
    (∀ c ∈ cs, isBlank c) ∧ tokens size (fuel + 1) cs = .ok [] ∨
      (∃ gap c cs' f, (∀ b ∈ gap, isBlank b) ∧ cs = gap ++ c :: cs' ∧ token c cs' = .error f ∧
        tokens size (fuel + 1) cs = .error (locate size f)) ∨
      ∃ gap ws t rest, (∀ b ∈ gap, isBlank b) ∧ cs = gap ++ (ws ++ rest) ∧ TokenText t ws ∧
        tokens size (fuel + 1) cs =
          (tokens size fuel rest).map fun ts => ⟨t, offset size (ws ++ rest), offset size rest⟩ :: ts := by
  have hgap : ∀ b ∈ cs.takeWhile isBlank, isBlank b := List.all_eq_true.mp List.all_takeWhile
  have hcs : cs = cs.takeWhile isBlank ++ cs.dropWhile isBlank := List.takeWhile_append_dropWhile.symm
  rw [tokens]
  generalize cs.takeWhile isBlank = gap at hgap hcs
  split
  · rename_i hnil
    rw [hnil, List.append_nil] at hcs
    exact .inl ⟨hcs ▸ hgap, rfl⟩
  · rename_i c cs' hcons
    rw [hcons] at hcs
    split
    · rename_i f htoken
      exact .inr (.inl ⟨gap, c, cs', f, hgap, hcs, htoken, rfl⟩)
    · rename_i t rest htoken
      obtain ⟨ws, hws, htext⟩ := token_sound htoken
      rw [hws] at hcs ⊢
      exact .inr (.inr ⟨gap, ws, t, rest, hgap, hcs, htext, rfl⟩)

end Lexer

end MetricFormula
