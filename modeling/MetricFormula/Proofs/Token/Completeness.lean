import MetricFormula.Proofs.Token.Spelling

/-! Every spelling of a token is read as that token, up to the delimiter after it. -/

namespace MetricFormula.Lexer

/-! ## What may follow -/

/-- What follows a number, a word or an event in the text of a tree. -/
def Delimited (cs : List Char) : Prop := ∀ c ∈ cs.head?, c = ' ' ∨ c = '(' ∨ c = ')' ∨ c = ','

theorem delimited_cons {c : Char} {cs : List Char} : Delimited (c :: cs) ↔ c = ' ' ∨ c = '(' ∨ c = ')' ∨ c = ',' := by
  simp [Delimited]

theorem delimited_nil : Delimited [] := by simp [Delimited]

theorem Delimited.endsNumeral {cs : List Char} (h : Delimited cs) : EndsNumeral cs := by
  intro c hc
  rcases h c hc with rfl | rfl | rfl | rfl <;> decide

/-- No item of a list goes on here, but another may follow. -/
def EndsItem (cs : List Char) : Prop := ∀ c ∈ cs.head?, c = ':' ∨ c = ' ' ∨ c = '(' ∨ c = ')' ∨ c = ','

theorem Delimited.endsItem {cs : List Char} (h : Delimited cs) : EndsItem cs := fun c hc => .inr (h c hc)

/-- No name goes on with the characters `cs`. -/
def EndsName (cs : List Char) : Prop := ∀ c ∈ cs.head?, isWordChar c = false ∧ c ≠ '\\'

theorem EndsItem.endsName {cs : List Char} (h : EndsItem cs) : EndsName cs := by
  intro c hc
  rcases h c hc with rfl | rfl | rfl | rfl | rfl <;> decide

theorem endsName_block (cs : List Char) : EndsName ('@' :: cs) := by rintro c ⟨⟩; decide

/-- The text of a key or value ends here: at the closing mark of the block, or at a separator. -/
inductive EndsTerm : List Char → Prop where
  | mark {cs} : EndsTerm ('@' :: cs)
  | separator {c sep cs} : c = ',' ∨ c = '=' → Separator c sep → EndsTerm (sep ++ cs)

/-- A term of a block ends here: at its closing mark, or at a comma. -/
inductive EndsModifier : List Char → Prop where
  | mark {cs} : EndsModifier ('@' :: cs)
  | comma {sep cs} : Separator ',' sep → EndsModifier (sep ++ cs)

theorem EndsModifier.endsTerm {cs : List Char} (h : EndsModifier cs) : EndsTerm cs := by
  cases h with
  | mark => exact .mark
  | comma hsep => exact .separator (.inl rfl) hsep

theorem TermsText.endsModifier {ms : List Modifier} {ws : List Char} (h : TermsText ms ws) (rest : List Char) :
    EndsModifier (ws ++ rest) := by
  cases h with
  | close => exact .mark
  | more hsep _ _ => rw [List.append_assoc]; exact .comma hsep

theorem ListText.endsItem {e e' : Event} {ws : List Char} (h : ListText e ws e') {rest : List Char}
    (hr : Delimited rest) : EndsItem (ws ++ rest) := by
  cases h with
  | nil => exact hr.endsItem
  | item _ _ _ => rintro c ⟨⟩; exact .inl rfl

/-! ## Names -/

theorem nameRest_end {rest : List Char} (hr : EndsName rest) : nameRest rest = (⟨[], false⟩, rest) := by
  unfold nameRest
  split
  · rfl
  · exact absurd rfl (hr '\\' rfl).2
  · rename_i c cs _
    simp [(hr c rfl).1]

theorem nameRest_complete {cs ws rest : List Char} (h : Written isWordChar cs ws) (hr : EndsName rest) :
    nameRest (ws ++ rest) = (⟨cs, ws.contains '\\'⟩, rest) := by
  induction h with
  | nil => exact nameRest_end hr
  | plain hc _ ih =>
      have hne := ne_of_isWordChar hc (d := '\\') (by decide)
      simp [nameRest, hc, hne, hne.symm, ih]
  | escaped _ ih => simp [nameRest, ih]

theorem name?_complete {cs ns rest : List Char} (h : NameText cs ns) (hr : EndsName rest) :
    name? (ns ++ rest) = some (⟨cs, ns.contains '\\'⟩, rest) := by
  cases h with
  | @plain c _ _ hc hcs =>
      have hne : c ≠ '\\' := by rintro rfl; exact absurd hc (by decide)
      simp [name?, hc, hne, hne.symm, nameRest_complete hcs hr]
  | escaped hcs => simp [name?, nameRest_complete hcs hr]

/-! ## Modifier blocks -/

theorem separator?_complete {c : Char} {sep : List Char} (h : Separator c sep) (hc : c ≠ '\\') (rest : List Char) :
    separator? c (sep ++ rest) = some rest := by
  cases h <;> simp [separator?, hc]

theorem termText_end {rest : List Char} (hr : EndsTerm rest) : termText rest = ([], rest) := by
  cases hr with
  | mark => rfl
  | separator hc hsep =>
      cases hsep with
      | plain => rcases hc with rfl | rfl <;> rfl
      | escaped => simp [termText, hc]

theorem termText_complete {cs ws rest : List Char} (h : Written isTermChar cs ws)
    (hcs : ∀ c ∈ cs, c ≠ ',' ∧ c ≠ '=') (hr : EndsTerm rest) : termText (ws ++ rest) = (cs, rest) := by
  induction h with
  | nil => exact termText_end hr
  | @plain c _ _ hc _ ih =>
      have hne : c ≠ '\\' := by rintro rfl; exact absurd hc (by decide)
      simp [termText, hne, hc, ih (List.forall_mem_cons.mp hcs).2]
  | escaped _ ih =>
      obtain ⟨hc, hcs⟩ := List.forall_mem_cons.mp hcs
      simp [termText, hc.1, hc.2, ih hcs]

/-- A key or value has a character. -/
theorem TermWord.termText {s : String} {ws rest : List Char} (h : TermWord s ws) (hr : EndsTerm rest) :
    ∃ c cs, termText (ws ++ rest) = (c :: cs, rest) ∧ s = String.ofList (c :: cs) := by
  cases hs : s.toList with
  | nil => exact absurd (String.toList_eq_nil_iff.mp hs) h.writable.nonempty
  | cons c cs =>
      refine ⟨c, cs, termText_complete (hs ▸ h.written) (hs ▸ h.writable.separators) hr, ?_⟩
      rw [← hs, String.ofList_toList]

theorem termValue_end {rest : List Char} (hr : EndsModifier rest) : termValue rest = (none, rest) := by
  cases hr with
  | mark => rfl
  | comma hsep => cases hsep <;> rfl

theorem termValue_complete {value : String} {sep vs rest : List Char} (hsep : Separator '=' sep)
    (h : TermWord value vs) (hr : EndsTerm rest) : termValue (sep ++ (vs ++ rest)) = (some value, rest) := by
  obtain ⟨c, cs, htext, rfl⟩ := h.termText hr
  unfold termValue
  rw [separator?_complete hsep (by decide)]
  dsimp only
  rw [htext]

theorem term?_key {key : String} {ks rest : List Char} (h : TermWord key ks) (hr : EndsTerm rest) :
    term? (ks ++ rest) = some (⟨key, (termValue rest).1⟩, (termValue rest).2) := by
  obtain ⟨c, cs, htext, rfl⟩ := h.termText hr
  unfold term?
  rw [htext]

theorem term?_complete {m : Modifier} {ws rest : List Char} (h : TermText m ws) (hr : EndsModifier rest) :
    term? (ws ++ rest) = some (m, rest) := by
  cases h with
  | flag hkey => rw [term?_key hkey hr.endsTerm, termValue_end hr]
  | pair hkey hsep hvalue =>
      rw [List.append_assoc, List.append_assoc, term?_key hkey (.separator (.inr rfl) hsep),
        termValue_complete hsep hvalue hr.endsTerm]

theorem moreTerms_complete {ms : List Modifier} {ws : List Char} (h : TermsText ms ws) (rest : List Char) {fuel : Nat}
    (hfuel : ms.length ≤ fuel) : moreTerms fuel (ws ++ rest) = (ms, '@' :: rest) := by
  induction h generalizing fuel with
  | close => cases fuel <;> rfl
  | @more m ms sep ws vs hsep hterm hmore ih =>
      obtain ⟨fuel, rfl⟩ : ∃ n, fuel = n + 1 := ⟨fuel - 1, by simp only [List.length_cons] at hfuel; omega⟩
      have hnext : (separator? ',' (sep ++ (ws ++ vs) ++ rest)).bind term? = some (m, vs ++ rest) := by
        rw [List.append_assoc, List.append_assoc, separator?_complete hsep (by decide), Option.bind_some,
          term?_complete hterm (hmore.endsModifier rest)]
      rw [moreTerms, hnext]
      dsimp only
      rw [ih (by simpa using hfuel)]

theorem TermsText.length_le {ms : List Modifier} {ws : List Char} (h : TermsText ms ws) : ms.length ≤ ws.length := by
  induction h with
  | close => exact Nat.zero_le _
  | @more _ _ sep _ _ hsep _ _ ih =>
      have hpos : 1 ≤ sep.length := by cases hsep <;> simp
      simp only [List.length_cons, List.length_append]
      omega

theorem block_complete {m : Modifier} {ms : List Modifier} {ws : List Char} (h : BlockText m ms ws)
    (rest : List Char) : block (ws ++ rest) = .ok ((m, ms), rest) := by
  obtain ⟨hterm, hmore⟩ := h
  have hlen := hmore.length_le
  rw [block, List.append_assoc, term?_complete hterm (hmore.endsModifier rest)]
  dsimp only
  rw [moreTerms_complete hmore rest (by rw [List.length_append]; omega)]
  rfl

/-! ## Modifier lists -/

theorem span_append {p : Char → Bool} {cs rest : List Char} (h : cs.all p) (hr : ∀ c ∈ rest.head?, p c = false) :
    (cs ++ rest).takeWhile p = cs ∧ (cs ++ rest).dropWhile p = rest := by
  rw [List.takeWhile_append_of_pos (List.all_eq_true.mp h), List.dropWhile_append_of_pos (List.all_eq_true.mp h)]
  cases rest with
  | nil => simp
  | cons c cs => simp [hr c rfl]

theorem EndsItem.not_word {cs : List Char} (h : EndsItem cs) : ∀ c ∈ cs.head?, isWordChar c = false :=
  fun c hc => (h.endsName c hc).1

theorem not_key {c : Char} (h : isWordChar c = false) : isKeyChar c = false := by
  rw [← Bool.not_eq_true] at h ⊢
  exact fun hkey => h (isWordChar_of_isKeyChar hkey)

theorem itemValue_end {rest : List Char} (hr : EndsItem rest) : itemValue rest = (none, rest) := by
  cases rest with
  | nil => rfl
  | cons c cs => rcases hr c rfl with rfl | rfl | rfl | rfl | rfl <;> rfl

theorem itemValue_complete {value : String} {rest : List Char} (hvalue : value ≠ "")
    (hword : value.toList.all isWordChar) (hr : EndsItem rest) :
    itemValue ('=' :: (value.toList ++ rest)) = (some value, rest) := by
  obtain ⟨c, cs, hcs⟩ := List.exists_cons_of_ne_nil (mt String.toList_eq_nil_iff.mp hvalue)
  obtain ⟨htake, hdrop⟩ := span_append hword hr.not_word
  rw [hcs] at hword htake hdrop
  have hc : isWordChar c := List.all_eq_true.mp hword c (by simp)
  rw [hcs, List.cons_append, itemValue, if_pos hc]
  rw [List.cons_append, List.takeWhile_cons_of_pos hc] at htake
  rw [List.cons_append, List.dropWhile_cons_of_pos hc] at hdrop
  rw [htake, hdrop, ← hcs, String.ofList_toList]

theorem item?_key {key : String} {rest : List Char} (hkey : key ≠ "") (hchars : key.toList.all isKeyChar)
    (hr : ∀ c ∈ rest.head?, isKeyChar c = false) :
    item? (key.toList ++ rest) = some (⟨key, (itemValue rest).1⟩, (itemValue rest).2) := by
  obtain ⟨c, cs, hcs⟩ := List.exists_cons_of_ne_nil (mt String.toList_eq_nil_iff.mp hkey)
  obtain ⟨htake, hdrop⟩ := span_append hchars hr
  rw [hcs] at hchars htake hdrop
  have hc : isKeyChar c := List.all_eq_true.mp hchars c (by simp)
  rw [hcs, List.cons_append, item?, if_pos hc]
  rw [List.cons_append, List.takeWhile_cons_of_pos hc] at htake
  rw [List.cons_append, List.dropWhile_cons_of_pos hc] at hdrop
  rw [htake, hdrop, ← hcs, String.ofList_toList]

theorem item?_complete {m : Modifier} {ws rest : List Char} (h : ItemText m ws) (hr : EndsItem rest) :
    item? (ws ++ rest) = some (m, rest) := by
  cases h with
  | flag hkey hchars =>
      rw [item?_key hkey hchars fun c hc => not_key (hr.not_word c hc), itemValue_end hr]
  | pair hkey hchars hvalue hword =>
      rw [List.append_assoc, List.cons_append, item?_key hkey hchars (by rintro c ⟨⟩; decide),
        itemValue_complete hvalue hword hr]

theorem addModifier_of_new (start stop : List Char) {e : Event} {m : Modifier} (h : e.modifier? m.key = none) :
    addModifier start stop e m = .ok (e.withModifier m) := by
  rw [addModifier, h]

theorem modifierList_end (start : List Char) (fuel : Nat) (e : Event) {rest : List Char} (hr : Delimited rest) :
    modifierList start fuel e rest = .ok (e, rest) := by
  cases rest with
  | nil => cases fuel <;> rfl
  | cons c cs => cases fuel <;> rcases delimited_cons.mp hr with rfl | rfl | rfl | rfl <;> rfl

theorem modifierList_complete (start : List Char) {e e' : Event} {ws rest : List Char} (h : ListText e ws e')
    (hr : Delimited rest) {fuel : Nat} (hfuel : ws.length ≤ fuel) :
    modifierList start fuel e (ws ++ rest) = .ok (e', rest) := by
  induction h generalizing fuel with
  | nil => exact modifierList_end start fuel _ hr
  | @item e e₁ e₂ m ws vs hitem htakes hlist ih =>
      simp only [List.length_cons, List.length_append] at hfuel
      obtain ⟨fuel, rfl⟩ : ∃ n, fuel = n + 1 := ⟨fuel - 1, by omega⟩
      have hlen : vs.length ≤ fuel := by omega
      have hrest := ih hlen
      rw [List.cons_append, List.append_assoc, modifierList, item?_complete hitem (hlist.endsItem hr)]
      dsimp only
      cases htakes with
      | qualifier => rw [if_pos rfl]; exact hrest
      | modifier hm hnew =>
          rw [if_neg hm, addModifier_of_new _ _ hnew]
          exact hrest

/-! ## Events -/

theorem retireSuffix?_end {rest : List Char} (hr : EndsItem rest) : retireSuffix? rest = none := by
  cases rest with
  | nil => rfl
  | cons c cs => rcases hr c rfl with rfl | rfl | rfl | rfl | rfl <;> rfl

theorem retireSuffix?_suffix {rest : List Char} (hr : EndsItem rest) : retireSuffix? ('R' :: rest) = some rest := by
  cases rest with
  | nil => rfl
  | cons c cs => simp [retireSuffix?, hr.not_word c rfl]

/-- Modifiers with new keys are all added, in their order. -/
theorem foldlM_addModifier (start stop : List Char) {e : Event} {ms : List Modifier}
    (h : ((e.modifiers ++ ms).map Modifier.key).Nodup) :
    ms.foldlM (addModifier start stop) e = .ok ⟨e.name, e.modifiers ++ ms, e.qualifier⟩ := by
  induction ms generalizing e with
  | nil => rw [List.append_nil]; rfl
  | cons m ms ih =>
      have hnew : e.modifier? m.key = none := by
        rw [List.map_append, List.map_cons, List.nodup_append] at h
        exact Event.modifier?_eq_none.mpr fun hmem => h.2.2 m.key hmem m.key (List.mem_cons_self ..) rfl
      rw [List.foldlM_cons, addModifier_of_new start stop hnew, ok_bind,
        ih (e := e.withModifier m) (by simpa [Event.withModifier] using h)]
      simp [Event.withModifier]

theorem afterBlock_complete (start : List Char) {name : String} {ms : List Modifier} {vs rest : List Char} {e : Event}
    (hkeys : (ms.map Modifier.key).Nodup) (h : TailText ⟨name, ms, none⟩ vs e) (hr : Delimited rest) :
    afterBlock start name ms (vs ++ rest) = .ok (.event e, rest) := by
  have hadded : ms.foldlM (addModifier start (vs ++ rest)) (.bare name) = .ok ⟨name, ms, none⟩ :=
    foldlM_addModifier start _ (e := .bare name) (by simpa [Event.bare] using hkeys)
  have hlist {e₁ : Event} {ws : List Char} (h : ListText e₁ ws e) :
      modifierList start (ws ++ rest).length e₁ (ws ++ rest) = .ok (e, rest) :=
    modifierList_complete start h hr (by rw [List.length_append]; omega)
  rw [afterBlock, hadded, ok_bind]
  cases h with
  | list h =>
      rw [retireSuffix?_end (h.endsItem hr)]
      dsimp only
      rw [hlist h]
      rfl
  | retired h =>
      rw [List.cons_append, retireSuffix?_suffix (h.endsItem hr)]
      dsimp only
      rw [hlist h]
      rfl

theorem name?_block (body : List Char) : name? ('@' :: body) = none := by cases body <;> rfl

theorem reference_block {cs body : List Char} {n : Name} (h : name? cs = some (n, '@' :: body)) {m : Modifier}
    {ms : List Modifier} {rest : List Char} (hblock : block body = .ok ((m, ms), rest)) :
    reference cs = afterBlock cs (String.ofList n.chars) (m :: ms) rest := by
  unfold reference
  split
  · rw [name?_block] at h; cases h
  · simp only [h, hblock]

theorem reference_name {cs rest : List Char} {n : Name} (h : name? cs = some (n, rest))
    (hr : ∀ c ∈ rest.head?, c ≠ '@') : reference cs = afterName cs n rest := by
  unfold reference
  split
  · rw [name?_block] at h; cases h
  · simp only [h]
    split
    · rename_i heq; cases heq
    · rename_i heq; cases heq; exact absurd rfl (hr '@' rfl)
    · rename_i heq; cases heq; rfl

theorem afterName_end (start : List Char) (n : Name) {rest : List Char} (hr : Delimited rest) :
    afterName start n rest = if n.escaped then .ok (.event (Event.bare (String.ofList n.chars)), rest)
      else .ok (.ofWord (String.ofList n.chars), rest) := by
  cases rest with
  | nil => rfl
  | cons c cs => rcases delimited_cons.mp hr with rfl | rfl | rfl | rfl <;> rfl

theorem reference_name_complete {cs ns rest : List Char} (h : NameText cs ns) (hr : Delimited rest) :
    reference (ns ++ rest) = if ns.contains '\\' then .ok (.event (Event.bare (String.ofList cs)), rest)
      else .ok (.ofWord (String.ofList cs), rest) := by
  have hmark : ∀ c ∈ rest.head?, c ≠ '@' := by
    intro c hc
    rcases hr c hc with rfl | rfl | rfl | rfl <;> decide
  rw [reference_name (name?_complete h hr.endsItem.endsName) hmark, afterName_end _ _ hr]

theorem reference_complete {t : Token} {ws rest : List Char} (h : ReferenceText t ws) (hr : Delimited rest) :
    reference (ws ++ rest) = .ok (t, rest) := by
  cases h with
  | @leading name ms ws vs e hblock hkeys htail =>
      rw [List.cons_append, List.append_assoc, reference, block_complete hblock]
      exact afterBlock_complete _ hkeys htail hr
  | @block cs ns m ms ws vs e hname hblock hkeys htail =>
      rw [List.append_assoc, List.cons_append, List.append_assoc,
        reference_block (name?_complete hname (endsName_block _)) (block_complete hblock _)]
      exact afterBlock_complete _ hkeys htail hr
  | @list cs ns ws e hname hlist =>
      have hends : EndsName (':' :: (ws ++ rest)) := by rintro c ⟨⟩; decide
      have hread : modifierList (ns ++ ':' :: (ws ++ rest)) (':' :: (ws ++ rest)).length (.bare (String.ofList cs))
          (':' :: (ws ++ rest)) = .ok (e, rest) :=
        modifierList_complete _ hlist hr (by simp only [List.length_cons, List.length_append]; omega)
      rw [List.append_assoc, List.cons_append, reference_name (name?_complete hname hends) (by rintro c ⟨⟩; decide),
        afterName, hread]
      rfl
  | escaped hname hmem => rw [reference_name_complete hname hr, if_pos (by simpa using hmem)]
  | word hname hmem => rw [reference_name_complete hname hr, if_neg (by simpa using hmem)]

/-! ## Tokens -/

theorem nameText_head {cs ns : List Char} (h : NameText cs ns) : ∃ c ws, ns = c :: ws ∧ (isWordStart c ∨ c = '\\') := by
  cases h with
  | plain hc _ => exact ⟨_, _, rfl, .inl hc⟩
  | escaped _ => exact ⟨_, _, rfl, .inr rfl⟩

theorem ReferenceText.head {t : Token} {ws : List Char} (h : ReferenceText t ws) :
    ∃ c cs, ws = c :: cs ∧ (isWordStart c ∨ c = '\\' ∨ c = '@') := by
  have hnamed {cs ns : List Char} (hname : NameText cs ns) (vs : List Char) :
      ∃ c cs, ns ++ vs = c :: cs ∧ (isWordStart c ∨ c = '\\' ∨ c = '@') := by
    obtain ⟨c, ws, rfl, hc⟩ := nameText_head hname
    exact ⟨c, ws ++ vs, rfl, hc.imp_right .inl⟩
  cases h with
  | leading _ _ _ => exact ⟨_, _, rfl, .inr (.inr rfl)⟩
  | block hname _ _ _ => exact hnamed hname _
  | list hname _ => exact hnamed hname _
  | escaped hname _ => simpa using hnamed hname []
  | word hname _ => simpa using hnamed hname []

theorem reference_token {c : Char} (hc : isWordStart c ∨ c = '\\' ∨ c = '@') (cs : List Char) :
    isBlank c = false ∧ token c cs = reference (c :: cs) := by
  have hnumeral : Numeral.startsAt (c :: cs) = false := by
    rcases hc with h | rfl | rfl
    · exact startsAt_of_isWordStart h cs
    · rfl
    · rfl
  refine ⟨?_, by rw [token, hnumeral, if_neg Bool.false_ne_true, if_pos hc]⟩
  rcases hc with h | rfl | rfl
  · exact isBlank_of_isWordStart h
  · decide
  · decide

/-- A numeral begins with a digit, or with a point before a digit. -/
theorem numeralText_head {n : Numeral} {ws : List Char} (h : Numeral.NumeralText n ws)
    (hdigits : n.whole ≠ [] ∨ n.fraction ≠ []) (rest : List Char) :
    ∃ c cs, ws = c :: cs ∧ isBlank c = false ∧ Numeral.startsAt (c :: cs ++ rest) := by
  obtain ⟨hwhole, hfraction, hexponent⟩ := h
  cases hw : n.whole with
  | cons c cs =>
      have hc : c.isDigit := hwhole c (by simp [hw])
      exact ⟨c, _, rfl, isBlank_of_isWordChar (isWordChar_of_isDigit hc), startsAt_of_isDigit hc _⟩
  | nil =>
      generalize n.fraction = ds at hdigits hfraction
      cases hfraction with
      | none => rcases hdigits with h | h <;> contradiction
      | digits hds =>
          obtain ⟨d, ds, rfl⟩ := List.exists_cons_of_ne_nil hds.nonempty
          exact ⟨'.', _, rfl, by decide, hds.digit d (by simp)⟩

theorem symbol?_operator (op : Operator) {rest : List Char} (hr : Delimited rest) :
    ∃ c cs, op.symbol.toList = c :: cs ∧ isBlank c = false ∧ token c (cs ++ rest) = .ok (.operator op, rest) := by
  cases op with
  | less | greater =>
      refine ⟨_, _, rfl, by decide, ?_⟩
      cases rest with
      | nil => rfl
      | cons c cs => rcases delimited_cons.mp hr with rfl | rfl | rfl | rfl <;> rfl
  | _ => exact ⟨_, _, rfl, by decide, rfl⟩

/-- A spelling of a token is read as that token. -/
theorem token_complete {t : Token} {ws rest : List Char} (h : TokenText t ws) (hr : Delimited rest) :
    ∃ c cs, ws = c :: cs ∧ isBlank c = false ∧ token c (cs ++ rest) = .ok (t, rest) := by
  cases h with
  | @number n _ hn hdigits hfinite =>
      obtain ⟨c, cs, rfl, hblank, hstarts⟩ := numeralText_head hn hdigits rest
      refine ⟨c, cs, rfl, hblank, ?_⟩
      rw [List.cons_append] at hstarts
      rw [token, if_pos hstarts, number, ← List.cons_append, Numeral.scan_complete hn hr.endsNumeral]
      exact if_pos hfinite
  | reference href =>
      obtain ⟨c, cs, rfl, hc⟩ := href.head
      obtain ⟨hblank, htoken⟩ := reference_token hc (cs ++ rest)
      exact ⟨c, cs, rfl, hblank, by rw [htoken, ← List.cons_append, reference_complete href hr]⟩
  | operator op => exact symbol?_operator op hr
  | openParen | closeParen | comma => exact ⟨_, _, rfl, by decide, rfl⟩

/-- The characters `cs` begin with the token `t`, and `rest` follows it. -/
def Begins (cs : List Char) (t : Token) (rest : List Char) : Prop :=
  ∃ c cs', cs = c :: cs' ∧ isBlank c = false ∧ rest.length ≤ cs'.length ∧ token c cs' = .ok (t, rest)

theorem tokens_of_begins {cs rest : List Char} {t : Token} (h : Begins cs t rest) (size : Nat) {fuel : Nat}
    (hfuel : cs.length ≤ fuel) :
    ∃ fuel', rest.length ≤ fuel' ∧
      tokens size fuel cs =
        (tokens size fuel' rest).map fun ts => ⟨t, offset size cs, offset size rest⟩ :: ts := by
  obtain ⟨c, cs, rfl, hblank, hlen, htoken⟩ := h
  cases fuel with
  | zero => cases hfuel
  | succ fuel =>
      refine ⟨fuel, Nat.le_trans hlen (Nat.le_of_succ_le_succ hfuel), ?_⟩
      rw [tokens, List.dropWhile_cons_of_neg (by simp [hblank])]
      dsimp only
      rw [htoken]
      rfl

theorem begins_of_text {t : Token} {ws rest : List Char} (h : TokenText t ws) (hr : Delimited rest) :
    Begins (ws ++ rest) t rest := by
  obtain ⟨c, cs, rfl, hblank, htoken⟩ := token_complete h hr
  exact ⟨c, cs ++ rest, rfl, hblank, by simp, htoken⟩

end MetricFormula.Lexer
