import MetricFormula.Proofs.Number.ReadBack
import MetricFormula.Proofs.Token.Soundness

/-! Every token that is read is well formed. -/

namespace MetricFormula.Lexer

/-! ## Modifiers -/

theorem TermText.wellFormed {m : Modifier} {ws : List Char} (h : TermText m ws) : m.WellFormed := by
  cases h with
  | flag hkey => exact ⟨hkey.writable, nofun⟩
  | pair hkey _ hvalue => exact ⟨hkey.writable, by rintro v ⟨⟩; exact hvalue.writable⟩

theorem TermsText.wellFormed {ms : List Modifier} {ws : List Char} (h : TermsText ms ws) :
    ∀ m ∈ ms, m.WellFormed := by
  induction h with
  | close => exact nofun
  | more _ hterm _ ih => exact List.forall_mem_cons.mpr ⟨hterm.wellFormed, ih⟩

theorem BlockText.wellFormed {m : Modifier} {ms : List Modifier} {ws : List Char} (h : BlockText m ms ws) :
    ∀ m' ∈ m :: ms, m'.WellFormed := by
  obtain ⟨hterm, hmore⟩ := h
  exact List.forall_mem_cons.mpr ⟨hterm.wellFormed, hmore.wellFormed⟩

theorem writable_of_all {s : String} (hs : s ≠ "") (h : s.toList.all isWordChar) : Writable s := by
  refine ⟨hs, fun c hc => ?_⟩
  have hword := List.all_eq_true.mp h c hc
  exact ⟨ne_of_isWordChar hword (by decide), ne_of_isWordChar hword (by decide)⟩

theorem ItemText.wellFormed {m : Modifier} {ws : List Char} (h : ItemText m ws) : m.WellFormed := by
  cases h with
  | flag hne hchars => exact ⟨writable_of_all hne (all_isWordChar hchars), nofun⟩
  | pair hne hchars hvalue hword =>
      exact ⟨writable_of_all hne (all_isWordChar hchars), by rintro v ⟨⟩; exact writable_of_all hvalue hword⟩

theorem shortValue_writable {digits : List Char} (h : digits.all Char.isDigit) :
    ∀ v ∈ shortValue digits, Writable v := by
  intro v hv
  cases hv
  cases digits with
  | nil => exact writable_of_all (by decide) (by decide)
  | cons c cs =>
      have hword : (String.ofList (c :: cs)).toList.all isWordChar := by
        rw [String.toList_ofList]
        exact List.all_eq_true.mpr fun d hd => isWordChar_of_isDigit (List.all_eq_true.mp h d hd)
      exact writable_of_all ofList_ne_empty hword

/-- A shorthand has a name of its own for its key. -/
theorem shorthand_wellFormed {key : String} {digits : List Char} (hkey : Writable key) (h : digits.all Char.isDigit) :
    (Modifier.mk key (shortValue digits)).WellFormed := ⟨hkey, shortValue_writable h⟩

theorem expandShort_wellFormed {m : Modifier} (h : m.WellFormed) : (expandShort m).WellFormed := by
  unfold expandShort
  split
  · split
    · exact shorthand_wellFormed (writable_of_all (by decide) (by decide)) ‹_›
    · exact h
  · split
    · exact shorthand_wellFormed (writable_of_all (by decide) (by decide)) ‹_›
    · exact h
  · split
    · exact shorthand_wellFormed (writable_of_all (by decide) (by decide)) ‹_›
    · exact h
  · exact h

/-! ## Events -/

theorem takes_wellFormed {e e' : Event} {m : Modifier} (h : e.Takes m e') (he : e.WellFormed) (hm : m.WellFormed) :
    e'.WellFormed ∧ e'.name = e.name := by
  cases h with
  | qualifier => exact ⟨⟨he.modifiers, he.distinct⟩, rfl⟩
  | modifier _ hnew =>
      refine ⟨⟨fun m' hm' => ?_, nodup_withModifier he.distinct hnew⟩, rfl⟩
      rcases List.mem_append.mp hm' with hm' | hm'
      · exact he.modifiers m' hm'
      · rw [List.mem_singleton.mp hm']
        exact expandShort_wellFormed hm

theorem ListText.wellFormed {e e' : Event} {ws : List Char} (h : ListText e ws e') (he : e.WellFormed) :
    e'.WellFormed ∧ e'.name = e.name := by
  induction h with
  | nil => exact ⟨he, rfl⟩
  | item hitem htakes _ ih =>
      obtain ⟨he₁, hname₁⟩ := takes_wellFormed htakes he hitem.wellFormed
      obtain ⟨he₂, hname₂⟩ := ih he₁
      exact ⟨he₂, hname₂.trans hname₁⟩

theorem TailText.wellFormed {e e' : Event} {ws : List Char} (h : TailText e ws e') (he : e.WellFormed) :
    e'.WellFormed ∧ e'.name = e.name := by
  cases h with
  | list h => exact h.wellFormed he
  | retired h => exact h.wellFormed (e := e.withQualifier .retireLatency) ⟨he.modifiers, he.distinct⟩

theorem nameText_ne_empty {cs ns : List Char} (h : NameText cs ns) : String.ofList cs ≠ "" := by
  cases h <;> exact ofList_ne_empty

theorem ofWord_wellFormed {s : String} (h : s ≠ "") : (Token.ofWord s).WellFormed := by
  unfold Token.ofWord
  split
  · trivial
  · split
    · trivial
    · exact h

theorem ReferenceText.wellFormed {t : Token} {ws : List Char} (h : ReferenceText t ws) : t.WellFormed := by
  cases h with
  | @leading name _ _ _ _ hblock hkeys htail =>
      obtain ⟨hname, hms⟩ := List.forall_mem_cons.mp hblock.wellFormed
      obtain ⟨he, heq⟩ := htail.wellFormed ⟨hms, hkeys⟩
      exact ⟨he, heq ▸ hname.key.nonempty⟩
  | block hname hblock hkeys htail =>
      obtain ⟨he, heq⟩ := htail.wellFormed ⟨hblock.wellFormed, hkeys⟩
      exact ⟨he, heq ▸ nameText_ne_empty hname⟩
  | list hname hlist =>
      obtain ⟨he, heq⟩ := hlist.wellFormed (.bare _)
      exact ⟨he, heq ▸ nameText_ne_empty hname⟩
  | escaped hname _ => exact ⟨.bare _, nameText_ne_empty hname⟩
  | word hname _ => exact ofWord_wellFormed (nameText_ne_empty hname)

/-! ## Tokens -/

theorem tokenText_wellFormed {t : Token} {ws : List Char} (h : TokenText t ws) : t.WellFormed := by
  cases h with
  | @number n _ _ _ hfinite =>
      cases hx : n.toBinary64 false with
      | nan => rw [hx] at hfinite; cases hfinite
      | infinite => rw [hx] at hfinite; cases hfinite
      | finite negative u hu =>
          cases Decimal.toBinary64_sign hx
          exact ⟨u, hu, rfl⟩
  | reference href => exact href.wellFormed
  | _ => trivial

end MetricFormula.Lexer
