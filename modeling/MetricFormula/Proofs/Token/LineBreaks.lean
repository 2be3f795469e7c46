import MetricFormula.Expr.Printer
import MetricFormula.Proofs.Token.Spelling

/-!
# Line breaks in names and modifiers

Names, keys and values may have any characters. A line break in one of them is printed as it is, after a backslash, and
is read only after a backslash.
-/

namespace MetricFormula

def Modifier.chars (m : Modifier) : List Char := m.key.toList ++ (m.value.map String.toList).getD []

/-- The characters of the name and of the modifiers. -/
def Event.chars (e : Event) : List Char := e.name.toList ++ e.modifiers.flatMap Modifier.chars

/-- The characters of the event that a token stands for. -/
def Token.chars : Token → List Char
  | .word name => name.toList
  | .event e => e.chars
  | _ => []

/-- A backslash stands directly before a line break. -/
def EscapesLineBreak (cs : List Char) : Prop := ['\\', '\n'] <:+: cs

/-! ## Printed -/

theorem lineBreak_mem_escaped {c : Char} {plain : Bool} : '\n' ∈ escaped c plain ↔ '\n' = c := by
  cases plain <;> simp [escaped]

theorem lineBreak_mem_wordText {cs : List Char} : '\n' ∈ wordText cs ↔ '\n' ∈ cs := by
  simp [wordText, lineBreak_mem_escaped]

theorem lineBreak_mem_nameText {name : String} : '\n' ∈ nameText name ↔ '\n' ∈ name.toList := by
  unfold nameText
  split
  · rename_i h; simp [h]
  · rename_i h; simp [h, lineBreak_mem_escaped, lineBreak_mem_wordText]

theorem Modifier.lineBreak_mem_text {m : Modifier} : '\n' ∈ m.text ↔ '\n' ∈ m.chars := by
  obtain ⟨key, _ | value⟩ := m <;> simp [text, chars, lineBreak_mem_wordText]

theorem lineBreak_mem_modifiersText {ms : List Modifier} :
    '\n' ∈ modifiersText ms ↔ '\n' ∈ ms.flatMap Modifier.chars := by
  induction ms with
  | nil => simp [modifiersText]
  | cons m ms ih => simp [modifiersText, ih, m.lineBreak_mem_text]

/-- An event is printed with a line break exactly if its name or a modifier has one. -/
theorem Event.lineBreak_mem_text {e : Event} : '\n' ∈ e.text ↔ '\n' ∈ e.chars := by
  obtain ⟨name, _ | ⟨m, ms⟩, _ | ⟨⟨⟩⟩⟩ := e <;>
    simp [text, chars, lineBreak_mem_nameText, lineBreak_mem_modifiersText, Modifier.lineBreak_mem_text]

/-! ## Read -/

section Read

variable {m : Modifier} {ms : List Modifier} {e e' : Event} {t : Token} {cs ws : List Char}

theorem Written.escapesLineBreak {plain : Char → Bool} (h : Written plain cs ws) (hplain : ¬ plain '\n')
    (hmem : '\n' ∈ cs) : EscapesLineBreak ws := by
  induction h with
  | nil => cases hmem
  | plain hc _ ih =>
      rcases List.mem_cons.mp hmem with rfl | hmem
      · exact absurd hc hplain
      · exact (ih hmem).trans (List.suffix_cons _ _).isInfix
  | @escaped c cs ws _ ih =>
      rcases List.mem_cons.mp hmem with rfl | hmem
      · exact ⟨[], ws, rfl⟩
      · exact (ih hmem).trans (List.suffix_append ['\\', c] ws).isInfix

theorem NameText.escapesLineBreak (h : NameText cs ws) (hmem : '\n' ∈ cs) : EscapesLineBreak ws := by
  cases h with
  | @plain c cs ws hc hrest =>
      rcases List.mem_cons.mp hmem with rfl | hmem
      · exact absurd hc (by decide)
      · exact (hrest.escapesLineBreak (by decide) hmem).trans (List.suffix_cons _ _).isInfix
  | @escaped c cs ws hrest =>
      rcases List.mem_cons.mp hmem with rfl | hmem
      · exact ⟨[], ws, rfl⟩
      · exact (hrest.escapesLineBreak (by decide) hmem).trans (List.suffix_append ['\\', c] ws).isInfix

namespace Lexer

theorem TermText.escapesLineBreak (h : TermText m ws) (hmem : '\n' ∈ m.chars) : EscapesLineBreak ws := by
  cases h with
  | flag hkey =>
      have hmem : '\n' ∈ _ := (List.mem_append.mp hmem).resolve_right List.not_mem_nil
      exact hkey.written.escapesLineBreak (by decide) hmem
  | @pair key value ks sep vs hkey _ hvalue =>
      rcases List.mem_append.mp hmem with hmem | hmem
      · exact (hkey.written.escapesLineBreak (by decide) hmem).trans (List.prefix_append ks _).isInfix
      · have hsuffix : vs <:+ ks ++ (sep ++ vs) := (List.suffix_append sep vs).trans (List.suffix_append ks _)
        exact (hvalue.written.escapesLineBreak (by decide) hmem).trans hsuffix.isInfix

theorem TermsText.escapesLineBreak (h : TermsText ms ws) (hmem : '\n' ∈ ms.flatMap Modifier.chars) :
    EscapesLineBreak ws := by
  induction h with
  | close => cases hmem
  | @more m ms sep ws vs _ hterm _ ih =>
      rw [List.flatMap_cons] at hmem
      rcases List.mem_append.mp hmem with hmem | hmem
      · exact (hterm.escapesLineBreak hmem).trans ⟨sep, vs, List.append_assoc sep ws vs⟩
      · have hsuffix : vs <:+ sep ++ (ws ++ vs) := (List.suffix_append ws vs).trans (List.suffix_append sep _)
        exact (ih hmem).trans hsuffix.isInfix

theorem BlockText.escapesLineBreak (h : BlockText m ms ws) (hmem : '\n' ∈ (m :: ms).flatMap Modifier.chars) :
    EscapesLineBreak ws := by
  obtain ⟨hterm, hmore⟩ := h
  rw [List.flatMap_cons] at hmem
  rcases List.mem_append.mp hmem with hmem | hmem
  · exact (hterm.escapesLineBreak hmem).trans (List.prefix_append _ _).isInfix
  · exact (hmore.escapesLineBreak hmem).trans (List.suffix_append _ _).isInfix

/-! The items of a list are not escaped, and shorthands stand for keys without line breaks. -/

theorem not_mem_of_all {p : Char → Bool} (h : cs.all p) (hp : ¬ p '\n') : '\n' ∉ cs :=
  fun hmem => hp (List.all_eq_true.mp h _ hmem)

theorem ItemText.not_lineBreak (h : ItemText m ws) : '\n' ∉ m.chars := by
  cases h with
  | flag _ hkey => simpa [Modifier.chars] using not_mem_of_all hkey (by decide)
  | pair _ hkey _ hvalue =>
      have hkey := not_mem_of_all hkey (by decide)
      have hvalue := not_mem_of_all hvalue (by decide)
      simp [Modifier.chars, hkey, hvalue]

theorem shortValue_not_lineBreak {key : String} {digits : List Char} (hkey : '\n' ∉ key.toList)
    (h : digits.all Char.isDigit) : '\n' ∉ (Modifier.mk key (shortValue digits)).chars := by
  have hdigits := not_mem_of_all h (by decide)
  cases digits with
  | nil => simp [Modifier.chars, shortValue, hkey]
  | cons d ds => simpa [Modifier.chars, shortValue, hkey] using hdigits

theorem expandShort_not_lineBreak (h : '\n' ∉ m.chars) : '\n' ∉ (expandShort m).chars := by
  unfold expandShort
  split
  · split
    · exact shortValue_not_lineBreak (by decide) ‹_›
    · exact h
  · split
    · exact shortValue_not_lineBreak (by decide) ‹_›
    · exact h
  · split
    · exact shortValue_not_lineBreak (by decide) ‹_›
    · exact h
  · exact h

theorem lineBreak_of_takes (h : e.Takes m e') (hitem : ItemText m ws) (hmem : '\n' ∈ e'.chars) : '\n' ∈ e.chars := by
  cases h with
  | qualifier => exact hmem
  | modifier _ _ =>
      rw [Event.chars, Event.withModifier, List.flatMap_append, ← List.append_assoc] at hmem
      rcases List.mem_append.mp hmem with hmem | hmem
      · exact hmem
      · rw [List.flatMap_singleton] at hmem
        exact absurd hmem (expandShort_not_lineBreak hitem.not_lineBreak)

theorem ListText.lineBreak (h : ListText e ws e') (hmem : '\n' ∈ e'.chars) : '\n' ∈ e.chars := by
  induction h with
  | nil => exact hmem
  | item hitem htakes _ ih => exact lineBreak_of_takes htakes hitem (ih hmem)

theorem TailText.lineBreak (h : TailText e ws e') (hmem : '\n' ∈ e'.chars) : '\n' ∈ e.chars := by
  cases h with
  | list h => exact h.lineBreak hmem
  | retired h => exact h.lineBreak hmem

theorem ReferenceText.escapesLineBreak (h : ReferenceText t ws) (hmem : '\n' ∈ t.chars) : EscapesLineBreak ws := by
  cases h with
  | @leading name ms bs vs e hblock _ htail =>
      have hmem : '\n' ∈ (Modifier.mk name none :: ms).flatMap Modifier.chars := by
        simpa [Event.chars, Modifier.chars] using htail.lineBreak hmem
      exact (hblock.escapesLineBreak hmem).trans ⟨['@'], vs, by simp⟩
  | @block cs ns m ms bs vs e hname hblock _ htail =>
      have hmem := htail.lineBreak hmem
      rw [Event.chars, String.toList_ofList] at hmem
      rcases List.mem_append.mp hmem with hmem | hmem
      · exact (hname.escapesLineBreak hmem).trans (List.prefix_append ns _).isInfix
      · exact (hblock.escapesLineBreak hmem).trans ⟨ns ++ ['@'], vs, by simp⟩
  | @list cs ns vs e hname hlist =>
      have hmem : '\n' ∈ cs := by simpa [Event.chars, Event.bare] using hlist.lineBreak hmem
      exact (hname.escapesLineBreak hmem).trans (List.prefix_append ns _).isInfix
  | escaped hname _ =>
      refine hname.escapesLineBreak ?_
      simpa [Token.chars, Event.chars, Event.bare] using hmem
  | word hname _ =>
      refine hname.escapesLineBreak ?_
      unfold Token.ofWord at hmem
      split at hmem
      · cases hmem
      · split at hmem
        · cases hmem
        · rwa [Token.chars, String.toList_ofList] at hmem

end Lexer

/-- A token whose event has a line break is spelled with a backslash before it. -/
theorem TokenText.escapesLineBreak (h : TokenText t ws) (hmem : '\n' ∈ t.chars) : EscapesLineBreak ws := by
  cases h with
  | reference href => exact href.escapesLineBreak hmem
  | _ => cases hmem

end Read

end MetricFormula
