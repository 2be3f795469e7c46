import MetricFormula.Proofs.Grammar.RoundTrip
import MetricFormula.Proofs.Token.Completeness

/-!
# The spellings of an event

The modifiers of an event stand in a block after its name, in a block that begins with the name, or in a list. A list
has shorthand for some modifiers, so these are left out here.
-/

namespace MetricFormula

/-- Keys that stand for something else in a list. -/
inductive Shorthand : List Char → Prop where
  | retireLatency : Shorthand ['R']
  | counterMask {d ds} : (d :: ds).all Char.isDigit → Shorthand ('c' :: d :: ds)
  | edge {ds} : ds.all Char.isDigit → Shorthand ('e' :: ds)
  | inverted {ds} : ds.all Char.isDigit → Shorthand ('i' :: ds)

namespace Modifier

/-- A modifier that needs no escapes and means the same in a block and in a list. -/
structure Listable (m : Modifier) : Prop where
  key : m.key ≠ "" ∧ m.key.toList.all Lexer.isKeyChar
  value : ∀ v ∈ m.value, v ≠ "" ∧ v.toList.all isWordChar
  longhand : m.value = none → ¬Shorthand m.key.toList

/-- The modifier with the mark `eq` before its value. -/
def spelled (eq : List Char) (m : Modifier) : List Char :=
  m.key.toList ++ match m.value with
    | some v => eq ++ v.toList
    | none => []

end Modifier

/-- Modifiers with a separator before each. -/
def modifiersSpelled (sep eq : List Char) (ms : List Modifier) : List Char := ms.flatMap fun m => sep ++ m.spelled eq

theorem modifiersSpelled_cons (sep eq : List Char) (m : Modifier) (ms : List Modifier) :
    modifiersSpelled sep eq (m :: ms) = sep ++ (m.spelled eq ++ modifiersSpelled sep eq ms) :=
  List.append_assoc sep _ _

def Qualifier.spelled : Option Qualifier → List Char
  | some .retireLatency => ['R']
  | none => []

def Qualifier.listed : Option Qualifier → List Char
  | some .retireLatency => [':', 'R']
  | none => []

/-- The texts of an event with its modifiers. Separators in a block may have backslashes, and the qualifier stands at any
place in a list. -/
inductive Event.Spelling (e : Event) : List Char → Prop where
  | block {ns comma eq} : NameText e.name.toList ns → Separator ',' comma → Separator '=' eq →
      Spelling e (ns ++ '@' :: (comma.intercalate (e.modifiers.map (Modifier.spelled eq)) ++
        '@' :: Qualifier.spelled e.qualifier))
  | leading {ws comma eq} : Written Lexer.isTermChar e.name.toList ws → Separator ',' comma → Separator '=' eq →
      Spelling e ('@' :: (comma.intercalate (ws :: e.modifiers.map (Modifier.spelled eq)) ++
        '@' :: Qualifier.spelled e.qualifier))
  | list {ns before after} : NameText e.name.toList ns → e.modifiers = before ++ after →
      Spelling e (ns ++ (modifiersSpelled [':'] ['='] before ++
        (Qualifier.listed e.qualifier ++ modifiersSpelled [':'] ['='] after)))

/-! ## Blocks -/

theorem Written.self {plain : Char → Bool} {cs : List Char} (h : cs.all plain) : Written plain cs cs := by
  induction cs with
  | nil => exact .nil
  | cons c cs ih =>
      obtain ⟨hc, hcs⟩ := Bool.and_eq_true_iff.mp (List.all_cons.symm.trans h)
      exact .plain hc (ih hcs)

theorem intercalate_cons {α : Type} (sep x : List α) (xs : List (List α)) :
    sep.intercalate (x :: xs) = x ++ xs.flatMap (sep ++ ·) := by
  induction xs generalizing x with
  | nil => simp [List.intercalate]
  | cons y xs ih => rw [List.intercalate_cons_cons, ih, List.flatMap_cons, List.append_assoc, List.append_assoc]

namespace Lexer

variable {name : String} {m : Modifier} {ms : List Modifier} {comma eq : List Char}

theorem termWord_self {s : String} (hs : s ≠ "") (h : s.toList.all isWordChar) : TermWord s s.toList where
  writable := writable_of_all hs h
  written := .self (List.all_eq_true.mpr fun c hc => isTermChar_of_isWordChar (List.all_eq_true.mp h c hc))

theorem termText_spelled (hm : m.Listable) (heq : Separator '=' eq) : TermText m (m.spelled eq) := by
  obtain ⟨key, value⟩ := m
  have hkey : TermWord key key.toList := termWord_self hm.key.1 (all_isWordChar hm.key.2)
  cases value with
  | none =>
      rw [Modifier.spelled, List.append_nil]
      exact .flag hkey
  | some v => exact .pair hkey heq (termWord_self (hm.value v rfl).1 (hm.value v rfl).2)

theorem termsText_spelled (hms : ∀ m ∈ ms, m.Listable) (hcomma : Separator ',' comma) (heq : Separator '=' eq) :
    TermsText ms (modifiersSpelled comma eq ms ++ ['@']) := by
  induction ms with
  | nil => exact .close
  | cons m ms ih =>
      obtain ⟨hm, hms⟩ := List.forall_mem_cons.mp hms
      rw [modifiersSpelled_cons, List.append_assoc, List.append_assoc]
      exact .more hcomma (termText_spelled hm heq) (ih hms)

theorem blockText_spelled {ws : List Char} (hm : TermText m ws) (hms : ∀ m ∈ ms, m.Listable)
    (hcomma : Separator ',' comma) (heq : Separator '=' eq) :
    BlockText m ms (comma.intercalate (ws :: ms.map (Modifier.spelled eq)) ++ ['@']) := by
  rw [intercalate_cons, List.flatMap_map, List.append_assoc]
  exact .terms hm (termsText_spelled hms hcomma heq)

theorem tailText_spelled (name : String) (ms : List Modifier) (q : Option Qualifier) :
    TailText ⟨name, ms, none⟩ (Qualifier.spelled q) ⟨name, ms, q⟩ := by
  cases q with
  | none => exact .list .nil
  | some q => exact .retired .nil

/-! ## Lists -/

theorem expandShort_of_longhand (h : m.value = none → ¬Shorthand m.key.toList) : expandShort m = m := by
  unfold expandShort
  split
  · rename_i hvalue hkey
    split
    · rename_i hdigits
      exact absurd (hkey ▸ .counterMask hdigits) (h hvalue)
    · rfl
  · rename_i hvalue hkey
    split
    · rename_i hdigits
      exact absurd (hkey ▸ .edge hdigits) (h hvalue)
    · rfl
  · rename_i hvalue hkey
    split
    · rename_i hdigits
      exact absurd (hkey ▸ .inverted hdigits) (h hvalue)
    · rfl
  · rfl

theorem itemText_spelled (hm : m.Listable) : ItemText m (m.spelled ['=']) := by
  obtain ⟨key, value⟩ := m
  cases value with
  | none =>
      rw [Modifier.spelled, List.append_nil]
      exact .flag hm.key.1 hm.key.2
  | some v => exact .pair hm.key.1 hm.key.2 (hm.value v rfl).1 (hm.value v rfl).2

theorem takes_listable {e : Event} (hm : m.Listable) (hnew : m.key ∉ e.modifiers.map Modifier.key) :
    e.Takes m (e.withModifier m) := by
  have hlong := expandShort_of_longhand hm.longhand
  have hne : m ≠ ⟨"R", none⟩ := by
    rintro rfl
    exact hm.longhand rfl .retireLatency
  have htakes : e.Takes m (e.withModifier (expandShort m)) := .modifier hne (by rwa [hlong, Event.modifier?_eq_none])
  rwa [hlong] at htakes

/-- The items of a list are added to the modifiers that are there. -/
theorem listText_spelled {q : Option Qualifier} {ms₀ : List Modifier} {vs : List Char} {e : Event}
    (hms : ∀ m ∈ ms, m.Listable) (hkeys : ((ms₀ ++ ms).map Modifier.key).Nodup)
    (h : ListText ⟨name, ms₀ ++ ms, q⟩ vs e) : ListText ⟨name, ms₀, q⟩ (modifiersSpelled [':'] ['='] ms ++ vs) e := by
  induction ms generalizing ms₀ with
  | nil => rwa [List.append_nil] at h
  | cons m ms ih =>
      obtain ⟨hm, hms⟩ := List.forall_mem_cons.mp hms
      rw [List.append_cons] at hkeys h
      have hnew : m.key ∉ ms₀.map Modifier.key := by
        rw [List.map_append, List.map_append, List.append_assoc, List.nodup_append] at hkeys
        exact fun hmem => hkeys.2.2 m.key hmem m.key (by simp) rfl
      rw [modifiersSpelled_cons, List.append_assoc, List.append_assoc, List.singleton_append]
      exact .item (itemText_spelled hm) (takes_listable hm hnew) (ih hms hkeys h)

theorem listText_qualifier {ms : List Modifier} {q : Option Qualifier} {vs : List Char} {e : Event}
    (h : ListText ⟨name, ms, q⟩ vs e) : ListText ⟨name, ms, none⟩ (Qualifier.listed q ++ vs) e := by
  cases q with
  | none => exact h
  | some q => exact .item (.flag (by decide) (by decide)) .qualifier h

/-- A list that adds something is not empty, and its name is not taken for a word. -/
theorem referenceText_list {cs ns ws : List Char} {e : Event} (hns : NameText cs ns)
    (h : ListText (.bare (String.ofList cs)) ws e) (he : e.modifiers ≠ []) : ReferenceText (.event e) (ns ++ ws) := by
  cases h with
  | nil => exact absurd rfl he
  | item hitem htakes hlist => exact .list hns (.item hitem htakes hlist)

end Lexer

/-! ## Events -/

variable {e : Event} {ws : List Char}

theorem Event.Spelling.referenceText (hname : Writable e.name) (hms : e.modifiers ≠ [])
    (hkeys : (e.modifiers.map Modifier.key).Nodup) (hlist : ∀ m ∈ e.modifiers, m.Listable) (h : e.Spelling ws) :
    Lexer.ReferenceText (.event e) ws := by
  obtain ⟨name, ms, q⟩ := e
  have hchars : String.ofList name.toList = name := String.ofList_toList
  have htail := Lexer.tailText_spelled name ms q
  cases h with
  | @block ns comma eq hns hcomma heq =>
      obtain ⟨m, ms, rfl⟩ := List.exists_cons_of_ne_nil hms
      obtain ⟨hm, hms⟩ := List.forall_mem_cons.mp hlist
      have hblock := Lexer.blockText_spelled (Lexer.termText_spelled hm heq) hms hcomma heq
      have htext := Lexer.ReferenceText.block hns hblock hkeys (by rwa [hchars])
      rwa [List.append_assoc] at htext
  | @leading ws comma eq hws hcomma heq =>
      have hblock := Lexer.blockText_spelled (.flag ⟨hname, hws⟩) hlist hcomma heq
      have htext := Lexer.ReferenceText.leading hblock hkeys htail
      rwa [List.append_assoc] at htext
  | @list ns before after hns hsplit =>
      obtain rfl : ms = before ++ after := hsplit
      obtain ⟨hbefore, hafter⟩ := List.forall_mem_append.mp hlist
      have hkeys' : (([] ++ before).map Modifier.key).Nodup := by
        rw [List.map_append] at hkeys
        exact (List.nodup_append.mp hkeys).1
      have htext : Lexer.ListText ⟨name, before, q⟩ (modifiersSpelled [':'] ['='] after ++ []) ⟨name, before ++ after, q⟩ :=
        Lexer.listText_spelled hafter hkeys .nil
      have htext : Lexer.ListText ⟨name, [] ++ before, none⟩ _ _ := Lexer.listText_qualifier htext
      have htext := Lexer.listText_spelled hbefore hkeys' htext
      rw [List.append_nil] at htext
      exact Lexer.referenceText_list hns (by rwa [hchars]) hms

theorem lex_of_tokenText {t : Token} (h : TokenText t ws) :
    lex (String.ofList ws) = .ok [⟨t, ⟨0, byteLength ws⟩⟩] := by
  have hbegins : Lexer.Begins ws t [] := by
    have := Lexer.begins_of_text h Lexer.delimited_nil
    rwa [List.append_nil] at this
  obtain ⟨fuel, -, htokens⟩ := Lexer.tokens_of_begins hbegins (byteLength ws) (Nat.le_refl _)
  rw [lex, String.toList_ofList, htokens, Lexer.offset, Nat.sub_self]
  cases fuel <;> rfl

theorem parse_of_tokenText (h : TokenText (.event e) ws) : parse (String.ofList ws) = .ok (.event e) :=
  parse_eq_ok.mpr ⟨_, lex_of_tokenText h,
    Parser.formula_complete (Expr.canonical_of_operand rfl .event).formula (by simp [Expr.depth, maxDepth])⟩

/-- Every spelling of an event is read as that event. -/
theorem parse_spelling (hname : Writable e.name) (hms : e.modifiers ≠ []) (hkeys : (e.modifiers.map Modifier.key).Nodup)
    (hlist : ∀ m ∈ e.modifiers, m.Listable) (h : e.Spelling ws) : parse (String.ofList ws) = .ok (.event e) :=
  parse_of_tokenText (.reference (h.referenceText hname hms hkeys hlist))

/-- The event of the three spellings below. -/
def Event.sampledFlag : Event := ⟨"é", [⟨"k", some "v"⟩, ⟨"flag", none⟩], some .retireLatency⟩

theorem parse_spelling_sampled :
    parse "\\é@k\\=v\\,flag@R" = .ok (.event .sampledFlag) ∧ parse "@é,k=v,flag@R" = .ok (.event .sampledFlag) ∧
      parse "\\é:k=v:R:flag" = .ok (.event .sampledFlag) := by
  have hlist : ∀ m ∈ Event.sampledFlag.modifiers, m.Listable := by
    have hpair : (Modifier.mk "k" (some "v")).Listable := ⟨by decide, by rintro v ⟨⟩; decide, nofun⟩
    have hflag : (Modifier.mk "flag" none).Listable := by
      refine ⟨by decide, nofun, fun _ h => ?_⟩
      have h : Shorthand ['f', 'l', 'a', 'g'] := h
      cases h
    exact List.forall_mem_cons.mpr ⟨hpair, List.forall_mem_singleton.mpr hflag⟩
  have hname : Writable "é" := ⟨by decide, List.forall_mem_singleton.mpr (by decide)⟩
  have hparse {ws : List Char} (h : Event.sampledFlag.Spelling ws) : parse (String.ofList ws) = .ok (.event .sampledFlag) :=
    parse_spelling hname (List.cons_ne_nil _ _) (by decide) hlist h
  have hescaped : NameText "é".toList ['\\', 'é'] := .escaped .nil
  have hplain : Written Lexer.isTermChar "é".toList ['é'] := .plain (by decide) .nil
  have hblock := @Event.Spelling.block .sampledFlag _ _ _ hescaped .escaped .escaped
  have hleading := @Event.Spelling.leading .sampledFlag _ _ _ hplain .plain .plain
  have hitems := @Event.Spelling.list .sampledFlag _ [⟨"k", some "v"⟩] [⟨"flag", none⟩] hescaped rfl
  exact ⟨hparse hblock, hparse hleading, hparse hitems⟩

end MetricFormula
