import MetricFormula.Metrics.Report
import MetricFormula.Proofs.Outcome
import MetricFormula.Proofs.Table

/-!
# Taking in the objects of a list

What becomes of one object depends on the set so far. A run over a list is one such step after another, and every part
of a run is a run.
-/

namespace MetricFormula.Metrics

/-! ## Objects -/

def fields? : Json → Option Fields
  | .object fields => some fields
  | _ => none

def objects (metrics : List Json) : List Fields := metrics.filterMap fields?

/-- The name and the formula of an object that has both. -/
def metric? (fields : Fields) : Option (String × String) :=
  match Json.stringField? nameField fields, Json.stringField? formulaField fields with
  | some name, some text => some (name, text)
  | _, _ => none

/-- What the threshold of an object is read as, if it is a text. -/
def threshold? (options : Options) (fields : Fields) : Option (Except FormulaError Expr) :=
  (Json.stringField? thresholdField fields).map (prepare options)

theorem mem_names_of_stringField {key text : String} {fields : Fields} (h : Json.stringField? key fields = some text) :
    key ∈ fields.map Prod.fst := by
  obtain ⟨value, hvalue, -⟩ := Option.bind_eq_some_iff.mp h
  exact Entries.isSome_find?.mp (hvalue ▸ rfl)

theorem metric?_eq_some {fields : Fields} {name text : String} :
    metric? fields = some (name, text) ↔
      Json.stringField? nameField fields = some name ∧ Json.stringField? formulaField fields = some text := by
  unfold metric?
  split
  · rename_i hname htext
    simp only [hname, htext, Option.some.injEq, Prod.mk.injEq]
  · rename_i hno
    exact ⟨nofun, fun ⟨hname, htext⟩ => absurd htext (hno _ _ hname)⟩

/-- The fields with a canonical threshold, or as they are and why it cannot be read. -/
def withThreshold (options : Options) (fields : Fields) : Fields × Option FormulaError :=
  match threshold? options fields with
  | none => (fields, none)
  | some (.ok e) => (Entries.insert thresholdField (.string e.simplify.print) fields, none)
  | some (.error error) => (fields, some error)

section

variable (options : Options) (fields : Fields)

theorem match_canonicalThreshold (name : String) (set : FormulaSet) :
    (match canonicalThreshold options fields with
      | .ok fields => (Entry.metric name fields none, set)
      | .error e => (Entry.metric name fields (some e), set)) =
      (.metric name (withThreshold options fields).1 (withThreshold options fields).2, set) := by
  unfold canonicalThreshold withThreshold threshold?
  cases Json.stringField? thresholdField fields with
  | none => rfl
  | some text => cases h : prepare options text <;> simp [h, Except.map]

theorem names_withThreshold : (withThreshold options fields).1.map Prod.fst = fields.map Prod.fst := by
  unfold withThreshold
  split
  · rfl
  · rename_i h
    obtain ⟨text, htext, -⟩ := Option.map_eq_some_iff.mp h
    exact Entries.names_insert _ (mem_names_of_stringField htext)
  · rfl

theorem find?_withThreshold :
    Entries.find? thresholdField (withThreshold options fields).1 = match threshold? options fields with
      | some (.ok e) => some (.string e.simplify.print)
      | _ => Entries.find? thresholdField fields := by
  unfold withThreshold
  match threshold? options fields with
  | none => rfl
  | some (.ok e) => rw [Entries.find?_insert, if_pos rfl]
  | some (.error error) => rfl

variable {fields} in
theorem getElem?_withThreshold {i : Nat} {key : String} {value : Json} (h : fields[i]? = some (key, value))
    (hkey : key ≠ thresholdField) : (withThreshold options fields).1[i]? = some (key, value) := by
  unfold withThreshold
  split
  · exact h
  · exact Entries.getElem?_insert _ h hkey
  · exact h

end

/-! ## One object -/

variable {options : Options}

/-- What taking in an object can do. -/
inductive TakesIn (options : Options) (set : FormulaSet) (fields : Fields) : Entry → FormulaSet → Prop where
  | plain : metric? fields = none → TakesIn options set fields (.plain fields) set
  | unreadable {name text error} : metric? fields = some (name, text) → prepare options text = .error error →
      TakesIn options set fields (.refused name error) set
  | taken {name text e} : metric? fields = some (name, text) → prepare options text = .ok e → set.contains name →
      TakesIn options set fields (.refused name (.duplicateName name)) set
  | metric {name text e} : metric? fields = some (name, text) → prepare options text = .ok e →
      ¬ set.contains name →
      TakesIn options set fields (.metric name (withThreshold options fields).1 (withThreshold options fields).2)
        (set.insert name e)

theorem takeIn_of_plain {set : FormulaSet} {fields : Fields} (h : metric? fields = none) :
    takeIn options set fields = (.plain fields, set) := by
  unfold takeIn
  split
  · rename_i hname htext
    exact (nomatch h.symm.trans (metric?_eq_some.mpr ⟨hname, htext⟩))
  · rfl

theorem takeIn_of_metric {set : FormulaSet} {fields : Fields} {name text : String}
    (h : metric? fields = some (name, text)) :
    takeIn options set fields = match prepare options text >>= set.push name with
      | .error e => (.refused name e, set)
      | .ok set => (.metric name (withThreshold options fields).1 (withThreshold options fields).2, set) := by
  obtain ⟨hname, htext⟩ := metric?_eq_some.mp h
  simp only [takeIn, hname, htext]
  cases prepare options text >>= set.push name with
  | error error => rfl
  | ok set => exact match_canonicalThreshold options fields name set

theorem takesIn_takeIn (set : FormulaSet) (fields : Fields) :
    TakesIn options set fields (takeIn options set fields).1 (takeIn options set fields).2 := by
  match hmetric : metric? fields with
  | none =>
      rw [takeIn_of_plain hmetric]
      exact .plain hmetric
  | some (name, text) =>
      rw [takeIn_of_metric hmetric]
      cases hprepare : prepare options text with
      | error error => exact .unreadable hmetric hprepare
      | ok e =>
          by_cases hset : set.contains name
          · rw [ok_bind, FormulaSet.push, if_pos hset]
            exact .taken hmetric hprepare hset
          · rw [ok_bind, FormulaSet.push, if_neg hset]
            exact .metric hmetric hprepare hset

/-- Nothing else can become of the object. -/
theorem TakesIn.takeIn_eq {set set' : FormulaSet} {fields : Fields} {entry : Entry}
    (h : TakesIn options set fields entry set') : takeIn options set fields = (entry, set') := by
  cases h with
  | plain hno => exact takeIn_of_plain hno
  | unreadable hmetric hprepare => rw [takeIn_of_metric hmetric, hprepare]; rfl
  | taken hmetric hprepare hset => rw [takeIn_of_metric hmetric, hprepare, ok_bind, FormulaSet.push, if_pos hset]
  | metric hmetric hprepare hset => rw [takeIn_of_metric hmetric, hprepare, ok_bind, FormulaSet.push, if_neg hset]

/-! ## Runs -/

/-- The objects of a list, taken in one after another, make a set of another. -/
inductive TakenIn (options : Options) : FormulaSet → List Fields → List Entry → FormulaSet → Prop where
  | nil {set} : TakenIn options set [] [] set
  | cons {set set' set'' fields entry rest entries} : TakesIn options set fields entry set' →
      TakenIn options set' rest entries set'' → TakenIn options set (fields :: rest) (entry :: entries) set''

theorem takenIn_takeInAll (set : FormulaSet) (metrics : List Json) :
    TakenIn options set (objects metrics) (takeInAll options set metrics).1 (takeInAll options set metrics).2 := by
  induction metrics generalizing set with
  | nil => exact .nil
  | cons metric rest ih =>
      cases metric with
      | object fields => exact .cons (takesIn_takeIn set fields) (ih _)
      | _ => exact ih set

namespace TakenIn

variable {set set' : FormulaSet} {objects : List Fields} {entries : List Entry}

theorem length_eq (h : TakenIn options set objects entries set') : entries.length = objects.length := by
  induction h with
  | nil => rfl
  | cons _ _ ih => rw [List.length_cons, List.length_cons, ih]

/-- Every object is taken in after a run over those before it. -/
theorem step (h : TakenIn options set objects entries set') {i : Nat} {fields : Fields} {entry : Entry}
    (hfields : objects[i]? = some fields) (hentry : entries[i]? = some entry) :
    ∃ before after, TakenIn options set (objects.take i) (entries.take i) before ∧
      TakesIn options before fields entry after := by
  induction h generalizing i with
  | nil => cases hfields
  | cons hstep hrest ih =>
      cases i with
      | zero =>
          cases hfields
          cases hentry
          exact ⟨_, _, .nil, hstep⟩
      | succ i =>
          obtain ⟨before, after, hbefore, hlast⟩ := ih hfields hentry
          exact ⟨before, after, .cons hstep hbefore, hlast⟩

end TakenIn

end MetricFormula.Metrics
