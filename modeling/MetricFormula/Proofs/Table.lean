import MetricFormula.Table

/-! Values stored in tables. -/

namespace MetricFormula

variable {α β : Type}

namespace Entries

theorem find?_insert (name : String) (value : α) (entries : List (String × α)) (n : String) :
    find? n (insert name value entries) = if n = name then some value else find? n entries := by
  induction entries with
  | nil => simp only [insert, find?, eq_comm]
  | cons e rest ih =>
      obtain ⟨m, v⟩ := e
      by_cases hm : m = name
      · subst hm
        by_cases hn : n = m
        · subst hn; simp [insert, find?]
        · simp [insert, find?, hn, Ne.symm hn]
      · simp only [insert, hm, if_false, find?, ih]
        by_cases hn : m = n
        · subst hn; simp [hm]
        · simp [hn]

theorem mem_of_find? {n : String} {v : α} {entries : List (String × α)} (h : find? n entries = some v) :
    (n, v) ∈ entries := by
  induction entries with
  | nil => cases h
  | cons e rest ih =>
      obtain ⟨m, u⟩ := e
      by_cases hm : m = n
      · subst hm
        simp only [find?, if_true, Option.some.injEq] at h
        subst h
        exact List.mem_cons_self
      · simp only [find?, hm, if_false] at h
        exact List.mem_cons_of_mem _ (ih h)

theorem find?_eq_none {n : String} {entries : List (String × α)} :
    find? n entries = none ↔ n ∉ entries.map Prod.fst := by
  induction entries with
  | nil => simp [find?]
  | cons e rest ih =>
      obtain ⟨m, u⟩ := e
      by_cases hm : m = n
      · subst hm; simp [find?]
      · simp [find?, hm, Ne.symm hm, ih]

theorem isSome_find? {n : String} {entries : List (String × α)} :
    (find? n entries).isSome ↔ n ∈ entries.map Prod.fst := by
  rw [← Option.ne_none_iff_isSome, Ne, find?_eq_none, Decidable.not_not]

/-- Each of several values with distinct names is the value of its name. -/
theorem find?_of_mem {n : String} {v : α} {entries : List (String × α)} (h : (entries.map Prod.fst).Nodup)
    (hv : (n, v) ∈ entries) : find? n entries = some v := by
  induction entries with
  | nil => cases hv
  | cons e rest ih =>
      obtain ⟨m, u⟩ := e
      rw [List.map_cons, List.nodup_cons] at h
      rcases List.mem_cons.mp hv with heq | hv
      · cases heq; simp [find?]
      · have hm : m ≠ n := by
          rintro rfl
          have hmem : (m, v).1 ∈ rest.map Prod.fst := List.mem_map_of_mem hv
          exact h.1 hmem
        simp [find?, hm, ih h.2 hv]

theorem find?_map (f : α → β) (n : String) (entries : List (String × α)) :
    find? n (entries.map fun (name, value) => (name, f value)) = (find? n entries).map f := by
  induction entries with
  | nil => rfl
  | cons e rest ih =>
      obtain ⟨m, u⟩ := e
      by_cases hm : m = n
      · simp [find?, hm]
      · simpa [find?, hm] using ih

/-- A value stored under a name that is there leaves all names where they are. -/
theorem names_insert {n : String} (v : α) {entries : List (String × α)} (h : n ∈ entries.map Prod.fst) :
    (insert n v entries).map Prod.fst = entries.map Prod.fst := by
  induction entries with
  | nil => cases h
  | cons e rest ih =>
      obtain ⟨m, u⟩ := e
      by_cases hm : m = n
      · simp [insert, hm]
      · have hrest : n ∈ rest.map Prod.fst := (List.mem_cons.mp h).resolve_left (Ne.symm hm)
        simp [insert, hm, ih hrest]

/-- The values of other names stay in their places. -/
theorem getElem?_insert {n : String} (v : α) {entries : List (String × α)} {i : Nat} {m : String} {u : α}
    (h : entries[i]? = some (m, u)) (hm : m ≠ n) : (insert n v entries)[i]? = some (m, u) := by
  induction entries generalizing i with
  | nil => cases h
  | cons e rest ih =>
      obtain ⟨k, w⟩ := e
      by_cases hk : k = n
      · cases i with
        | zero =>
            cases h
            exact absurd hk hm
        | succ i => simpa [insert, hk] using h
      · cases i with
        | zero => simpa [insert, hk] using h
        | succ i =>
            rw [List.getElem?_cons_succ] at h
            simpa [insert, hk] using ih h

/-- Of two values stored under a name one after the other, the second is kept. -/
theorem insert_insert (n : String) (u v : α) (entries : List (String × α)) :
    insert n v (insert n u entries) = insert n v entries := by
  induction entries with
  | nil => simp [insert]
  | cons e rest ih =>
      obtain ⟨m, w⟩ := e
      by_cases hm : m = n
      · simp [insert, hm]
      · simp [insert, hm, ih]

/-- Storing the value that a name has changes nothing. -/
theorem insert_of_find? {n : String} {v : α} {entries : List (String × α)} (h : find? n entries = some v) :
    insert n v entries = entries := by
  induction entries with
  | nil => cases h
  | cons e rest ih =>
      obtain ⟨m, w⟩ := e
      by_cases hm : m = n
      · simp only [find?, hm, if_true, Option.some.injEq] at h
        simp [insert, hm, h]
      · simp only [find?, hm, if_false] at h
        simp [insert, hm, ih h]

theorem insert_of_not_mem {n : String} (v : α) {entries : List (String × α)} (h : n ∉ entries.map Prod.fst) :
    insert n v entries = entries ++ [(n, v)] := by
  induction entries with
  | nil => rfl
  | cons e rest ih =>
      obtain ⟨m, u⟩ := e
      rw [List.map_cons, List.mem_cons, not_or] at h
      simp [insert, Ne.symm h.1, ih h.2]

end Entries

namespace Table

theorem get?_eq_some {t : Table α} {n : String} {v : α} : t.get? n = some v ↔ (n, v) ∈ t.entries :=
  ⟨Entries.mem_of_find?, Entries.find?_of_mem t.nodup⟩

theorem contains_iff {t : Table α} {n : String} : t.contains n ↔ ∃ v, t.get? n = some v := Option.isSome_iff_exists

theorem contains_iff_mem_names {t : Table α} {n : String} : t.contains n ↔ n ∈ t.names :=
  Entries.isSome_find?

theorem names_map (f : α → β) (t : Table α) : (t.map f).names = t.names := by
  rw [names, map, List.map_map]
  rfl

theorem get?_map (f : α → β) (t : Table α) (n : String) : (t.map f).get? n = (t.get? n).map f :=
  Entries.find?_map f n t.entries

theorem get?_insert (t : Table α) (name : String) (value : α) (n : String) :
    (t.insert name value).get? n = if n = name then some value else t.get? n :=
  Entries.find?_insert name value t.entries n

theorem entries_insert (t : Table α) {n : String} (v : α) (h : ¬ t.contains n) :
    (t.insert n v).entries = t.entries ++ [(n, v)] :=
  Entries.insert_of_not_mem v fun hmem => h (contains_iff_mem_names.mpr hmem)

/-- Values stored under names that are there leave all names where they are. -/
theorem names_insertAll (t : Table α) {entries : List (String × α)} (h : entries.map Prod.fst ⊆ t.names) :
    (t.insertAll entries).names = t.names := by
  induction entries generalizing t with
  | nil => rfl
  | cons e rest ih =>
      obtain ⟨m, v⟩ := e
      obtain ⟨hm, hrest⟩ := List.cons_subset.mp h
      have hinsert : (t.insert m v).names = t.names := Entries.names_insert v hm
      have hstep : t.insertAll ((m, v) :: rest) = (t.insert m v).insertAll rest := rfl
      rw [hstep, ih _ (hinsert ▸ hrest), hinsert]

/-- Of values with distinct names each is stored under its name. -/
theorem get?_insertAll (t : Table α) {entries : List (String × α)} (h : (entries.map Prod.fst).Nodup) (n : String) :
    (t.insertAll entries).get? n = (Entries.find? n entries).or (t.get? n) := by
  induction entries generalizing t with
  | nil => rfl
  | cons e rest ih =>
      obtain ⟨m, v⟩ := e
      rw [List.map_cons, List.nodup_cons] at h
      have hstep : t.insertAll ((m, v) :: rest) = (t.insert m v).insertAll rest := rfl
      rw [hstep, ih _ h.2, get?_insert]
      by_cases hm : m = n
      · subst hm
        rw [Entries.find?_eq_none.mpr h.1]
        simp [Entries.find?]
      · simp [Entries.find?, hm, Ne.symm hm]

end Table

end MetricFormula
