/-! # Finite tables

A `Table κ α` is a finite map kept as a list of entries, the entry with the newest key
first.  Scopes, object types, instances and the side table of the analysis all store
their bindings in one.

The proof-facing view is `get?`; the lemmas

* `get?_empty`    `(empty : Table κ α).get? k = none`
* `get?_insert`   `(t.insert k v).get? k' = if k' = k then some v else t.get? k'`
* `keys_insert`   `(t.insert k v).keys = if k ∈ t.keys then t.keys else k :: t.keys`
* `contains_iff`  `t.contains k = true ↔ k ∈ t.keys`

say what each operation does to it. -/

namespace LetLang

/-- A finite map from `κ` to `α`. -/
structure Table (κ α : Type) where
  entries : List (κ × α)

namespace Table

variable {κ α : Type}

/-- The table without entries. -/
def empty : Table κ α := ⟨[]⟩

instance : Inhabited (Table κ α) := ⟨empty⟩

/-- The keys, the newest first. -/
def keys (t : Table κ α) : List κ := t.entries.map (·.1)

/-- Number of entries. -/
def size (t : Table κ α) : Nat := t.entries.length

variable [DecidableEq κ]

/-- The value of the first entry whose key is `k`. -/
@[specialize] def lookup (k : κ) : List (κ × α) → Option α
  | [] => none
  | (k', v) :: rest => if k = k' then some v else lookup k rest

/-- The value stored under `k`, if there is one. -/
@[inline] def get? (t : Table κ α) (k : κ) : Option α := lookup k t.entries

/-- Whether some value is stored under `k`. -/
@[inline] def contains (t : Table κ α) (k : κ) : Bool := (t.get? k).isSome

/-- The entries with `v` in the place of the value under `k`. -/
@[specialize] def replace (k : κ) (v : α) : List (κ × α) → List (κ × α)
  | [] => []
  | (k', v') :: rest => if k = k' then (k, v) :: rest else (k', v') :: replace k v rest

/-- Store `v` under `k`, in the place of an older value if there is one. -/
@[inline] def insert (t : Table κ α) (k : κ) (v : α) : Table κ α :=
  if t.contains k then ⟨replace k v t.entries⟩ else ⟨(k, v) :: t.entries⟩

/-- The table of the given entries; of two with the same key the later one counts. -/
def ofList (entries : List (κ × α)) : Table κ α :=
  entries.foldl (fun t e => t.insert e.1 e.2) empty

/-! ## Laws -/

@[simp] theorem get?_empty (k : κ) : (empty : Table κ α).get? k = none := rfl

private theorem lookup_isSome (k : κ) (l : List (κ × α)) :
    (lookup k l).isSome = true ↔ k ∈ l.map (·.1) := by
  induction l with
  | nil => simp [lookup]
  | cons e rest ih =>
    obtain ⟨a, b⟩ := e
    by_cases ha : k = a <;> simp [lookup, ha, ih]

/-- A table contains exactly its keys. -/
theorem contains_iff (t : Table κ α) (k : κ) : t.contains k = true ↔ k ∈ t.keys :=
  lookup_isSome k t.entries

private theorem lookup_replace (k k' : κ) (v : α) (l : List (κ × α))
    (h : (lookup k l).isSome = true) :
    lookup k' (replace k v l) = if k' = k then some v else lookup k' l := by
  induction l with
  | nil => simp [lookup] at h
  | cons e rest ih =>
    obtain ⟨a, b⟩ := e
    by_cases ha : k = a
    · subst ha
      by_cases hk : k' = k <;> simp [replace, lookup, hk]
    · have hrest : (lookup k rest).isSome = true := by simpa [lookup, ha] using h
      by_cases hk : k' = a
      · simp [replace, lookup, ha, hk, Ne.symm ha]
      · simp [replace, lookup, ha, hk, ih hrest]

/-- A stored value is read back, and every other key keeps its value. -/
theorem get?_insert (t : Table κ α) (k k' : κ) (v : α) :
    (t.insert k v).get? k' = if k' = k then some v else t.get? k' := by
  unfold insert
  split
  · exact lookup_replace k k' v t.entries (by assumption)
  · rfl

private theorem map_fst_replace (k : κ) (v : α) (l : List (κ × α)) :
    (replace k v l).map (·.1) = l.map (·.1) := by
  induction l with
  | nil => rfl
  | cons e rest ih =>
    obtain ⟨a, b⟩ := e
    by_cases ha : k = a <;> simp [replace, ha, ih]

/-- Inserting never moves a key, and a new one comes first. -/
theorem keys_insert (t : Table κ α) (k : κ) (v : α) :
    (t.insert k v).keys = if k ∈ t.keys then t.keys else k :: t.keys := by
  simp only [insert, contains_iff]
  split
  · exact map_fst_replace k v t.entries
  · rfl

end Table

end LetLang
