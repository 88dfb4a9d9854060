/-
Names bound to values, in the order in which the names first arrived. A frame
of variables, the fields of an object, the methods of a class and a static
scope are all of this form. The view is `get?`: `get?_set` says what one write
does to every look-up, and a write keeps the place of a name that is bound
already (`keys_set`).
-/

namespace Lox

/-- Names with what each is bound to. -/
structure Bindings (α : Type) where
  entries : List (String × α)
deriving Repr

namespace Bindings

variable {α : Type}

/-- No name is bound. -/
def empty : Bindings α := ⟨[]⟩

instance : Inhabited (Bindings α) := ⟨empty⟩

/-- The names, oldest first. -/
def keys (b : Bindings α) : List String := b.entries.map Prod.fst

/-- What `name` is bound to. -/
def get? (b : Bindings α) (name : String) : Option α := b.entries.lookup name

/-- Whether `name` is bound. -/
def contains (b : Bindings α) (name : String) : Bool := (b.get? name).isSome

/-- The entries after a write: a bound name keeps its place, a new one goes last. -/
def write (name : String) (a : α) : List (String × α) → List (String × α)
  | [] => [(name, a)]
  | (k, v) :: rest => if name = k then (k, a) :: rest else (k, v) :: write name a rest

/-- Binds `name` to `a`, whether or not it was bound. -/
def set (b : Bindings α) (name : String) (a : α) : Bindings α := ⟨write name a b.entries⟩

/-- The bindings of a list of pairs, a later pair replacing an earlier one of its name. -/
def ofList (pairs : List (String × α)) : Bindings α :=
  pairs.foldl (fun b p => b.set p.1 p.2) empty

@[simp] theorem get?_empty (name : String) : (empty : Bindings α).get? name = none := rfl

theorem lookup_write (name : String) (a : α) (entries : List (String × α)) (other : String) :
    (write name a entries).lookup other =
      if other = name then some a else entries.lookup other := by
  induction entries with
  | nil =>
    by_cases h : other = name
    · simp [write, h]
    · simp [write, h, List.lookup_cons, beq_eq_false_iff_ne.2 h]
  | cons entry rest ih =>
    obtain ⟨k, v⟩ := entry
    by_cases hk : name = k
    · subst hk
      by_cases h : other = name
      · simp [write, h]
      · simp [write, h, List.lookup_cons, beq_eq_false_iff_ne.2 h]
    · by_cases h : other = k
      · subst h
        have : ¬ other = name := fun e => hk e.symm
        simp [write, hk, this]
      · simp [write, hk, List.lookup_cons, beq_eq_false_iff_ne.2 h, ih]

/-- A look-up after a write sees the written value at that name and the old ones elsewhere. -/
@[simp] theorem get?_set (b : Bindings α) (name : String) (a : α) (other : String) :
    (b.set name a).get? other = if other = name then some a else b.get? other :=
  lookup_write name a b.entries other

@[simp] theorem contains_set (b : Bindings α) (name : String) (a : α) (other : String) :
    (b.set name a).contains other = (decide (other = name) || b.contains other) := by
  by_cases h : other = name <;> simp [contains, h]

theorem contains_iff {b : Bindings α} {name : String} :
    b.contains name = true ↔ ∃ a, b.get? name = some a :=
  Option.isSome_iff_exists

theorem contains_of_get? {b : Bindings α} {name : String} {a : α} (h : b.get? name = some a) :
    b.contains name = true :=
  contains_iff.2 ⟨a, h⟩

theorem write_write (name : String) (a a' : α) (entries : List (String × α)) :
    write name a' (write name a entries) = write name a' entries := by
  induction entries with
  | nil => simp [write]
  | cons entry rest ih =>
    obtain ⟨k, v⟩ := entry
    by_cases hk : name = k
    · simp [write, hk]
    · simp [write, hk, ih]

/-- Of two writes to one name the second one counts. -/
@[simp] theorem set_set (b : Bindings α) (name : String) (a a' : α) :
    (b.set name a).set name a' = b.set name a' :=
  congrArg mk (write_write name a a' b.entries)

/-- A write adds its name at the end unless the name was there. -/
theorem map_fst_write (name : String) (a : α) (entries : List (String × α)) :
    (write name a entries).map Prod.fst =
      if name ∈ entries.map Prod.fst then entries.map Prod.fst
      else entries.map Prod.fst ++ [name] := by
  induction entries with
  | nil => rfl
  | cons entry rest ih =>
    obtain ⟨k, v⟩ := entry
    by_cases hk : name = k
    · simp [write, hk]
    · rw [write, if_neg hk, List.map_cons, ih]
      simp only [List.map_cons, List.mem_cons, hk, false_or]
      split <;> rfl

theorem keys_set (b : Bindings α) (name : String) (a : α) :
    (b.set name a).keys = if name ∈ b.keys then b.keys else b.keys ++ [name] :=
  map_fst_write name a b.entries

theorem mem_keys {b : Bindings α} {name : String} : name ∈ b.keys ↔ b.contains name = true := by
  rw [contains, get?, List.lookup_isSome_iff, keys, List.mem_map]
  simp only [beq_iff_eq, eq_comm (a := name)]

/-! ## Bindings of a list -/

theorem contains_foldl_set (pairs : List (String × α)) (b : Bindings α) (name : String) :
    (pairs.foldl (fun b p => b.set p.1 p.2) b).contains name = true ↔
      name ∈ pairs.map Prod.fst ∨ b.contains name = true := by
  induction pairs generalizing b with
  | nil => simp
  | cons pair rest ih =>
    rw [List.foldl_cons, ih, contains_set, List.map_cons, List.mem_cons]
    simp only [Bool.or_eq_true, decide_eq_true_eq]
    rw [or_left_comm, or_assoc]

/-- A list of pairs binds the names in it. -/
theorem contains_ofList (pairs : List (String × α)) (name : String) :
    (ofList pairs).contains name = true ↔ name ∈ pairs.map Prod.fst := by
  rw [ofList, contains_foldl_set]
  simp [contains]

theorem get?_foldl_set {pairs : List (String × α)} {b : Bindings α} {name : String} {a : α}
    (h : (pairs.foldl (fun b p => b.set p.1 p.2) b).get? name = some a) :
    a ∈ pairs.map Prod.snd ∨ b.get? name = some a := by
  induction pairs generalizing b with
  | nil => exact .inr h
  | cons pair rest ih =>
    rcases ih h with hr | hb
    · exact .inl (List.mem_cons_of_mem _ hr)
    · rw [get?_set] at hb
      split at hb
      · exact .inl (by simp_all)
      · exact .inr hb

theorem get?_ofList {pairs : List (String × α)} {name : String} {a : α}
    (h : (ofList pairs).get? name = some a) : a ∈ pairs.map Prod.snd := by
  rcases get?_foldl_set h with h | h
  · exact h
  · simp at h

/-- Names that are bound to values one by one. -/
theorem get?_ofList_zip {names : List String} {values : List α} {name : String} {a : α}
    (h : (ofList (names.zip values)).get? name = some a) : name ∈ names ∧ a ∈ values := by
  constructor
  · obtain ⟨pair, hpair, rfl⟩ := List.mem_map.1 ((contains_ofList _ name).1 (contains_of_get? h))
    exact (List.of_mem_zip hpair).1
  · obtain ⟨pair, hpair, rfl⟩ := List.mem_map.1 (get?_ofList h)
    exact (List.of_mem_zip hpair).2

end Bindings

end Lox
