/-!
# Tables

A table gives at most one value to a key. It is kept as a list of pairs without order that anyone
may rely on; what is shown to the outside is sorted where it is shown.
-/

namespace ElmLint

structure Table (κ α : Type) where
  entries : List (κ × α)
  deriving Repr

namespace Table

variable {κ α β : Type} [DecidableEq κ]

def empty : Table κ α := ⟨[]⟩

instance : Inhabited (Table κ α) := ⟨empty⟩

def get? (t : Table κ α) (key : κ) : Option α := (t.entries.find? (·.1 = key)).map (·.2)

def has (t : Table κ α) (key : κ) : Bool := (t.get? key).isSome

def erase (t : Table κ α) (key : κ) : Table κ α := ⟨t.entries.filter (·.1 ≠ key)⟩

def put (t : Table κ α) (key : κ) (value : α) : Table κ α := ⟨(key, value) :: (t.erase key).entries⟩

def keys (t : Table κ α) : List κ := t.entries.map (·.1)

def mapValues (t : Table κ α) (f : κ → α → β) : Table κ β :=
  ⟨t.entries.map fun (key, value) => (key, f key value)⟩

def size (t : Table κ α) : Nat := t.entries.length

@[simp] theorem get?_empty (key : κ) : (empty : Table κ α).get? key = none := rfl

theorem get?_of_notMem_keys {t : Table κ α} {key : κ} (h : key ∉ t.keys) : t.get? key = none := by
  rw [get?, List.find?_eq_none.mpr]
  · rfl
  · intro entry he heq
    exact h (List.mem_map.mpr ⟨entry, he, of_decide_eq_true heq⟩)

theorem get?_erase (t : Table κ α) (key other : κ) :
    (t.erase key).get? other = if other = key then none else t.get? other := by
  obtain ⟨entries⟩ := t
  induction entries with
  | nil => simp [erase, get?]
  | cons entry entries ih =>
    obtain ⟨k, v⟩ := entry
    simp only [erase, get?] at ih ⊢
    by_cases hk : k = key <;> by_cases ho : k = other <;> by_cases h : other = key <;>
      simp_all

theorem get?_put (t : Table κ α) (key other : κ) (value : α) :
    (t.put key value).get? other = if other = key then some value else t.get? other := by
  by_cases h : other = key
  · simp [put, get?, h]
  · have := get?_erase t key other
    simp only [put, get?, List.find?_cons] at this ⊢
    simp [Ne.symm h, this, h]

theorem get?_mapValues (t : Table κ α) (f : κ → α → β) (key : κ) :
    (t.mapValues f).get? key = (t.get? key).map (f key) := by
  obtain ⟨entries⟩ := t
  induction entries with
  | nil => rfl
  | cons entry entries ih =>
    obtain ⟨k, v⟩ := entry
    simp only [mapValues, get?, List.map_cons, List.find?_cons] at ih ⊢
    by_cases hk : k = key <;> simp_all

end Table

end ElmLint
