import JsxPresence.Bytes

namespace JsxPresence

/-- A finite map from texts, with one entry per key. -/
structure Table (α : Type) where
  entries : List (Bytes × α)
deriving DecidableEq

namespace Table

variable {α : Type}

def empty : Table α := ⟨[]⟩

instance : Inhabited (Table α) := ⟨empty⟩

def size (t : Table α) : Nat := t.entries.length

def get? (t : Table α) (key : Bytes) : Option α := t.entries.lookup key

def erase (t : Table α) (key : Bytes) : Table α := ⟨t.entries.filter (fun e => e.1 != key)⟩

/-- Binds a key anew. -/
def insert (t : Table α) (key : Bytes) (value : α) : Table α :=
  ⟨(key, value) :: (t.erase key).entries⟩

theorem get?_insert_self (t : Table α) (key : Bytes) (value : α) :
    (t.insert key value).get? key = some value := by
  simp [get?, insert]

theorem lookup_filter_ne {κ : Type} [BEq κ] [LawfulBEq κ] {k key : κ} (h : k ≠ key)
    (l : List (κ × α)) : (l.filter (fun e => e.1 != key)).lookup k = l.lookup k := by
  induction l with
  | nil => rfl
  | cons e l ih =>
    obtain ⟨a, v⟩ := e
    by_cases ha : a = key
    · have hk : (k == a) = false := by simp [ha, h]
      simp [ha, List.lookup_cons, ih, ha ▸ hk]
    · by_cases hk : k = a
      · simp [hk, ha]
      · have hk : (k == a) = false := by simp [hk]
        simp [ha, List.lookup_cons, hk, ih]

theorem get?_insert_ne (t : Table α) {k key : Bytes} (h : k ≠ key) (value : α) :
    (t.insert key value).get? k = t.get? k := by
  have hk : (k == key) = false := by simp [h]
  simp [get?, insert, erase, List.lookup_cons, hk, lookup_filter_ne h]

theorem get?_erase_ne (t : Table α) {k key : Bytes} (h : k ≠ key) :
    (t.erase key).get? k = t.get? k := lookup_filter_ne h t.entries

end Table

end JsxPresence
