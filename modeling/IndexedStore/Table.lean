/-!
# Tables

A table is a list of pairs in which each key stands once, in the order of first insertion. `set`
replaces a key's value where it stands or adds the pair at the end, and `erase` takes the pair out, so
`find?` after either is the old `find?` but at that key.
-/

namespace IndexedStore

/-- The sum of a quantity over a list. -/
def sumOf {α : Type} (quantity : α → Nat) : List α → Nat
  | [] => 0
  | a :: rest => quantity a + sumOf quantity rest

/-- Pairs of keys and values, each key once. -/
abbrev Table (κ α : Type) := List (κ × α)

namespace Table

variable {κ α : Type} [DecidableEq κ]

def find? (key : κ) : Table κ α → Option α
  | [] => none
  | (k, a) :: rest => if k = key then some a else find? key rest

def contains (key : κ) (t : Table κ α) : Bool := (find? key t).isSome

/-- The table with a value for a key, in place of the one it had. -/
def set (key : κ) (value : α) : Table κ α → Table κ α
  | [] => [(key, value)]
  | (k, a) :: rest => if k = key then (k, value) :: rest else (k, a) :: set key value rest

/-- The table without a key. -/
def erase (key : κ) : Table κ α → Table κ α
  | [] => []
  | (k, a) :: rest => if k = key then rest else (k, a) :: erase key rest

/-- The keys, in order of first insertion. -/
def keys (t : Table κ α) : List κ := t.map (·.1)

@[simp] theorem find?_set (t : Table κ α) (key j : κ) (value : α) :
    find? j (set key value t) = if key = j then some value else find? j t := by
  induction t with
  | nil => simp [set, find?]
  | cons p rest ih =>
    obtain ⟨k, a⟩ := p
    by_cases hk : k = key
    · subst hk
      by_cases hj : k = j <;> simp [set, find?, hj]
    · by_cases hj : k = j
      · subst hj; simp [set, find?, hk, Ne.symm hk]
      · simp [set, find?, hk, hj, ih]

theorem mem_keys_iff {t : Table κ α} {key : κ} : key ∈ keys t ↔ (find? key t).isSome := by
  induction t with
  | nil => simp [keys, find?]
  | cons p rest ih =>
    obtain ⟨k, a⟩ := p
    by_cases hk : k = key
    · simp [keys, find?, hk]
    · simpa [keys, find?, hk, Ne.symm hk] using ih

theorem keys_erase (t : Table κ α) (key : κ) : keys (erase key t) = (keys t).erase key := by
  induction t with
  | nil => rfl
  | cons p rest ih =>
    obtain ⟨k, a⟩ := p
    by_cases hk : k = key
    · simp [keys, erase, hk]
    · simp only [keys] at ih
      simp [keys, erase, hk, ih]

theorem keys_set (t : Table κ α) (key : κ) (value : α) :
    keys (set key value t) = if key ∈ keys t then keys t else keys t ++ [key] := by
  induction t with
  | nil => simp [keys, set]
  | cons p rest ih =>
    obtain ⟨k, a⟩ := p
    by_cases hk : k = key
    · simp [keys, set, hk]
    · simp only [keys] at ih
      by_cases hm : key ∈ rest.map (·.1) <;> simp [keys, set, hk, Ne.symm hk, ih, hm]

end Table

end IndexedStore
