/-!
Finite tables that keep their keys in the order in which they first came. The view of a table is
`get?`: `get?_set` says what one change does to it.
-/

namespace Galley

structure Table (κ ν : Type) where
  entries : List (κ × ν) := []
  deriving DecidableEq, Repr

namespace Table

variable {κ ν : Type} [DecidableEq κ]

def find (k : κ) : List (κ × ν) → Option ν
  | [] => none
  | (k', v) :: more => if k = k' then some v else find k more

def put (k : κ) (v : ν) : List (κ × ν) → List (κ × ν)
  | [] => [(k, v)]
  | (k', w) :: more => if k = k' then (k', v) :: more else (k', w) :: put k v more

def empty : Table κ ν := {}

def get? (t : Table κ ν) (k : κ) : Option ν := find k t.entries

/-- A new key goes to the end; a known one keeps its place. -/
def set (t : Table κ ν) (k : κ) (v : ν) : Table κ ν := ⟨put k v t.entries⟩

def contains (t : Table κ ν) (k : κ) : Bool := (t.get? k).isSome

def keys (t : Table κ ν) : List κ := t.entries.map (·.1)

def size (t : Table κ ν) : Nat := t.entries.length

def ofList (entries : List (κ × ν)) : Table κ ν :=
  entries.foldl (fun t e => t.set e.1 e.2) empty

omit [DecidableEq κ] in
@[simp] theorem entries_empty : (empty : Table κ ν).entries = [] := rfl

@[simp] theorem get?_empty (k : κ) : (empty : Table κ ν).get? k = none := rfl

theorem find_put (k j : κ) (v : ν) (entries : List (κ × ν)) :
    find j (put k v entries) = if j = k then some v else find j entries := by
  induction entries with
  | nil => simp [put, find]
  | cons e more ih =>
    obtain ⟨k', w⟩ := e
    by_cases hk : k = k'
    · subst hk
      by_cases hj : j = k <;> simp [put, find, hj]
    · by_cases hj : j = k'
      · subst hj
        simp [put, find, hk, Ne.symm hk]
      · simp [put, find, hk, hj, ih]

theorem find_of_not_mem {k : κ} {entries : List (κ × ν)} (h : k ∉ entries.map (·.1)) :
    find k entries = none := by
  induction entries with
  | nil => rfl
  | cons e more ih =>
    rw [List.map_cons, List.mem_cons, not_or] at h
    rw [find, if_neg h.1, ih h.2]

theorem get?_of_not_mem {t : Table κ ν} {k : κ} (h : k ∉ t.keys) : t.get? k = none :=
  find_of_not_mem h

/-- A change is seen at its own key and nowhere else. -/
theorem get?_set (t : Table κ ν) (k j : κ) (v : ν) :
    (t.set k v).get? j = if j = k then some v else t.get? j :=
  find_put k j v t.entries

theorem keys_put (k : κ) (v : ν) (entries : List (κ × ν)) :
    (put k v entries).map (·.1) =
      if k ∈ entries.map (·.1) then entries.map (·.1) else entries.map (·.1) ++ [k] := by
  induction entries with
  | nil => simp [put]
  | cons e more ih =>
    obtain ⟨k', w⟩ := e
    by_cases hk : k = k'
    · simp [put, hk]
    · by_cases hm : k ∈ more.map (·.1)
      · simp [put, hk, ih, hm]
      · simp [put, hk, ih, hm]

theorem keys_set (t : Table κ ν) (k : κ) (v : ν) :
    (t.set k v).keys = if k ∈ t.keys then t.keys else t.keys ++ [k] :=
  keys_put k v t.entries

end Table

end Galley
