/-!
# Tables that keep the order of their keys

A table is a list of entries with at most one entry a key, in the order in which the keys came in.
Putting a value under a key that is there already changes the value and leaves the key in its place.
-/

namespace HtmlDeps

/-- Entries in the order of their keys' arrival. -/
abbrev Table (κ α : Type) := List (κ × α)

namespace Table

variable {κ α : Type} [DecidableEq κ]

def get? (t : Table κ α) (k : κ) : Option α :=
  match t with
  | [] => none
  | (k', a) :: r => if k' = k then some a else get? r k

def has (t : Table κ α) (k : κ) : Bool := (get? t k).isSome

/-- The table with `a` under `k`. -/
def put (t : Table κ α) (k : κ) (a : α) : Table κ α :=
  match t with
  | [] => [(k, a)]
  | (k', a') :: r => if k' = k then (k', a) :: r else (k', a') :: put r k a

def erase (t : Table κ α) (k : κ) : Table κ α := t.filter fun e => e.1 ≠ k

/-- The keys in the order of their arrival. -/
def keys (t : Table κ α) : List κ := t.map (·.1)

/-- A table with each value put in turn, so that the last of several under one key stays. -/
def ofEntries (es : List (κ × α)) : Table κ α := es.foldl (fun t e => put t e.1 e.2) []

/-- The table with the values of another table put in turn. -/
def update (t u : Table κ α) : Table κ α := u.foldl (fun t e => put t e.1 e.2) t

theorem get?_put (t : Table κ α) (k : κ) (a : α) (j : κ) :
    get? (put t k a) j = if k = j then some a else get? t j := by
  induction t with
  | nil => simp [put, get?]
  | cons e r ih =>
    obtain ⟨k', a'⟩ := e
    by_cases h : k' = k
    · subst h
      by_cases hj : k' = j <;> simp [put, get?, hj]
    · by_cases hj : k' = j
      · subst hj
        simp [put, get?, h, Ne.symm h]
      · simp [put, get?, h, hj, ih]

theorem get?_erase (t : Table κ α) (k j : κ) :
    get? (erase t k) j = if k = j then none else get? t j := by
  induction t with
  | nil => simp [erase, get?]
  | cons e r ih =>
    obtain ⟨k', a'⟩ := e
    by_cases h : k' = k
    · subst h
      by_cases hj : k' = j
      · simpa [erase, hj] using ih
      · simpa [erase, get?, hj] using ih
    · by_cases hj : k' = j
      · subst hj
        simp [erase, get?, h, Ne.symm h]
      · have ih' : get? (List.filter (fun e => decide (e.1 ≠ k)) r) j
            = if k = j then none else get? r j := ih
        simp [erase, get?, h, hj] at ih' ⊢
        exact ih'

theorem mem_keys_iff (t : Table κ α) (k : κ) : k ∈ keys t ↔ (get? t k).isSome := by
  induction t with
  | nil => simp [keys, get?]
  | cons e r ih =>
    obtain ⟨k', a'⟩ := e
    by_cases h : k' = k
    · simp [keys, get?, h]
    · have : k ∈ keys ((k', a') :: r) ↔ k ∈ keys r := by simp [keys, Ne.symm h]
      rw [this, ih]
      simp [get?, h]

end Table
end HtmlDeps
