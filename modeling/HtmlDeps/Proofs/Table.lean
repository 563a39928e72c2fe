import HtmlDeps.Table

/-!
# Laws of tables

Of several entries under one key the last counts.  So the laws start with the last element of a list that has
a property, told by what stands in front of it and behind it (`Last`).
-/

namespace HtmlDeps

section

variable {α : Type}

/-- `x` is the last element of `xs` with the property. -/
def Last (p : α → Prop) (xs : List α) (x : α) : Prop :=
  ∃ before after, xs = before ++ x :: after ∧ p x ∧ ∀ y ∈ after, ¬ p y

theorem Last.imp {p q : α → Prop} {xs : List α} {x : α} (hpq : ∀ y, p y ↔ q y) (h : Last p xs x) :
    Last q xs x := by
  obtain ⟨before, after, hxs, hx, hafter⟩ := h
  exact ⟨before, after, hxs, (hpq x).1 hx, fun y hy hq => hafter y hy ((hpq y).2 hq)⟩

variable {p : α → Bool} {xs ys : List α} {x : α}

theorem getLast?_filter_append : ((xs ++ ys).filter p).getLast? =
    (ys.filter p).getLast?.or (xs.filter p).getLast? := by
  rw [List.filter_append, List.getLast?_append]

theorem getLast?_filter_cons : ((x :: xs).filter p).getLast? =
    (xs.filter p).getLast?.or (if p x then some x else none) := by
  rw [← List.singleton_append, getLast?_filter_append, List.filter_cons]
  split <;> rfl

theorem getLast?_filter_eq_none_iff : (xs.filter p).getLast? = none ↔ ∀ y ∈ xs, ¬ p y := by
  rw [List.getLast?_eq_none_iff, List.filter_eq_nil_iff]

theorem getLast?_filter_eq_some_iff : (xs.filter p).getLast? = some x ↔ Last (p · = true) xs x := by
  constructor
  · intro h
    obtain ⟨ys, hys⟩ := List.getLast?_eq_some_iff.1 h
    obtain ⟨front, back, rfl, -, hback⟩ := List.filter_eq_append_iff.1 hys
    obtain ⟨middle, after, rfl, -, hx, hafter⟩ := List.filter_eq_cons_iff.1 hback
    refine ⟨front ++ middle, after, ?_, hx, List.filter_eq_nil_iff.1 hafter⟩
    rw [List.append_assoc]
  · rintro ⟨before, after, rfl, hx, hafter⟩
    rw [getLast?_filter_append, List.filter_cons_of_pos hx, List.filter_eq_nil_iff.2 hafter]
    rfl

end

namespace Table

variable {κ α : Type} [DecidableEq κ]

theorem get?_nil (k : κ) : get? ([] : Table κ α) k = none := rfl

/-- A new key comes last. -/
theorem put_of_get?_eq_none {t : Table κ α} {k : κ} (a : α) (h : get? t k = none) :
    put t k a = t ++ [(k, a)] := by
  induction t with
  | nil => rfl
  | cons e r ih =>
    obtain ⟨k', a'⟩ := e
    by_cases hk : k' = k
    · simp [get?, hk] at h
    · simp only [get?, if_neg hk] at h
      rw [put, if_neg hk, ih h, List.cons_append]

theorem length_put_of_get?_eq_none {t : Table κ α} {k : κ} (a : α) (h : get? t k = none) :
    (put t k a).length = t.length + 1 := by
  rw [put_of_get?_eq_none a h, List.length_append, List.length_singleton]

theorem erase_put (t : Table κ α) (k : κ) (a : α) : erase (put t k a) k = erase t k := by
  induction t with
  | nil => simp [put, erase]
  | cons e r ih =>
    obtain ⟨k', a'⟩ := e
    by_cases hk : k' = k
    · simp [put, erase, hk]
    · simpa [put, erase, hk] using ih

theorem keys_erase (t : Table κ α) (k : κ) : (erase t k).keys = t.keys.filter (· ≠ k) := by
  simp only [keys, erase, List.filter_map]
  rfl

theorem has_put_self (t : Table κ α) (k : κ) (a : α) : has (put t k a) k := by
  simp [has, get?_put]

theorem has_put_of_has {t : Table κ α} {k j : κ} (a : α) (h : has t j) : has (put t k a) j := by
  rw [has, get?_put]
  split
  · rfl
  · exact h

theorem get?_foldl_put_of_not_mem {t : Table κ α} {ks : List κ} (a : α) {j : κ} (h : j ∉ ks) :
    get? (ks.foldl (fun t k => put t k a) t) j = get? t j := by
  induction ks generalizing t with
  | nil => rfl
  | cons k ks ih =>
    rw [List.mem_cons, not_or] at h
    rw [List.foldl_cons, ih h.2, get?_put, if_neg (Ne.symm h.1)]

/-- A value put under several keys stands under each of them. -/
theorem get?_foldl_put_of_mem {t : Table κ α} {ks : List κ} (a : α) {j : κ} (h : j ∈ ks) :
    get? (ks.foldl (fun t k => put t k a) t) j = some a := by
  induction ks generalizing t with
  | nil => cases h
  | cons k ks ih =>
    rw [List.foldl_cons]
    by_cases hj : j ∈ ks
    · exact ih hj
    · rw [get?_foldl_put_of_not_mem a hj, get?_put, if_pos]
      rcases List.mem_cons.1 h with hk | hk
      · exact hk.symm
      · exact absurd hk hj

/-- A key that is there keeps its place, and a new one comes last. -/
theorem keys_put (t : Table κ α) (k : κ) (a : α) :
    (put t k a).keys = if k ∈ t.keys then t.keys else t.keys ++ [k] := by
  induction t with
  | nil => rfl
  | cons e t ih =>
    obtain ⟨k', a'⟩ := e
    by_cases hk : k' = k
    · simp [put, keys, hk]
    · have hput : (put ((k', a') :: t) k a).keys = k' :: (put t k a).keys := by
        rw [put, if_neg hk]
        rfl
      have hmem : k ∈ keys ((k', a') :: t) ↔ k ∈ keys t := by
        simp [keys, Ne.symm hk]
      rw [hput, ih]
      by_cases hin : k ∈ keys t
      · rw [if_pos hin, if_pos (hmem.2 hin)]
        rfl
      · rw [if_neg hin, if_neg fun h => hin (hmem.1 h)]
        rfl

theorem mem_keys_put {t : Table κ α} {k j : κ} {a : α} :
    j ∈ (put t k a).keys ↔ j = k ∨ j ∈ t.keys := by
  rw [keys_put]
  split
  · refine ⟨.inr, ?_⟩
    rintro (rfl | h)
    · assumption
    · exact h
  · rw [List.mem_append, List.mem_singleton, or_comm]

theorem nodup_keys_put {t : Table κ α} (h : t.keys.Nodup) (k : κ) (a : α) :
    (put t k a).keys.Nodup := by
  rw [keys_put]
  split
  · exact h
  · rw [List.nodup_append]
    refine ⟨h, List.pairwise_singleton _ k, ?_⟩
    rintro j hj _ hk rfl
    rw [List.mem_singleton] at hk
    exact absurd (hk ▸ hj) ‹_›

theorem get?_of_mem {t : Table κ α} (hkeys : t.keys.Nodup) {k : κ} {a : α} (h : (k, a) ∈ t) : get? t k = some a := by
  induction t with
  | nil => cases h
  | cons e t ih =>
    obtain ⟨k', a'⟩ := e
    obtain ⟨hnew, hkeys⟩ := List.nodup_cons.1 hkeys
    rcases List.mem_cons.1 h with heq | h
    · cases heq
      simp [get?]
    · have hmem : k ∈ keys t := List.mem_map.2 ⟨(k, a), h, rfl⟩
      have hne : k' ≠ k := fun heq => hnew (heq ▸ hmem)
      rw [get?, if_neg hne, ih hkeys h]

theorem mem_of_mem_put {t : Table κ α} {k : κ} {a : α} {e : κ × α} (h : e ∈ put t k a) :
    e ∈ t ∨ e = (k, a) := by
  induction t with
  | nil => exact .inr (List.mem_singleton.1 h)
  | cons x t ih =>
    obtain ⟨k', a'⟩ := x
    unfold put at h
    split at h
    · rename_i hk
      rcases List.mem_cons.1 h with h | h
      · rw [hk] at h
        exact .inr h
      · exact .inl (List.mem_cons_of_mem _ h)
    · rcases List.mem_cons.1 h with h | h
      · exact .inl (h ▸ List.mem_cons_self)
      · exact (ih h).imp_left (List.mem_cons_of_mem _)

/-! ### Entries put in turn -/

/-- The value that entries have last under a key. -/
def last? (es : List (κ × α)) (k : κ) : Option α := (es.filter (·.1 = k)).getLast?.map (·.2)

theorem last?_cons (e : κ × α) (es : List (κ × α)) (k : κ) :
    last? (e :: es) k = (last? es k).or (if e.1 = k then some e.2 else none) := by
  rw [last?, last?, getLast?_filter_cons, Option.map_or]
  by_cases h : e.1 = k <;> simp [h]

/-- The last entry under a key counts, and before all entries what the table holds. -/
theorem get?_update (t : Table κ α) (es : List (κ × α)) (k : κ) :
    get? (update t es) k = (last? es k).or (get? t k) := by
  induction es generalizing t with
  | nil => rfl
  | cons e es ih =>
    have hput : update t (e :: es) = update (put t e.1 e.2) es := rfl
    rw [hput, ih, get?_put, last?_cons, Option.or_assoc]
    split <;> rfl

theorem nodup_keys_update {t : Table κ α} (h : t.keys.Nodup) (es : List (κ × α)) :
    (update t es).keys.Nodup := by
  induction es generalizing t with
  | nil => exact h
  | cons e es ih => exact ih (nodup_keys_put h e.1 e.2)

/-- Where no key stands twice, the last entry under a key is the only one. -/
theorem last?_eq_get? {t : Table κ α} (h : t.keys.Nodup) (k : κ) : last? t k = get? t k := by
  induction t with
  | nil => rfl
  | cons e t ih =>
    obtain ⟨hnew, hkeys⟩ := List.nodup_cons.1 h
    rw [last?_cons, ih hkeys, get?]
    split
    · rename_i hk
      have hnone : get? t k = none := by
        rw [← Option.not_isSome_iff_eq_none, ← mem_keys_iff, ← hk]
        exact hnew
      rw [hnone, Option.none_or]
    · exact Option.or_none

theorem get?_ofEntries (es : List (κ × α)) (k : κ) : get? (ofEntries es) k = last? es k :=
  (get?_update [] es k).trans Option.or_none

theorem last?_map {β : Type} (g : α → β) (es : List (κ × α)) (k : κ) :
    last? (es.map fun e => (e.1, g e.2)) k = (last? es k).map g := by
  induction es with
  | nil => rfl
  | cons e es ih =>
    rw [List.map_cons, last?_cons, last?_cons, ih, Option.map_or]
    split <;> rfl

theorem nodup_keys_ofEntries (es : List (κ × α)) : (ofEntries es).keys.Nodup :=
  nodup_keys_update (t := []) List.nodup_nil es

/-- Of entries that items give, the last one under a key is that of the last item with this key. -/
theorem last?_filterMap {β : Type} (key : β → Option κ) (value : β → α) (xs : List β) (k : κ) :
    last? (xs.filterMap fun x => (key x).map fun j => (j, value x)) k =
      (xs.filter fun x => key x = some k).getLast?.map value := by
  induction xs with
  | nil => rfl
  | cons x xs ih =>
    rw [getLast?_filter_cons, Option.map_or, ← ih]
    cases hkey : key x with
    | none => simp [hkey]
    | some j =>
      rw [List.filterMap_cons_some (by rw [hkey]; rfl), last?_cons]
      by_cases hj : j = k <;> simp [hj]

end Table
end HtmlDeps
