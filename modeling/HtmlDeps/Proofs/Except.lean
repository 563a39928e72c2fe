/-!
# Results that may be errors

What is known once such a result is no error, or once it is one: that of a sequence of two, and those of a list
that is mapped or sifted.
-/

namespace HtmlDeps

variable {α β ε : Type}

theorem exists_of_bind_eq_ok {x : Except ε α} {f : α → Except ε β} {b : β}
    (h : x >>= f = .ok b) : ∃ a, x = .ok a ∧ f a = .ok b := by
  cases x with
  | error e => cases h
  | ok a => exact ⟨a, rfl, h⟩

theorem mapError_eq_ok {δ : Type} {x : Except ε α} {f : ε → δ} {a : α} : x.mapError f = .ok a ↔ x = .ok a := by
  cases x with
  | error e => exact iff_of_false nofun nofun
  | ok b => exact ⟨fun h => congrArg Except.ok (Except.ok.inj h), fun h => congrArg Except.ok (Except.ok.inj h)⟩

/-- What is found for each item of a list. -/
theorem map_eq_of_mapM {f : α → Except ε β} {xs : List α} {ys : List β} (h : xs.mapM f = .ok ys) :
    xs.map f = ys.map .ok := by
  induction xs generalizing ys with
  | nil =>
    obtain rfl := Except.ok.inj h
    rfl
  | cons x xs ih =>
    rw [List.mapM_cons] at h
    obtain ⟨y, hx, h⟩ := exists_of_bind_eq_ok h
    obtain ⟨ys', hxs, h⟩ := exists_of_bind_eq_ok h
    rw [← Except.ok.inj h, List.map_cons, List.map_cons, hx, ih hxs]

theorem map_eq_of_option_mapM {f : α → Except ε β} {x : Option α} {y : Option β} (h : x.mapM f = .ok y) :
    x.toList.map f = y.toList.map .ok := by
  cases x with
  | none =>
    obtain rfl := Except.ok.inj h
    rfl
  | some u =>
    rw [Option.mapM_some] at h
    obtain ⟨v, hu, h⟩ := exists_of_bind_eq_ok h
    rw [← Except.ok.inj h, Option.toList_some, Option.toList_some, List.map_singleton, List.map_singleton, hu]

/-- What a test that does not fail lets through. -/
theorem filterM_eq_ok {p : α → Except ε Bool} {xs ys : List α}
    (h : xs.filterM p = .ok ys) : ys.Sublist xs ∧ ∀ x, x ∈ ys ↔ x ∈ xs ∧ p x = .ok true := by
  -- The list is collected in reverse behind what was collected before.
  have key : ∀ (xs acc zs : List α), xs.filterAuxM p acc = .ok zs → ∃ ys : List α,
      zs = ys.reverse ++ acc ∧ ys.Sublist xs ∧ ∀ x, x ∈ ys ↔ x ∈ xs ∧ p x = .ok true := by
    intro xs
    induction xs with
    | nil =>
      intro acc zs hzs
      obtain rfl := Except.ok.inj hzs
      exact ⟨[], rfl, .slnil, fun x => by simp⟩
    | cons x xs ih =>
      intro acc zs hzs
      obtain ⟨keep, hkeep, hzs⟩ := exists_of_bind_eq_ok hzs
      obtain ⟨ys, hys, hsublist, hmem⟩ := ih _ zs hzs
      cases keep with
      | false =>
        refine ⟨ys, hys, hsublist.cons x, fun y => ?_⟩
        rw [hmem, List.mem_cons]
        refine ⟨fun hy => ⟨.inr hy.1, hy.2⟩, fun ⟨hy, htrue⟩ => ⟨hy.resolve_left ?_, htrue⟩⟩
        rintro rfl
        rw [hkeep] at htrue
        cases htrue
      | true =>
        refine ⟨x :: ys, ?_, hsublist.cons_cons x, fun y => ?_⟩
        · rw [hys, List.reverse_cons, List.append_assoc]
          rfl
        · rw [List.mem_cons, List.mem_cons, hmem]
          refine ⟨fun hy => ?_, fun ⟨hy, htrue⟩ => hy.imp_right fun hy => ⟨hy, htrue⟩⟩
          rcases hy with rfl | hy
          · exact ⟨.inl rfl, hkeep⟩
          · exact ⟨.inr hy.1, hy.2⟩
  obtain ⟨zs, hzs, h⟩ := exists_of_bind_eq_ok h
  obtain rfl := Except.ok.inj h
  obtain ⟨ys, hys, hkept⟩ := key xs [] zs hzs
  rw [List.append_nil] at hys
  rw [hys, List.reverse_reverse]
  exact hkept

end HtmlDeps
