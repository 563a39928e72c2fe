import Mathlib.Data.List.Nodup
import HtmlDeps.Build.Index
import HtmlDeps.Proofs.Table

/-!
# The two directions of the index

Fragments are added to an index one after the other, and an addition may fail.  After that the table of
importers is the exact inverse of the tables of imports: under each URL it lists the fragments in the order
in which they were added, each as often as it imports the URL (`mirrors_afterAdds`).

This is `DepsIndex.add`.
-/

namespace HtmlDeps.Index

variable {i i' : Index} {fragment u : Text} {d : Deps} {x : Text × Deps} {xs : List (Text × Deps)}

/-! ### One addition -/

theorem getD_enter (t : Table Text (List Text)) (fragment url u : Text) :
    ((enter fragment t url).get? u).getD [] =
      (t.get? u).getD [] ++ if url = u then [fragment] else [] := by
  rw [enter, Table.get?_put]
  split
  · rename_i heq
    rw [heq, Option.getD_some]
  · rw [List.append_nil]

/-- A fragment is entered under a URL as often as it imports it. -/
theorem getD_foldl_enter (t : Table Text (List Text)) (fragment : Text) (urls : List Text) (u : Text) :
    ((urls.foldl (enter fragment) t).get? u).getD [] =
      (t.get? u).getD [] ++ List.replicate (urls.count u) fragment := by
  induction urls generalizing t with
  | nil => exact (List.append_nil _).symm
  | cons url urls ih =>
    rw [List.foldl_cons, ih, getD_enter, List.append_assoc, List.count_cons]
    by_cases h : url = u
    · simp [h, List.replicate_succ]
    · simp [h]

theorem has_foldl_enter (t : Table Text (List Text)) (fragment : Text) (urls : List Text) (u : Text) :
    (urls.foldl (enter fragment) t).has u ↔ t.has u ∨ u ∈ urls := by
  induction urls generalizing t with
  | nil => simp
  | cons url urls ih =>
    have henter : (enter fragment t url).has u ↔ t.has u ∨ url = u := by
      rw [enter, Table.has, Table.get?_put]
      split
      · rename_i heq
        simp [heq]
      · rename_i hne
        exact (or_iff_left hne).symm
    rw [List.foldl_cons, ih, henter, or_assoc, List.mem_cons, eq_comm (a := url)]

/-- A fragment that is added is a new one. -/
theorem add_eq_ok (h : i.add fragment d = .ok i') : i.deps.get? fragment = none ∧
    i' = ⟨d.imports.foldl (enter fragment) i.importers, i.imports.put fragment d.imports,
      i.deps.put fragment d⟩ := by
  unfold add at h
  split at h
  · cases h
  · rename_i hnew
    exact ⟨Option.not_isSome_iff_eq_none.1 hnew, (Except.ok.inj h).symm⟩

theorem add_eq_error_iff {e : FragmentFault} : i.add fragment d = .error e ↔
    fragment ∈ i.deps.keys ∧ e = ⟨fragment, "Fragment already present in dependency index"⟩ := by
  unfold add
  rw [Table.mem_keys_iff]
  split
  · rename_i hold
    rw [Except.error.injEq, eq_comm (a := e)]
    exact (and_iff_right hold).symm
  · rename_i hnew
    constructor
    · intro h
      cases h
    · rintro ⟨hold, -⟩
      exact absurd hold hnew

/-- A fragment that is entered comes last. -/
theorem keys_add (h : i.add fragment d = .ok i') : i'.deps.keys = i.deps.keys ++ [fragment] := by
  obtain ⟨hnew, rfl⟩ := add_eq_ok h
  rw [Table.put_of_get?_eq_none d hnew]
  exact List.map_append

/-! ### Additions one after the other -/

/-- The index after an addition, and why it failed, if it did. -/
def tryAdd (i : Index) (x : Text × Deps) : Index × Option FragmentFault :=
  match i.add x.1 x.2 with
  | .ok i' => (i', none)
  | .error e => (i, some e)

/-- An addition table by table, where what was written before a refusal stays written. -/
def addInSteps (i : Index) (x : Text × Deps) : Index × Option FragmentFault :=
  if i.deps.has x.1 then (i, some ⟨x.1, "Fragment already present in dependency index"⟩)
  else
    let i := { i with deps := i.deps.put x.1 x.2 }
    let i := { i with imports := i.imports.put x.1 x.2.imports }
    ({ i with importers := x.2.imports.foldl (enter x.1) i.importers }, none)

/-- The index after additions, from the beginning. -/
def afterAdds (xs : List (Text × Deps)) : Index := xs.foldl (fun i x => (i.tryAdd x).1) empty

/-- The additions that succeed, one after the other. -/
def addedTo (i : Index) : List (Text × Deps) → List (Text × Deps)
  | [] => []
  | x :: xs =>
    match i.tryAdd x with
    | (i', none) => x :: addedTo i' xs
    | (i', some _) => addedTo i' xs

theorem tryAdd_cases (i : Index) (x : Text × Deps) :
    (∃ i', i.add x.1 x.2 = .ok i' ∧ i.tryAdd x = (i', none)) ∨
      ∃ e, i.add x.1 x.2 = .error e ∧ i.tryAdd x = (i, some e) := by
  unfold tryAdd
  cases h : i.add x.1 x.2 with
  | ok i' => exact .inl ⟨i', rfl, rfl⟩
  | error e => exact .inr ⟨e, rfl, rfl⟩

theorem tryAdd_refused_iff (i : Index) (x : Text × Deps) (e : FragmentFault) : (i.tryAdd x).2 = some e ↔
    x.1 ∈ i.deps.keys ∧ e = ⟨x.1, "Fragment already present in dependency index"⟩ := by
  rw [← add_eq_error_iff (d := x.2)]
  rcases tryAdd_cases i x with ⟨i', h, htry⟩ | ⟨e', h, htry⟩ <;> rw [h, htry] <;> simp

theorem tryAdd_of_refused {e : FragmentFault} (h : (i.tryAdd x).2 = some e) : (i.tryAdd x).1 = i := by
  rcases tryAdd_cases i x with ⟨i', -, htry⟩ | ⟨e', -, htry⟩
  · rw [htry] at h
    cases h
  · rw [htry]

theorem tryAdd_eq_addInSteps (i : Index) (x : Text × Deps) : i.tryAdd x = i.addInSteps x := by
  unfold tryAdd addInSteps add
  split <;> rename_i h <;> split at h <;> cases h
  · rename_i hnew
    rw [if_neg hnew]
  · rename_i hold
    rw [if_pos hold]

/-- The tables of an index tell the same of the fragments that were added. -/
structure Mirrors (i : Index) (ys : List (Text × Deps)) : Prop where
  -- Under a URL stand the fragments in the order in which they were added, each as often as it
  -- imports the URL.
  importers : ∀ u, (i.importers.get? u).getD [] =
    ys.flatMap fun y => List.replicate (y.2.imports.count u) y.1
  imported : ∀ u, i.importers.has u ↔ ∃ y ∈ ys, u ∈ y.2.imports
  deps : i.deps = ys
  distinct : i.deps.keys.Nodup
  imports : ∀ f, i.imports.get? f = (i.deps.get? f).map (·.imports)
  keys : i.imports.keys = i.deps.keys

theorem mirrors_empty : Mirrors empty [] where
  importers _ := rfl
  imported _ := iff_of_false nofun nofun
  deps := rfl
  distinct := .nil
  imports _ := rfl
  keys := rfl

theorem Mirrors.add {ys : List (Text × Deps)} (h : Mirrors i ys) (hadd : i.add fragment d = .ok i') :
    Mirrors i' (ys ++ [(fragment, d)]) := by
  have hkeys := keys_add hadd
  obtain ⟨hnew, rfl⟩ := add_eq_ok hadd
  have hnot : fragment ∉ i.deps.keys := by
    rw [Table.mem_keys_iff, hnew]
    nofun
  constructor
  · intro u
    rw [getD_foldl_enter, h.importers, List.flatMap_append, List.flatMap_singleton]
  · intro u
    rw [has_foldl_enter, h.imported]
    simp [or_and_right, exists_or]
  · change i.deps.put fragment d = ys ++ [(fragment, d)]
    rw [Table.put_of_get?_eq_none d hnew, h.deps]
  · rw [hkeys, ← List.concat_eq_append]
    exact List.Nodup.concat hnot h.distinct
  · intro f
    rw [Table.get?_put, Table.get?_put, h.imports]
    split <;> rfl
  · rw [hkeys, Table.keys_put, h.keys, if_neg hnot]

theorem Mirrors.foldl {ys : List (Text × Deps)} (h : Mirrors i ys) (xs : List (Text × Deps)) :
    Mirrors (xs.foldl (fun i x => (i.tryAdd x).1) i) (ys ++ i.addedTo xs) := by
  induction xs generalizing i ys with
  | nil =>
    rw [addedTo, List.append_nil]
    exact h
  | cons x xs ih =>
    rw [List.foldl_cons, addedTo]
    rcases tryAdd_cases i x with ⟨i', hadd, htry⟩ | ⟨e, -, htry⟩ <;> rw [htry]
    · have hmirrors := ih (h.add hadd)
      rwa [List.append_assoc] at hmirrors
    · exact ih h

/-- **The index is an exact inverse.**  After any additions, the importers of a URL are the fragments whose
additions succeeded, in order and as often as they import it, and the tables of fragments agree.  An
addition fails only for a fragment that is there already, and then it changes nothing. -/
theorem mirrors_afterAdds (xs : List (Text × Deps)) :
    Mirrors (afterAdds xs) (empty.addedTo xs) ∧ ∀ x,
      (afterAdds xs).tryAdd x = (afterAdds xs).addInSteps x ∧ ∀ e,
        (((afterAdds xs).tryAdd x).2 = some e ↔ x.1 ∈ (afterAdds xs).deps.keys ∧
          e = ⟨x.1, "Fragment already present in dependency index"⟩) ∧
        (((afterAdds xs).tryAdd x).2 = some e → ((afterAdds xs).tryAdd x).1 = afterAdds xs) := by
  have hmirrors : Mirrors (afterAdds xs) ([] ++ empty.addedTo xs) := mirrors_empty.foldl xs
  rw [List.nil_append] at hmirrors
  exact ⟨hmirrors, fun x => ⟨tryAdd_eq_addInSteps _ x, fun e => ⟨tryAdd_refused_iff _ x e, tryAdd_of_refused⟩⟩⟩

end HtmlDeps.Index
