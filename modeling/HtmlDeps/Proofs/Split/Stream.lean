import HtmlDeps.Proofs.Path.Project
import HtmlDeps.Proofs.Split.RoundTrip

/-!
# Streams of documents that are split and rejoined

The pieces of a document never share a key.  So a document that passes through both stages comes out at
its own path, before the next one is cut, and leaves nothing behind (`Stage.pass_of_fault_eq_none`).
-/

namespace HtmlDeps

namespace Text

variable {g h : Glyph} {sep t : Text} {ts : List Text}

theorem mem_of_mem_join (hg : g ∈ join sep ts) : g ∈ sep ∨ ∃ t ∈ ts, g ∈ t := by
  induction ts with
  | nil => cases hg
  | cons x ts ih =>
    cases ts with
    | nil => exact .inr ⟨x, List.mem_cons_self, by simpa [join, List.intercalate] using hg⟩
    | cons y ts =>
      rw [join_cons_cons, List.mem_append, List.mem_append] at hg
      rcases hg with (hg | hg) | hg
      · exact .inr ⟨x, List.mem_cons_self, hg⟩
      · exact .inl hg
      · rcases ih hg with hg | ⟨t, ht, hg⟩
        · exact .inl hg
        · exact .inr ⟨t, List.mem_cons_of_mem x ht, hg⟩

theorem mem_join_of_mem (ht : t ∈ ts) (hg : g ∈ t) : g ∈ join sep ts := by
  induction ts with
  | nil => cases ht
  | cons x ts ih =>
    cases ts with
    | nil =>
      rw [List.mem_singleton] at ht
      simpa [join, List.intercalate, ← ht] using hg
    | cons y ts =>
      rw [join_cons_cons, List.mem_append, List.mem_append]
      rcases List.mem_cons.1 ht with rfl | ht
      · exact .inl (.inl hg)
      · exact .inr (ih ht)

theorem mem_of_mem_split {x : Text} (hx : x ∈ split h t) (hg : g ∈ x) : g ∈ t := by
  rw [← join_split h t]
  exact mem_join_of_mem hx hg

end Text

/-! ### The ledger after a document -/

namespace Table

variable {κ α : Type} [DecidableEq κ]

theorem get?_foldl_erase (t : Table κ α) (ks : List κ) (j : κ) :
    get? (ks.foldl erase t) j = if j ∈ ks then none else get? t j := by
  induction ks generalizing t with
  | nil => simp
  | cons k ks ih =>
    rw [List.foldl_cons, ih, get?_erase]
    by_cases hj : k = j
    · simp [hj]
    · simp [hj, Ne.symm hj]

theorem eq_nil_of_get?_eq_none {t : Table κ α} (h : ∀ k, get? t k = none) : t = [] := by
  cases t with
  | nil => rfl
  | cons e t =>
    have he := h e.1
    simp [get?] at he

end Table

/-- Where nothing else is cut, forgetting a cut leaves nothing. -/
theorem Ledger.forget_record (c : Cut) : (empty.record c).forget c = empty := by
  have hcuts : ((empty.record c).forget c).cuts = [] := by
    change Table.erase (Table.put [] c.path.key c) c.path.key = []
    rw [Table.erase_put]
    rfl
  have howners : ((empty.record c).forget c).owners = [] := by
    refine Table.eq_nil_of_get?_eq_none fun k => ?_
    have hforget : ((empty.record c).forget c).owners =
        (c.parts.map (·.path.key)).foldl Table.erase (empty.record c).owners := by
      rw [List.foldl_map]
      rfl
    rw [hforget, Table.get?_foldl_erase, owners_record]
    split
    · rfl
    · rename_i hk
      exact Table.get?_foldl_put_of_not_mem _ hk
  calc (empty.record c).forget c
      = ⟨((empty.record c).forget c).cuts, ((empty.record c).forget c).owners⟩ := rfl
    _ = empty := by rw [hcuts, howners]; rfl

namespace Stage

variable {sel : Selector} {f : File} {fs : List File}

/-- What passes through both stages comes out at its path, or is stopped by a fault before it is cut; nothing
stays behind. -/
theorem pass_cases (sel : Selector) (f : File) :
    (∃ e, pass sel Ledger.empty [] f = ⟨[], Ledger.empty, [], some e⟩) ∨
      ∃ g, pass sel Ledger.empty [] f = ⟨[g], Ledger.empty, [], none⟩ ∧ g.path = f.path := by
  by_cases hhtml : f.path.isHtml
  · cases hrs : Region.locate sel f.text with
    | error e =>
      refine .inl ⟨.markup e, ?_⟩
      simp [pass, split, hhtml, Ledger.cut, hrs]
    | ok rs =>
      obtain ⟨ps, hps, hcut⟩ := Ledger.empty.cut_of_locate hhtml hrs
      have hnodup := nodup_keys_piecesOf hhtml hps (Text.encode (remainder f.text 0 rs))
      have htake := takeAll_pieces (l := Ledger.empty) sel (List.Perm.refl _) hnodup rfl [] rfl
      rw [Ledger.forget_record] at htake
      have hpass : pass sel Ledger.empty [] f =
          takeAll sel (Ledger.empty.record ⟨f.path, Text.encode (remainder f.text 0 rs),
            ps.map (·.1)⟩) [] (piecesOf f (Text.encode (remainder f.text 0 rs)) ps) := by
        rw [pass, split, if_pos hhtml, hcut]
      exact .inr ⟨_, hpass.trans htake, rfl⟩
  · refine .inr ⟨f, ?_, rfl⟩
    have htake : take sel Ledger.empty [] f = .ok ⟨Ledger.empty, [], some f⟩ := rfl
    simp only [pass, split, if_neg hhtml, takeAll, htake]
    rfl

/-- What passes through both stages without a fault comes out at its path, and nothing stays
behind. -/
theorem pass_of_fault_eq_none (h : (pass sel Ledger.empty [] f).fault = none) :
    ∃ g, pass sel Ledger.empty [] f = ⟨[g], Ledger.empty, [], none⟩ ∧ g.path = f.path := by
  refine (pass_cases sel f).resolve_left ?_
  rintro ⟨e, he⟩
  rw [he] at h
  cases h

/-- Files come out at their own paths and in order, up to the first fault. -/
theorem paths_passAll (sel : Selector) (fs : List File) :
    (passAll sel Ledger.empty [] fs).passed.map (·.path) <+: fs.map (·.path) ∧
      (passAll sel Ledger.empty [] fs).ledger = Ledger.empty := by
  induction fs with
  | nil => exact ⟨List.prefix_rfl, rfl⟩
  | cons f fs ih =>
    rcases pass_cases sel f with ⟨e, hpass⟩ | ⟨g, hpass, hpath⟩
    · simp [passAll, hpass]
    · obtain ⟨hpaths, hledger⟩ := ih
      simpa [passAll, hpass, hpath, hledger] using hpaths

theorem passAll_of_fault_eq_none (h : (passAll sel Ledger.empty [] fs).fault = none) :
    (passAll sel Ledger.empty [] fs).passed.map (·.path) = fs.map (·.path) ∧
      (passAll sel Ledger.empty [] fs).ledger = Ledger.empty := by
  induction fs with
  | nil => exact ⟨rfl, rfl⟩
  | cons f fs ih =>
    cases hfault : (pass sel Ledger.empty [] f).fault with
    | some e =>
      simp [passAll, hfault] at h
    | none =>
      obtain ⟨g, hpass, hpath⟩ := pass_of_fault_eq_none hfault
      simp only [passAll, hpass] at h ⊢
      obtain ⟨hpaths, hledger⟩ := ih h
      exact ⟨by simp [hpaths, hpath], hledger⟩

end Stage
end HtmlDeps
