import HtmlDeps.Proofs.Path.Scripts
import HtmlDeps.Proofs.Split.Pipelines

/-!
# Documents cut with one ledger

The first stage cuts a list of files document by document and records every cut on the same ledger.
The keys of the documents are told apart by assumption.  That the keys of their scripts are told apart
follows: a script's key is its document's key with a number behind it, and both can be read back
(`Path.append_scriptEnding_inj`).  So each document finds its own cut on the ledger, and each script its
own document (`Dissected.get?_owners_cases`).
-/

namespace HtmlDeps

open Text Region

/-- A document together with its regions and what was cut out of it. -/
structure Dissected (sel : Selector) where
  file : File
  regions : List Region
  parts : List (Part × Text)
  html : file.path.isHtml
  located : Region.locate sel file.text = .ok regions
  cutOut : partsOf file.path file.text 0 0 regions = .ok parts

namespace Dissected

variable {sel : Selector}

section

variable (d : Dissected sel)

def key : Text := d.file.path.key

def carrier : Bytes := encode (remainder d.file.text 0 d.regions)

def cut : Cut := ⟨d.file.path, d.carrier, d.parts.map (·.1)⟩

/-- The carrier and the scripts. -/
def pieces : List File := piecesOf d.file d.carrier d.parts

def scriptKeys : List Text := d.parts.map (·.1.path.key)

/-- What the untouched pieces are joined to. -/
def joined : File := ⟨d.file.path, encode (splice (decode d.carrier) 0 (fillings d.parts))⟩

theorem keys_pieces : d.pieces.map (·.path.key) = d.key :: d.scriptKeys :=
  keys_piecesOf _ _ _

theorem length_pieces : d.pieces.length = d.cut.parts.length + 1 := by
  simp [pieces, piecesOf, cut]

theorem nodup_keys : (d.pieces.map (·.path.key)).Nodup := nodup_keys_piecesOf d.html d.cutOut _

theorem exists_scriptEnding : ∀ j ∈ d.scriptKeys, ∃ n, j = d.key ++ Path.scriptEnding n := by
  intro j hj
  rw [scriptKeys, keys_partsOf d.html d.cutOut, List.mem_map] at hj
  obtain ⟨n, -, rfl⟩ := hj
  exact ⟨n, rfl⟩

end

variable {d e : Dissected sel}

/-- Different documents have no script key in common. -/
theorem disjoint_scriptKeys (hkey : d.key ≠ e.key) : ∀ j ∈ d.scriptKeys, j ∉ e.scriptKeys := by
  intro j hj hj'
  obtain ⟨m, hm⟩ := d.exists_scriptEnding j hj
  obtain ⟨n, hn⟩ := e.exists_scriptEnding j hj'
  exact hkey (Path.append_scriptEnding_inj (hm.symm.trans hn)).1

/-! ### Cutting -/

theorem cut_eq (d : Dissected sel) (l : Ledger) :
    l.cut sel d.file = .ok (l.record d.cut, d.pieces) := by
  obtain ⟨ps, hps, hcut⟩ := l.cut_of_locate d.html d.located
  obtain rfl := Except.ok.inj (d.cutOut.symm.trans hps)
  exact hcut

/-- A document that can be cut has a dissection. -/
theorem exists_of_cut {f : File} (hp : f.path.isHtml) {l l' : Ledger} {fs : List File}
    (h : l.cut sel f = .ok (l', fs)) :
    ∃ d : Dissected sel, d.file = f ∧ l' = l.record d.cut ∧ fs = d.pieces := by
  cases hrs : Region.locate sel f.text with
  | error e => simp [Ledger.cut, hrs] at h
  | ok rs =>
    obtain ⟨ps, hps⟩ := exists_partsOf hp f.text 0 0 rs
    have hcut := (Dissected.mk f rs ps hp hrs hps).cut_eq l
    obtain ⟨hledger, hpieces⟩ := Prod.mk.inj (Except.ok.inj (h.symm.trans hcut))
    exact ⟨⟨f, rs, ps, hp, hrs, hps⟩, rfl, hledger, hpieces⟩

/-- The ledger with the cuts of several documents. -/
def recordAll (l : Ledger) (ds : List (Dissected sel)) : Ledger :=
  ds.foldl (fun l d => l.record d.cut) l

theorem get?_cuts_of_not_mem {l : Ledger} {ds : List (Dissected sel)} {k : Text}
    (h : k ∉ ds.map (·.key)) : (recordAll l ds).cuts.get? k = l.cuts.get? k := by
  induction ds generalizing l with
  | nil => rfl
  | cons d ds ih =>
    rw [List.map_cons, List.mem_cons, not_or] at h
    rw [recordAll, List.foldl_cons, ← recordAll, ih h.2]
    exact (Table.get?_put _ _ _ _).trans (if_neg (Ne.symm h.1))

theorem get?_cuts {l : Ledger} {ds : List (Dissected sel)} (hnodup : (ds.map (·.key)).Nodup)
    (hd : d ∈ ds) : (recordAll l ds).cuts.get? d.key = some d.cut := by
  induction ds generalizing l with
  | nil => cases hd
  | cons e ds ih =>
    rw [List.map_cons, List.nodup_cons] at hnodup
    rw [recordAll, List.foldl_cons, ← recordAll]
    rcases List.mem_cons.1 hd with rfl | hd
    · rw [get?_cuts_of_not_mem hnodup.1]
      exact Ledger.get?_cuts_record l d.cut
    · exact ih hnodup.2 hd

theorem owners_record (l : Ledger) (d : Dissected sel) :
    (l.record d.cut).owners = d.scriptKeys.foldl (fun t k => Table.put t k d.key) l.owners := by
  rw [Ledger.owners_record, cut, List.map_map]
  rfl

/-- A key leads to a document of which it is a script, if there is one. -/
theorem get?_owners_cases (l : Ledger) (ds : List (Dissected sel)) (j : Text) :
    (∃ d ∈ ds, j ∈ d.scriptKeys ∧ (recordAll l ds).owners.get? j = some d.key) ∨
      (∀ d ∈ ds, j ∉ d.scriptKeys) ∧ (recordAll l ds).owners.get? j = l.owners.get? j := by
  induction ds generalizing l with
  | nil => exact .inr ⟨fun d hd => absurd hd List.not_mem_nil, rfl⟩
  | cons e ds ih =>
    rw [recordAll, List.foldl_cons, ← recordAll]
    rcases ih (l.record e.cut) with ⟨d, hd, hj, howner⟩ | ⟨hnone, howner⟩
    · exact .inl ⟨d, List.mem_cons_of_mem e hd, hj, howner⟩
    · rw [owners_record] at howner
      by_cases hj : j ∈ e.scriptKeys
      · rw [Table.get?_foldl_put_of_mem _ hj] at howner
        exact .inl ⟨e, List.mem_cons_self, hj, howner⟩
      · rw [Table.get?_foldl_put_of_not_mem _ hj] at howner
        exact .inr ⟨List.forall_mem_cons.2 ⟨hj, hnone⟩, howner⟩

end Dissected

namespace Stage

variable {sel : Selector}

/-- The scripts that are cut out of a file. -/
def scriptsOf (sel : Selector) (f : File) : List File :=
  match split sel Ledger.empty f with
  | .error _ => []
  | .ok (_, pieces) => pieces.tail

theorem scriptsOf_eq (d : Dissected sel) :
    (scriptsOf sel d.file).map (·.path.key) = d.scriptKeys := by
  have hkeys := congrArg List.tail d.keys_pieces
  rw [scriptsOf, split, if_pos d.html, d.cut_eq, List.map_tail]
  exact hkeys

/-- The first stage passes on the pieces of the documents and the other files, with every cut on the
ledger. -/
theorem splitAll_of_fault_eq_none {l : Ledger} {files : List File}
    (h : (splitAll sel l files).fault = none) :
    ∃ ds : List (Dissected sel), ds.map (·.file) = files.filter (·.path.isHtml) ∧
      (splitAll sel l files).ledger = Dissected.recordAll l ds ∧
      (splitAll sel l files).passed.Perm
        (files.filter (!·.path.isHtml) ++ ds.flatMap (·.pieces)) := by
  induction files generalizing l with
  | nil => exact ⟨[], rfl, rfl, .refl _⟩
  | cons f files ih =>
    by_cases hp : f.path.isHtml
    · cases hcut : l.cut sel f with
      | error e => simp [splitAll, split, hp, hcut] at h
      | ok cut =>
        obtain ⟨l', fs⟩ := cut
        obtain ⟨d, rfl, rfl, rfl⟩ := Dissected.exists_of_cut hp hcut
        simp only [splitAll, split, if_pos hp, hcut] at h ⊢
        obtain ⟨ds, hfiles, hledger, hpassed⟩ := ih h
        refine ⟨d :: ds, ?_, hledger, ?_⟩
        · rw [List.map_cons, hfiles, List.filter_cons, if_pos hp]
        · rw [List.filter_cons, if_neg (by simp [hp]), List.flatMap_cons]
          refine (hpassed.append_left _).trans ?_
          exact List.perm_append_comm_assoc _ _ _
    · simp only [splitAll, split, if_neg hp] at h ⊢
      obtain ⟨ds, hfiles, hledger, hpassed⟩ := ih h
      refine ⟨ds, ?_, hledger, ?_⟩
      · rw [List.filter_cons, if_neg hp, hfiles]
      · rw [List.filter_cons, if_pos (by simp [hp])]
        exact hpassed.cons f

end Stage
end HtmlDeps
