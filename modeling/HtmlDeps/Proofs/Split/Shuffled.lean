import Mathlib.Data.List.Perm.Basic
import HtmlDeps.Proofs.Split.Groups

/-!
# Pieces in any order

All files are cut first, with one ledger.  Their pieces are then joined in whatever order they come, and
with whatever separators their paths have by then: a piece is known by its key.  Each file comes out once,
as it would by itself (`Stage.rejoinAll_shuffled`).

This is `rejoin`, which “groups by logical (separator-normalized) path, in any arrival order”.
-/

namespace HtmlDeps

open Text

namespace Stage

variable {sel : Selector} {d : Dissected sel} {f : File} {fs plain : List File}

theorem Run.passed_finish (r : Run) : r.finish.passed = r.passed := by
  unfold Run.finish
  split <;> rfl

/-- Files whose contents have come to other places. -/
def moved (place : File → Path) (fs : List File) : List File :=
  fs.map fun g => ⟨place g, g.contents⟩

/-- Each file of a list has been passed on once, at its own path and as it becomes by itself, and none of
the scripts has. -/
structure Restores (sel : Selector) (files : List File) (r : Run) : Prop where
  fault : r.fault = none
  passed : (r.passed.map .ok).Perm (files.map (alone sel))
  paths : (r.passed.map (·.path)).Perm (files.map (·.path))
  scripts : ∀ g ∈ r.passed, ∀ f ∈ files, g.path.key ∉ (scriptsOf sel f).map (·.path.key)

section

variable {ds : List (Dissected sel)} (hnodup : (ds.map (·.key)).Nodup)
  (hnames : ∀ d ∈ ds, ∀ e ∈ ds, d.key ≠ e.key → d.key ∉ e.scriptKeys)

theorem owner_of_script (hd : d ∈ ds) {j : Text} (hj : j ∈ d.scriptKeys) :
    (Dissected.recordAll Ledger.empty ds).owners.get? j = some d.key := by
  rcases Dissected.get?_owners_cases Ledger.empty ds j with ⟨e, he, hje, howner⟩ | ⟨hnone, -⟩
  · rw [howner]
    by_contra hne
    have hkey : d.key ≠ e.key := fun heq => hne (congrArg some heq.symm)
    exact Dissected.disjoint_scriptKeys hkey j hj hje
  · exact absurd hj (hnone d hd)

include hnames

theorem owner_of_document (hd : d ∈ ds) :
    ((Dissected.recordAll Ledger.empty ds).owners.get? d.key).getD d.key = d.key := by
  rcases Dissected.get?_owners_cases Ledger.empty ds d.key with ⟨e, he, hkey, howner⟩ | ⟨-, howner⟩
  · rw [howner]
    by_contra hne
    exact hnames d hd e he (Ne.symm hne) hkey
  · rw [howner]
    rfl

include hnodup

theorem pending_recordAll {place : File → Path} (hplace : ∀ g, (place g).key = g.path.key)
    (hplain : ∀ f ∈ plain, f.path.key ∉ ds.map (·.key) ∧ ∀ d ∈ ds, f.path.key ∉ d.scriptKeys) :
    Pending (Dissected.recordAll Ledger.empty ds) [] plain
      (ds.map fun d => (d, moved place d.pieces)) := by
  -- Moving a piece leaves its key, and it is by keys that pieces are told apart.
  have hkeys : ∀ d : Dissected sel, (moved place d.pieces).map (·.path.key) =
      d.key :: d.scriptKeys := by
    intro d
    rw [moved, List.map_map, ← d.keys_pieces]
    exact List.map_congr_left fun g _ => hplace g
  constructor
  · intro o ho
    obtain ⟨d, hd, rfl⟩ := List.mem_map.1 ho
    constructor
    · exact Dissected.get?_cuts hnodup hd
    · intro m hm
      have hkey : m.path.key ∈ d.key :: d.scriptKeys := hkeys d ▸ List.mem_map_of_mem hm
      rcases List.mem_cons.1 hkey with hkey | hkey
      · rw [hkey]
        exact owner_of_document hnames hd
      · rw [owner_of_script hd hkey]
        rfl
    · rw [← d.length_pieces, moved, List.length_map]
      exact Nat.zero_add _
    · exact fun _ _ => rfl
    · rw [hkeys, ← d.keys_pieces]
      exact d.nodup_keys
    · intro g hg
      exact .inr ⟨_, List.mem_map_of_mem hg, hplace g, rfl⟩
  · intro o ho
    obtain ⟨d, -, rfl⟩ := List.mem_map.1 ho
    exact List.cons_ne_nil _ _
  · rw [List.map_map]
    exact hnodup
  · intro o ho j hj
    obtain ⟨d, hd, rfl⟩ := List.mem_map.1 ho
    exact owner_of_script hd hj
  · exact fun _ hk => absurd rfl hk
  · intro f hf
    obtain ⟨hkey, hscript⟩ := hplain f hf
    have howner : (Dissected.recordAll Ledger.empty ds).owners.get? f.path.key = none := by
      rcases Dissected.get?_owners_cases Ledger.empty ds f.path.key with ⟨d, hd, hj, -⟩ | ⟨-, h⟩
      · exact absurd hj (hscript d hd)
      · exact h
    rw [howner]
    exact Dissected.get?_cuts_of_not_mem hkey

end

/-- A list of files with its documents, all cut with one ledger. -/
structure Divided (files : List File) (ds : List (Dissected sel)) : Prop where
  documents : ds.map (·.file) = files.filter (·.path.isHtml)
  ledger : (splitAll sel Ledger.empty files).ledger = Dissected.recordAll Ledger.empty ds
  pieces : (splitAll sel Ledger.empty files).passed.Perm
    (files.filter (!·.path.isHtml) ++ ds.flatMap (·.pieces))
  keys : (files.map (·.path.key)).Nodup
  scripts : ∀ d ∈ ds, ∀ f ∈ files, f ≠ d.file → f.path.key ∉ d.scriptKeys

namespace Divided

variable {files : List File} {ds : List (Dissected sel)} {place : File → Path}

theorem mem_files (h : Divided files ds) (hd : d ∈ ds) : d.file ∈ files := by
  have hmem : d.file ∈ ds.map (·.file) := List.mem_map_of_mem hd
  rw [h.documents] at hmem
  exact (List.mem_filter.1 hmem).1

theorem exists_of_html (h : Divided files ds) (hf : f ∈ files) (hp : f.path.isHtml) :
    ∃ d ∈ ds, d.file = f := by
  have hmem : f ∈ files.filter (·.path.isHtml) := List.mem_filter.2 ⟨hf, hp⟩
  rw [← h.documents] at hmem
  exact List.mem_map.1 hmem

theorem nodup_keys (h : Divided files ds) : (ds.map (·.key)).Nodup := by
  have hmap : ds.map (·.key) = (files.filter (·.path.isHtml)).map (·.path.key) := by
    rw [← h.documents, List.map_map]
    rfl
  rw [hmap]
  exact h.keys.sublist (List.filter_sublist.map _)

theorem key_not_mem (h : Divided files ds) :
    ∀ d ∈ ds, ∀ e ∈ ds, d.key ≠ e.key → d.key ∉ e.scriptKeys := by
  intro d hd e he hkey
  exact h.scripts e he d.file (h.mem_files hd) fun heq => hkey (congrArg (·.path.key) heq)

theorem perm_files (h : Divided files ds) :
    (files.filter (!·.path.isHtml) ++ ds.map (·.file)).Perm files := by
  rw [h.documents]
  exact List.perm_append_comm.trans (List.filter_append_perm _ files)

theorem moved_pieces (h : Divided files ds)
    (hstay : ∀ f ∈ files, ¬ f.path.isHtml → place f = f.path) :
    (moved place (splitAll sel Ledger.empty files).passed).Perm
      (files.filter (!·.path.isHtml) ++
        (ds.map fun d => (d, moved place d.pieces)).flatMap (·.2)) := by
  refine (h.pieces.map _).trans (.of_eq ?_)
  rw [List.map_append, List.map_flatMap, List.flatMap_map]
  congr 1
  conv_rhs => rw [← List.map_id (files.filter (!·.path.isHtml))]
  refine List.map_congr_left fun f hf => ?_
  obtain ⟨hf, hp⟩ := List.mem_filter.1 hf
  rw [hstay f hf (by simpa using hp)]
  rfl

theorem pending (h : Divided files ds) (hplace : ∀ g, (place g).key = g.path.key) :
    Pending (Dissected.recordAll Ledger.empty ds) [] (files.filter (!·.path.isHtml))
      (ds.map fun d => (d, moved place d.pieces)) := by
  refine pending_recordAll h.nodup_keys h.key_not_mem hplace ?_
  intro f hf
  obtain ⟨hf, hp⟩ := List.mem_filter.1 hf
  have hne : ∀ d ∈ ds, f ≠ d.file := by
    rintro d - rfl
    simp [d.html] at hp
  constructor
  · intro hkey
    obtain ⟨d, hd, hkey⟩ := List.mem_map.1 hkey
    exact hne d hd (List.inj_on_of_nodup_map h.keys hf (h.mem_files hd) hkey.symm)
  · exact fun d hd => h.scripts d hd f hf (hne d hd)

/-- The scripts are called like none of the files. -/
theorem key_not_mem_scriptsOf (h : Divided files ds) {g : File} (hg : g ∈ files) (hf : f ∈ files) :
    g.path.key ∉ (scriptsOf sel f).map (·.path.key) := by
  by_cases hp : f.path.isHtml
  · obtain ⟨d, hd, rfl⟩ := h.exists_of_html hf hp
    rw [scriptsOf_eq]
    by_cases hne : g = d.file
    · have hown := d.nodup_keys
      rw [d.keys_pieces, List.nodup_cons] at hown
      rw [hne]
      exact hown.1
    · exact h.scripts d hd g hg hne
  · rw [scriptsOf, split, if_neg hp]
    exact List.not_mem_nil

theorem restores (h : Divided files ds) (hplace : ∀ g, (place g).key = g.path.key)
    (hstay : ∀ f ∈ files, ¬ f.path.isHtml → place f = f.path)
    (hperm : fs.Perm (moved place (splitAll sel Ledger.empty files).passed)) :
    Restores sel files (rejoinAll sel (splitAll sel Ledger.empty files).ledger fs) := by
  obtain ⟨hfault, hgroups, hpassed⟩ :=
    (h.pending hplace).takeAll (hperm.trans (h.moved_pieces hstay))
  rw [List.map_map] at hpassed
  have hrun : (rejoinAll sel (splitAll sel Ledger.empty files).ledger fs).passed.Perm
      (files.filter (!·.path.isHtml) ++ ds.map (·.joined)) := by
    rw [rejoinAll, h.ledger, Run.passed_finish]
    exact hpassed
  have hpaths : ((rejoinAll sel (splitAll sel Ledger.empty files).ledger fs).passed.map
      (·.path)).Perm (files.map (·.path)) := by
    -- The paths come back as they were: a document is joined under the path that it had.
    refine ((hrun.map _).trans (.of_eq ?_)).trans (h.perm_files.map _)
    rw [List.map_append, List.map_append, List.map_map, List.map_map]
    rfl
  constructor
  · rw [rejoinAll, h.ledger, Run.finish, hfault]
    simp only [hgroups]
    rfl
  · refine ((hrun.map _).trans (.of_eq ?_)).trans (h.perm_files.map _)
    rw [List.map_append, List.map_append, List.map_map, List.map_map]
    congr 1
    · refine List.map_congr_left fun f hf => ?_
      have hp := (List.mem_filter.1 hf).2
      rw [alone, if_neg (by simpa using hp)]
    · refine List.map_congr_left fun d hd => ?_
      exact (alone_eq d.html d.located d.cutOut).symm
  · exact hpaths
  · intro g hg f hf
    obtain ⟨f', hf', hpath⟩ := List.mem_map.1 (hpaths.mem_iff.1 (List.mem_map_of_mem hg))
    rw [← hpath]
    exact h.key_not_mem_scriptsOf hf' hf

end Divided

/-- **Any order.**  Files with different keys, none of which is called like a script of another, are all
cut with one ledger.  Whatever separators the pieces of the documents have in their paths by then, and
in whatever order all pieces come, each file is passed on once, as it becomes by itself, which is what is
passed on in the order in which the pieces were cut. -/
theorem rejoinAll_shuffled {files : List File} (hkeys : (files.map (·.path.key)).Nodup)
    (hnames : ∀ f ∈ files, ∀ g ∈ files, f ≠ g → f.path.key ∉ (scriptsOf sel g).map (·.path.key))
    (hsplit : (splitAll sel Ledger.empty files).fault = none) {place : File → Path}
    (hplace : ∀ g, (place g).key = g.path.key)
    (hstay : ∀ f ∈ files, ¬ f.path.isHtml → place f = f.path) {fs : List File}
    (hperm : fs.Perm (moved place (splitAll sel Ledger.empty files).passed)) :
    Restores sel files (rejoinAll sel (splitAll sel Ledger.empty files).ledger fs) ∧
      (rejoinAll sel (splitAll sel Ledger.empty files).ledger fs).passed.Perm
        (rejoinAll sel (splitAll sel Ledger.empty files).ledger
          (splitAll sel Ledger.empty files).passed).passed := by
  obtain ⟨ds, hdocuments, hledger, hpieces⟩ := splitAll_of_fault_eq_none hsplit
  have h : Divided files ds := by
    refine ⟨hdocuments, hledger, hpieces, hkeys, fun d hd f hf hne => ?_⟩
    have hmem : d.file ∈ files.filter (·.path.isHtml) := hdocuments ▸ List.mem_map_of_mem hd
    rw [← scriptsOf_eq]
    exact hnames f hf d.file (List.mem_filter.1 hmem).1 hne
  have hunmoved : ∀ gs : List File, gs.Perm (moved (·.path) gs) := fun gs =>
    .of_eq (List.map_id gs).symm
  have hrestores := h.restores hplace hstay hperm
  have horiginal := h.restores (fun _ => rfl) (fun _ _ _ => rfl) (hunmoved _)
  refine ⟨hrestores, ?_⟩
  exact (List.map_perm_map_iff fun _ _ => Except.ok.inj).1
    (hrestores.passed.trans horiginal.passed.symm)

/-- Two documents, the second with two scripts, and a file of another kind. -/
def mixed : List File :=
  [⟨"/app/a.html", encode "<script>x</script>"⟩, ⟨"/app/z.js", encode "z"⟩,
    ⟨"/app/b.html", encode "<script>1</script><script>2</script>"⟩]

/-- The pieces come in the opposite order, and one of them with backslashes in its path. -/
theorem restores_mixed : Restores .usual mixed (rejoinAll .usual
    (splitAll .usual Ledger.empty mixed).ledger
    (moved (fun g => if g.path = "/app/a.html" then "/app\\a.html" else g.path)
      (splitAll .usual Ledger.empty mixed).passed).reverse) := by
  have hkeys : (mixed.map (·.path.key)).Nodup := by decide +kernel
  have hnames : ∀ f ∈ mixed, ∀ g ∈ mixed, f ≠ g →
      f.path.key ∉ (scriptsOf .usual g).map (·.path.key) := by decide +kernel
  have hsplit : (splitAll .usual Ledger.empty mixed).fault = none := by decide +kernel
  refine (rejoinAll_shuffled hkeys hnames hsplit ?_ ?_ (List.reverse_perm _)).1
  · intro g
    split
    · rename_i hpath
      rw [hpath]
      decide +kernel
    · rfl
  · decide +kernel

end Stage
end HtmlDeps
