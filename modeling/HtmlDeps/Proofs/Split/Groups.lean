import HtmlDeps.Proofs.Split.Dissected

/-!
# Groups of pieces that fill up together

The pieces of many documents come to the second stage mixed up.  While they come in, each document that
has not been passed on waits for some of them (`Stage.Open`), and these are just the files still to come
(`Stage.Pending`).  Taking one file keeps it so: a file that belongs to no document is passed on, the last
piece of a document has it joined, and any other piece goes into its document's group.  So in the end
every document is complete (`Stage.Pending.takeAll`).
-/

namespace HtmlDeps

open Text

namespace Ledger

variable {sel : Selector} {l l' : Ledger}

theorem get?_cuts_forget (l : Ledger) (c : Cut) (k : Text) :
    (l.forget c).cuts.get? k = if c.path.key = k then none else l.cuts.get? k :=
  Table.get?_erase _ _ _

theorem get?_owners_forget (l : Ledger) (c : Cut) (j : Text) : (l.forget c).owners.get? j =
    if j ∈ c.parts.map (·.path.key) then none else l.owners.get? j := by
  have hforget : (l.forget c).owners =
      (c.parts.map (·.path.key)).foldl Table.erase l.owners := by
    rw [List.foldl_map]
    rfl
  rw [hforget, Table.get?_foldl_erase]
  by_cases hj : j ∈ c.parts.map (·.path.key)
  · exact (if_pos hj).trans (if_pos hj).symm
  · exact (if_neg hj).trans (if_neg hj).symm

theorem eq_forget_of_join {c : Cut} {group : Table Text File} {f : File}
    (h : l.join sel c group = .ok (l', f)) : l' = l.forget c := by
  unfold join at h
  split at h
  · cases h
  · split at h
    · cases h
    · split at h
      · cases h
      · exact (Prod.mk.inj (Except.ok.inj h)).1.symm

theorem join_dissected (l : Ledger) (d : Dissected sel) {group : Table Text File}
    (h : ∀ g ∈ d.pieces, ∃ g', group.get? g.path.key = some g' ∧ g'.contents = g.contents) :
    l.join sel d.cut group = .ok (l.forget d.cut, d.joined) := by
  refine l.join_of_contents (h _ List.mem_cons_self) ?_
  intro x hx
  exact h ⟨x.1.path, encode x.2⟩ (List.mem_cons_of_mem _ (List.mem_map_of_mem hx))

end Ledger

namespace Stage

variable {sel : Selector} {l l' : Ledger} {gs gs' : Groups} {d e : Dissected sel}
  {f m : File} {fs ms plain : List File}

theorem groupOf_put (gs : Groups) (k : Text) (group : Table Text File) (k' : Text) :
    groupOf (gs.put k group) k' = if k = k' then group else groupOf gs k' := by
  simp only [groupOf, Table.get?_put]
  split <;> rfl

theorem groupOf_erase (gs : Groups) (k k' : Text) :
    groupOf (gs.erase k) k' = if k = k' then [] else groupOf gs k' := by
  simp only [groupOf, Table.get?_erase]
  split <;> rfl

/-! ### Documents that wait for pieces -/

/-- A document that is waiting for the pieces `ms`, some of which may have other paths by now, but
with the same keys. -/
structure Open (l : Ledger) (gs : Groups) (d : Dissected sel) (ms : List File) : Prop where
  cut : l.cuts.get? d.key = some d.cut
  owned : ∀ m ∈ ms, (l.owners.get? m.path.key).getD m.path.key = d.key
  count : (groupOf gs d.key).length + ms.length = d.cut.parts.length + 1
  fresh : ∀ m ∈ ms, (groupOf gs d.key).get? m.path.key = none
  nodup : (ms.map (·.path.key)).Nodup
  covered : ∀ g ∈ d.pieces,
    (∃ g', (groupOf gs d.key).get? g.path.key = some g' ∧ g'.contents = g.contents) ∨
      ∃ m ∈ ms, m.path.key = g.path.key ∧ m.contents = g.contents

namespace Open

theorem perm {ms' : List File} (h : Open l gs d ms) (hms : ms.Perm ms') : Open l gs d ms' where
  cut := h.cut
  owned m hm := h.owned m (hms.mem_iff.2 hm)
  count := hms.length_eq ▸ h.count
  fresh m hm := h.fresh m (hms.mem_iff.2 hm)
  nodup := (hms.map _).nodup_iff.1 h.nodup
  covered g hg := by
    refine (h.covered g hg).imp_right ?_
    rintro ⟨m, hm, hg⟩
    exact ⟨m, hms.mem_iff.1 hm, hg⟩

/-- A waiting document does not notice what happens elsewhere. -/
theorem transfer (h : Open l gs d ms) (hcuts : l'.cuts.get? d.key = l.cuts.get? d.key)
    (howners : ∀ m ∈ ms, l'.owners.get? m.path.key = l.owners.get? m.path.key)
    (hgroup : groupOf gs' d.key = groupOf gs d.key) : Open l' gs' d ms where
  cut := hcuts.trans h.cut
  owned m hm := by
    rw [howners m hm]
    exact h.owned m hm
  count := by
    rw [hgroup]
    exact h.count
  fresh := by
    rw [hgroup]
    exact h.fresh
  nodup := h.nodup
  covered := by
    rw [hgroup]
    exact h.covered

/-- A piece that is taken covers itself. -/
theorem covered_put (h : Open l gs d (m :: ms)) : ∀ g ∈ d.pieces,
    (∃ g', ((groupOf gs d.key).put m.path.key m).get? g.path.key = some g' ∧
        g'.contents = g.contents) ∨
      ∃ m' ∈ ms, m'.path.key = g.path.key ∧ m'.contents = g.contents := by
  intro g hg
  rcases h.covered g hg with ⟨g', hget, hcontents⟩ | ⟨m', hm', hkey, hcontents⟩
  · have hne : m.path.key ≠ g.path.key := by
      intro heq
      have hnone := h.fresh m List.mem_cons_self
      rw [heq, hget] at hnone
      cases hnone
    refine .inl ⟨g', ?_, hcontents⟩
    rw [Table.get?_put, if_neg hne, hget]
  · rcases List.mem_cons.1 hm' with rfl | hm'
    · refine .inl ⟨m', ?_, hcontents⟩
      rw [Table.get?_put, if_pos hkey]
    · exact .inr ⟨m', hm', hkey, hcontents⟩

theorem length_put (h : Open l gs d (m :: ms)) : ((groupOf gs d.key).put m.path.key m).length =
    (groupOf gs d.key).length + 1 :=
  Table.length_put_of_get?_eq_none m (h.fresh m List.mem_cons_self)

/-- With the last piece, the document is joined. -/
theorem take_last (h : Open l gs d [m]) :
    take sel l gs m = .ok ⟨l.forget d.cut, gs.erase d.key, some d.joined⟩ := by
  have hcovered : ∀ g ∈ d.pieces, ∃ g',
      ((groupOf gs d.key).put m.path.key m).get? g.path.key = some g' ∧
        g'.contents = g.contents := by
    intro g hg
    rcases h.covered_put g hg with hg | ⟨m', hm', -⟩
    · exact hg
    · cases hm'
  have hhas : ((groupOf gs d.key).put m.path.key m).has d.key := by
    obtain ⟨g', hget, -⟩ := hcovered _ List.mem_cons_self
    exact Option.isSome_of_eq_some hget
  -- Both tests on the group are met: it has the carrier, and as many files as there are pieces.
  have hlength : ((groupOf gs d.key).put m.path.key m).length = d.cut.parts.length + 1 :=
    h.length_put.trans h.count
  rw [take_owned sel gs m h.cut (h.owned m List.mem_cons_self),
    if_pos (by simp only [hlength, hhas, decide_true, Bool.and_self]),
    l.join_dissected d hcovered]
  rfl

/-- Any other piece goes into the group of its document. -/
theorem take_more (h : Open l gs d (m :: ms)) (hne : ms ≠ []) :
    take sel l gs m = .ok ⟨l, gs.put d.key ((groupOf gs d.key).put m.path.key m), none⟩ ∧
      Open l (gs.put d.key ((groupOf gs d.key).put m.path.key m)) d ms := by
  have hcount := h.count
  have hpos := List.length_pos_of_ne_nil hne
  rw [List.length_cons] at hcount
  have hnodup := h.nodup
  rw [List.map_cons, List.nodup_cons] at hnodup
  constructor
  · have hlength : ((groupOf gs d.key).put m.path.key m).length ≠ d.cut.parts.length + 1 := by
      rw [h.length_put]
      omega
    rw [take_owned sel gs m h.cut (h.owned m List.mem_cons_self), if_neg (by simp [hlength])]
  · constructor
    · exact h.cut
    · exact fun m' hm' => h.owned m' (List.mem_cons_of_mem m hm')
    · rw [groupOf_put, if_pos rfl, h.length_put]
      omega
    · intro m' hm'
      have hkey : m.path.key ≠ m'.path.key :=
        fun heq => hnodup.1 (heq ▸ List.mem_map_of_mem hm')
      rw [groupOf_put, if_pos rfl, Table.get?_put, if_neg hkey]
      exact h.fresh m' (List.mem_cons_of_mem m hm')
    · exact hnodup.2
    · rw [groupOf_put, if_pos rfl]
      exact h.covered_put

end Open

/-! ### One file after the other -/

/-- What the second stage waits for: files that belong to no document, and pieces of the documents
that have not been passed on. -/
structure Pending (l : Ledger) (gs : Groups) (plain : List File)
    (os : List (Dissected sel × List File)) : Prop where
  opened : ∀ o ∈ os, Open l gs o.1 o.2
  waiting : ∀ o ∈ os, o.2 ≠ []
  distinct : (os.map (·.1.key)).Nodup
  scripts : ∀ o ∈ os, ∀ j ∈ o.1.scriptKeys, l.owners.get? j = some o.1.key
  groups : ∀ k, gs.get? k ≠ none → k ∈ os.map (·.1.key)
  plain : ∀ f ∈ plain, l.cuts.get? ((l.owners.get? f.path.key).getD f.path.key) = none

namespace Pending

variable {os os' : List (Dissected sel × List File)}

theorem perm {plain' : List File} (h : Pending l gs plain os) (hplain : plain.Perm plain')
    (hos : os.Perm os') : Pending l gs plain' os' where
  opened o ho := h.opened o (hos.mem_iff.2 ho)
  waiting o ho := h.waiting o (hos.mem_iff.2 ho)
  distinct := (hos.map _).nodup_iff.1 h.distinct
  scripts o ho := h.scripts o (hos.mem_iff.2 ho)
  groups k hk := (hos.map _).mem_iff.1 (h.groups k hk)
  plain f hf := h.plain f (hplain.mem_iff.2 hf)

/-- Any piece that is still to come can stand first. -/
theorem front {o : Dissected sel × List File} (h : Pending l gs plain os) (ho : o ∈ os)
    (hm : m ∈ o.2) : ∃ ms os', Pending l gs plain ((o.1, m :: ms) :: os') ∧
      (os.flatMap (·.2)).Perm (m :: (ms ++ os'.flatMap (·.2))) ∧
      (os.map (·.1.joined)).Perm (o.1.joined :: os'.map (·.1.joined)) := by
  obtain ⟨before, behind, rfl⟩ := List.append_of_mem ho
  have hos : (before ++ o :: behind).Perm (o :: (before ++ behind)) := List.perm_middle
  have hms := List.perm_cons_erase hm
  have hfront := h.perm (.refl _) hos
  refine ⟨o.2.erase m, before ++ behind, ?_, ?_, hos.map _⟩
  · constructor
    · refine List.forall_mem_cons.2 ⟨?_, fun x hx => hfront.opened x (List.mem_cons_of_mem o hx)⟩
      exact (hfront.opened o List.mem_cons_self).perm hms
    · refine List.forall_mem_cons.2 ⟨by simp, fun x hx => hfront.waiting x (List.mem_cons_of_mem o hx)⟩
    · exact hfront.distinct
    · exact List.forall_mem_cons.2 (List.forall_mem_cons.1 hfront.scripts)
    · exact hfront.groups
    · exact hfront.plain
  · refine (hos.flatMap_right _).trans ?_
    rw [List.flatMap_cons]
    exact hms.append_right _

theorem take_plain (h : Pending l gs (f :: plain) os) :
    take sel l gs f = .ok ⟨l, gs, some f⟩ ∧ Pending l gs plain os := by
  constructor
  · have hnone := h.plain f List.mem_cons_self
    simp only [take, hnone]
  · exact { h with plain := fun g hg => h.plain g (List.mem_cons_of_mem f hg) }

/-- What is forgotten is owned by the document, and nothing else is. -/
theorem owners_forget (hscripts : ∀ j ∈ d.scriptKeys, l.owners.get? j = some d.key) {j : Text}
    (hj : l.owners.get? j ≠ some d.key) : (l.forget d.cut).owners.get? j = l.owners.get? j := by
  rw [Ledger.get?_owners_forget, if_neg]
  intro hmem
  rw [Dissected.cut, List.map_map] at hmem
  exact hj (hscripts j hmem)

theorem cuts_forget {k : Text} (hk : d.key ≠ k) : (l.forget d.cut).cuts.get? k = l.cuts.get? k := by
  rw [Ledger.get?_cuts_forget]
  exact if_neg hk

theorem take_last (h : Pending l gs plain ((d, [m]) :: os)) :
    take sel l gs m = .ok ⟨l.forget d.cut, gs.erase d.key, some d.joined⟩ ∧
      Pending (l.forget d.cut) (gs.erase d.key) plain os := by
  have hopen := h.opened (d, [m]) List.mem_cons_self
  have hdistinct := h.distinct
  rw [List.map_cons, List.nodup_cons] at hdistinct
  have hkey : ∀ o ∈ os, d.key ≠ o.1.key := by
    intro o ho heq
    exact hdistinct.1 (heq ▸ List.mem_map_of_mem ho)
  have hscripts := h.scripts (d, [m]) List.mem_cons_self
  exact ⟨hopen.take_last, {
    opened := fun o ho => by
      have hother := h.opened o (List.mem_cons_of_mem _ ho)
      refine hother.transfer (cuts_forget (hkey o ho)) (fun x hx => owners_forget hscripts fun hd => ?_) ?_
      · have hown := hother.owned x hx
        rw [hd] at hown
        exact hkey o ho hown
      · rw [groupOf_erase, if_neg (hkey o ho)]
    waiting := fun o ho => h.waiting o (List.mem_cons_of_mem _ ho)
    distinct := hdistinct.2
    scripts := fun o ho j hj => by
      have howner := h.scripts o (List.mem_cons_of_mem _ ho) j hj
      rw [owners_forget hscripts, howner]
      rw [howner]
      exact fun heq => hkey o ho (Option.some.inj heq).symm
    groups := fun k hk => by
      rw [Table.get?_erase] at hk
      split at hk
      · exact absurd rfl hk
      · rename_i hne
        exact (List.mem_cons.1 (h.groups k hk)).resolve_left (Ne.symm hne)
    plain := fun g hg => by
      have hnone := h.plain g hg
      have hg : l.owners.get? g.path.key ≠ some d.key := by
        intro heq
        rw [heq] at hnone
        exact absurd (hopen.cut.symm.trans hnone) (by simp)
      rw [owners_forget hscripts hg, Ledger.get?_cuts_forget]
      split
      · rfl
      · exact hnone }⟩

theorem take_more (h : Pending l gs plain ((d, m :: ms) :: os)) (hne : ms ≠ []) :
    ∃ gs', take sel l gs m = .ok ⟨l, gs', none⟩ ∧ Pending l gs' plain ((d, ms) :: os) := by
  obtain ⟨htake, hopen⟩ := (h.opened (d, m :: ms) List.mem_cons_self).take_more hne
  refine ⟨_, htake, ?_⟩
  have hdistinct := h.distinct
  rw [List.map_cons, List.nodup_cons] at hdistinct
  constructor
  · refine List.forall_mem_cons.2 ⟨hopen, fun o ho => ?_⟩
    refine (h.opened o (List.mem_cons_of_mem _ ho)).transfer rfl (fun _ _ => rfl) ?_
    rw [groupOf_put, if_neg]
    exact fun heq => hdistinct.1 (heq ▸ List.mem_map_of_mem ho)
  · exact List.forall_mem_cons.2 ⟨hne, (List.forall_mem_cons.1 h.waiting).2⟩
  · exact h.distinct
  · exact List.forall_mem_cons.2 (List.forall_mem_cons.1 h.scripts)
  · intro k hk
    rw [Table.get?_put] at hk
    split at hk
    · rename_i heq
      exact heq ▸ List.mem_cons_self
    · exact h.groups k hk
  · exact h.plain

/-- All files that are still to come, in whatever order they come, complete every document. -/
theorem takeAll (h : Pending l gs plain os) (hperm : fs.Perm (plain ++ os.flatMap (·.2))) :
    (takeAll sel l gs fs).fault = none ∧ (takeAll sel l gs fs).groups = [] ∧
      (takeAll sel l gs fs).passed.Perm (plain ++ os.map (·.1.joined)) := by
  -- The ledger, the groups and what is still to come all change with each file, so all are general.
  induction fs generalizing l gs plain os with
  | nil =>
    obtain ⟨rfl, hnone⟩ := List.append_eq_nil_iff.1 hperm.nil_eq.symm
    obtain rfl : os = [] := by
      rw [List.eq_nil_iff_forall_not_mem]
      intro o ho
      exact h.waiting o ho (List.flatMap_eq_nil_iff.1 hnone o ho)
    refine ⟨rfl, Table.eq_nil_of_get?_eq_none fun k => ?_, .refl _⟩
    by_contra hk
    cases h.groups k hk
  | cons f fs ih =>
    rcases List.mem_append.1 (hperm.mem_iff.1 List.mem_cons_self) with hf | hf
    · have hfirst := List.perm_cons_erase hf
      obtain ⟨htake, hnext⟩ := (h.perm hfirst (.refl _)).take_plain
      obtain ⟨hfault, hgroups, hpassed⟩ :=
        ih hnext (hperm.trans (hfirst.append_right _)).cons_inv
      simp only [Stage.takeAll, htake]
      refine ⟨hfault, hgroups, (hpassed.cons f).trans ?_⟩
      exact (hfirst.append_right _).symm
    · obtain ⟨o, ho, hfo⟩ := List.mem_flatMap.1 hf
      obtain ⟨ms, os', hfront, hfiles, hjoined⟩ := h.front ho hfo
      have hrest : fs.Perm (plain ++ (ms ++ os'.flatMap (·.2))) :=
        (hperm.trans ((hfiles.append_left _).trans List.perm_middle)).cons_inv
      -- With its last piece a document leaves the stage; with any other its group grows.
      by_cases hms : ms = []
      · subst hms
        obtain ⟨htake, hnext⟩ := hfront.take_last
        obtain ⟨hfault, hgroups, hpassed⟩ := ih hnext hrest
        simp only [Stage.takeAll, htake]
        refine ⟨hfault, hgroups, (hpassed.cons o.1.joined).trans ?_⟩
        exact (List.perm_middle.symm).trans (hjoined.symm.append_left _)
      · obtain ⟨gs', htake, hnext⟩ := hfront.take_more hms
        obtain ⟨hfault, hgroups, hpassed⟩ := ih hnext hrest
        simp only [Stage.takeAll, htake]
        exact ⟨hfault, hgroups, hpassed.trans (hjoined.symm.append_left _)⟩

end Pending

end Stage
end HtmlDeps
