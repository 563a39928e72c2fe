import Mathlib.Data.List.Induction
import HtmlDeps.Proofs.Split.Consistent

/-!
# What becomes of a ledger in use

One ledger sees files being cut and streams being rejoined, in any order.  Its two tables agree all the
time exactly if no file on record is cut again without the scripts that were cut out of it then
(`Usage.consistent_iff_covering`); no other file can claim them, since a script's key tells the key of its
document.  While the tables agree, a stream that is rejoined never lacks a piece that its cut asks for:
either all its documents are joined, or those that are not complete are named, or a carrier that was
changed is in the way.

The tables are `_parents` and `_records` of an `HtmlSplitter`; where they do not agree, `rejoin` takes a group for
complete that is not.
-/

namespace HtmlDeps

open Text

namespace Stage

/-! ### Rejoining a stream -/

/-- Document `o`, of which `c` is on record, comes out of a run. -/
def Run.Joined (r : Run) (o : Text) (c : Cut) : Prop :=
  r.ledger.cuts.get? o = none ∧ ∃ f ∈ r.passed, f.path = c.path

/-- How rejoining the files `fs` with the ledger `l` may end. -/
inductive Settled (l : Ledger) (fs : List File) (r : Run) : Prop
  | joined : r.fault = none →  -- Every document with a piece among the files is joined.
      (∀ f ∈ fs, ∀ c, l.cuts.get? (l.ownerOf f) = some c → r.Joined (l.ownerOf f) c) → Settled l fs r
  -- Every document with a piece among the files is joined, or else on record and named.
  | named (os : List Text) : r.fault = some (.incomplete os) → os ≠ [] →
      (∀ o ∈ os, ∃ c, r.ledger.cuts.get? o = some c) →
      (∀ f ∈ fs, ∀ c, l.cuts.get? (l.ownerOf f) = some c →
        r.Joined (l.ownerOf f) c ∨ l.ownerOf f ∈ os) → Settled l fs r
  -- The run stops at a document of which all pieces are there, but the carrier is unfit.
  | stopped (c : Cut) (e : SplitFault) : l.cuts.get? c.path.key = some c →
      SplitFault.Unfit c e → r.fault = some e → Settled l fs r

variable {sel : Selector} {l : Ledger} {gs : Groups} {c : Cut} {f : File} {fs : List File} {o : Text}

theorem cut_of_take {t : Taken} (ht : take sel l gs f = .ok t)
    (hc : t.ledger.cuts.get? o = some c) : l.cuts.get? o = some c := by
  simp only [take] at ht
  split at ht
  · cases ht
    exact hc
  · split at ht
    · cases hjoin : l.join sel _ _ with
      | error e =>
        rw [hjoin] at ht
        cases ht
      | ok joined =>
        rw [hjoin] at ht
        cases ht
        dsimp only at hc
        rw [Ledger.eq_forget_of_join hjoin, Ledger.get?_cuts_forget] at hc
        split at hc
        · cases hc
        · exact hc
    · cases ht
      exact hc

/-- What is on record after files were taken was on record before. -/
theorem cut_of_takeAll (hc : (takeAll sel l gs fs).ledger.cuts.get? o = some c) :
    l.cuts.get? o = some c := by
  induction fs generalizing l gs with
  | nil => exact hc
  | cons f fs ih =>
    rw [takeAll] at hc
    cases htake : take sel l gs f with
    | error e =>
      rw [htake] at hc
      exact hc
    | ok t =>
      rw [htake] at hc
      exact cut_of_take htake (ih hc)

namespace InOrder

theorem takeAll (h : InOrder l gs) (sel : Selector) (fs : List File) :
    (takeAll sel l gs fs).ledger.Consistent ∧ (Stage.takeAll sel l gs fs).ledger.Keyed ∧
      ((Stage.takeAll sel l gs fs).fault = none →
        Tidy (Stage.takeAll sel l gs fs).ledger (Stage.takeAll sel l gs fs).groups) := by
  induction fs generalizing l gs with
  | nil => exact ⟨h.consistent, h.keyed, fun _ => h.tidy⟩
  | cons f fs ih =>
    have htakes := h.takes sel f
    rw [Stage.takeAll]
    cases htake : take sel l gs f with
    | error e => exact ⟨h.consistent, h.keyed, fun hfault => by cases hfault⟩
    | ok t =>
      rw [htake] at htakes
      exact ih (h.after htakes)

/-- A run that stops does so at a carrier that is unfit. -/
theorem unfit_of_fault (h : InOrder l gs) {e : SplitFault}
    (he : (Stage.takeAll sel l gs fs).fault = some e) :
    ∃ c, l.cuts.get? c.path.key = some c ∧ SplitFault.Unfit c e := by
  induction fs generalizing l gs with
  | nil => cases he
  | cons f fs ih =>
    have htakes := h.takes sel f
    rw [Stage.takeAll] at he
    cases htake : take sel l gs f with
    | error e' =>
      rw [htake] at htakes he
      cases he
      cases htakes with
      | unfit c _ hc hunfit => exact ⟨c, (h.keyed _ _ hc).symm ▸ hc, hunfit⟩
    | ok t =>
      rw [htake] at htakes he
      obtain ⟨c, hc, hunfit⟩ := ih (h.after htakes) he
      exact ⟨c, cut_of_take htake hc, hunfit⟩

/-- A document of which a piece is there is joined with the file that is taken, or a piece of it is there
afterwards, too. -/
theorem joined_or_left {t : Taken} (h : InOrder l gs) (htakes : Takes l gs f (.ok t))
    (hc : l.cuts.get? o = some c) (hpiece : gs.has o ∨ ∃ g ∈ f :: fs, l.ownerOf g = o) :
    (t.ledger.cuts.get? o = none ∧ ∃ g ∈ t.passed.toList, g.path = c.path) ∨
      t.ledger.cuts.get? o = some c ∧ (t.groups.has o ∨ ∃ g ∈ fs, t.ledger.ownerOf g = o) := by
  have hpiece : gs.has o ∨ l.ownerOf f = o ∨ ∃ g ∈ fs, l.ownerOf g = o :=
    hpiece.imp_right (List.exists_mem_cons_iff ..).1
  cases htakes with
  | pass hnone =>
    refine .inr ⟨hc, ?_⟩
    rcases hpiece with hgroup | rfl | hlater
    · exact .inl hgroup
    · cases hnone.symm.trans hc
    · exact .inr hlater
  | store d group hd htidy =>
    refine .inr ⟨hc, ?_⟩
    rcases hpiece with hgroup | rfl | hlater
    · exact .inl (Table.has_put_of_has _ hgroup)
    · exact .inl (Table.has_put_self _ _ _)
    · exact .inr hlater
  | join d joined hd hjoined =>
    have hpath := h.keyed _ _ hd
    by_cases heq : l.ownerOf f = o
    · -- the document itself is joined
      rw [heq, hc] at hd
      cases hd
      refine .inl ⟨?_, joined, List.mem_cons_self, hjoined⟩
      rw [Ledger.get?_cuts_forget, if_pos (hpath.trans heq)]
    · have hne : d.path.key ≠ o := fun hkey => heq (hpath ▸ hkey)
      refine .inr ⟨by rw [Ledger.get?_cuts_forget, if_neg hne, hc], ?_⟩
      rcases hpiece with hgroup | howner | ⟨g, hg, howner⟩
      · refine .inl ?_
        rw [Table.has, Table.get?_erase, if_neg heq]
        exact hgroup
      · exact absurd howner heq
      · refine .inr ⟨g, hg, ?_⟩
        rw [Ledger.ownerOf_forget h.consistent (hpath ▸ hd), howner]
        rw [howner]
        exact Ne.symm hne

/-- In a run that does not stop, a document of which a piece is there is joined or has an open group. -/
theorem joined_or_open (h : InOrder l gs) (hend : (Stage.takeAll sel l gs fs).fault = none)
    (hc : l.cuts.get? o = some c) (hpiece : gs.has o ∨ ∃ f ∈ fs, l.ownerOf f = o) :
    (Stage.takeAll sel l gs fs).Joined o c ∨ (Stage.takeAll sel l gs fs).groups.has o := by
  induction fs generalizing l gs with
  | nil =>
    rcases hpiece with hgroup | ⟨f, hf, -⟩
    · exact .inr hgroup
    · cases hf
  | cons f fs ih =>
    have htakes := h.takes sel f
    rw [Stage.takeAll] at hend ⊢
    cases htake : take sel l gs f with
    | error e =>
      rw [htake] at hend
      cases hend
    | ok t =>
      rw [htake] at htakes hend
      have hafter := h.after htakes
      rcases h.joined_or_left htakes hc hpiece with ⟨hgone, g, hg, hpath⟩ | ⟨hc', hpiece'⟩
      · -- nothing brings the document back on record
        refine .inl ⟨?_, g, List.mem_append_left _ hg, hpath⟩
        refine Option.eq_none_iff_forall_ne_some.2 fun e he => ?_
        cases hgone.symm.trans (cut_of_takeAll he)
      · refine (ih hafter hend hc' hpiece').imp_left ?_
        rintro ⟨hgone, g, hg, hpath⟩
        exact ⟨hgone, g, List.mem_append_right _ hg, hpath⟩

end InOrder

theorem mem_sorted {x : Text} {ts : List Text} : x ∈ Text.sorted ts ↔ x ∈ ts :=
  List.mem_mergeSort

theorem rejoinAll_ledger (sel : Selector) (l : Ledger) (fs : List File) :
    (rejoinAll sel l fs).ledger = (takeAll sel l [] fs).ledger := by
  unfold rejoinAll Run.finish
  split <;> rfl

/-- **Rejoining with a ledger whose tables agree.** -/
theorem settled_of_consistent (hl : l.Consistent) (hkeyed : l.Keyed) (sel : Selector)
    (fs : List File) : Settled l fs (rejoinAll sel l fs) := by
  have horder : InOrder l [] := ⟨hl, hkeyed, tidy_nil l⟩
  unfold rejoinAll Run.finish
  cases hfault : (takeAll sel l [] fs).fault with
  | some e =>
    obtain ⟨c, hc, hunfit⟩ := horder.unfit_of_fault hfault
    exact .stopped c e hc hunfit hfault
  | none =>
    have hpieces : ∀ f ∈ fs, ∀ c, l.cuts.get? (l.ownerOf f) = some c →
        (takeAll sel l [] fs).Joined (l.ownerOf f) c ∨
          (takeAll sel l [] fs).groups.has (l.ownerOf f) :=
      fun f hf c hc => horder.joined_or_open hfault hc (.inr ⟨f, hf, rfl⟩)
    -- A group that is left over is that of a document which is still to be joined, and is named.
    cases hgroups : (takeAll sel l [] fs).groups with
    | nil =>
      refine .joined rfl fun f hf c hc => ?_
      rcases hpieces f hf c hc with hjoined | hopen
      · exact hjoined
      · rw [hgroups] at hopen
        cases hopen
    | cons e gs =>
      refine .named (Text.sorted (takeAll sel l [] fs).groups.keys) (by simp [unfinished?, hgroups])
        ?_ ?_ ?_
      · refine List.ne_nil_of_mem (a := e.1) (mem_sorted.2 ?_)
        rw [hgroups]
        exact List.mem_cons_self
      · intro o ho
        obtain ⟨group, hgroup⟩ :=
          Option.isSome_iff_exists.1 ((Table.mem_keys_iff _ _).1 (mem_sorted.1 ho))
        obtain ⟨-, c, hc, -⟩ := (horder.takeAll sel fs).2.2 hfault o group hgroup
        exact ⟨c, hc⟩
      · intro f hf c hc
        refine (hpieces f hf c hc).imp_right fun hopen => mem_sorted.2 ?_
        exact (Table.mem_keys_iff _ _).2 hopen

end Stage

/-! ### Histories -/

/-- What is recorded when a file is split, if it can be. -/
def Cut.ofFile? (sel : Selector) (f : File) : Option Cut :=
  match Region.locate sel f.text with
  | .error _ => none
  | .ok regions =>
    match partsOf f.path f.text 0 0 regions with
    | .error _ => none
    | .ok parts => some ⟨f.path, encode (remainder f.text 0 regions), parts.map (·.1)⟩

/-- What is done with a ledger: a file is split, or a stream of files is rejoined. -/
inductive Usage where
  | split (f : File)
  | rejoin (fs : List File)

namespace Usage

/-- The ledger after a use.  A file that cannot be split leaves no trace. -/
def after (sel : Selector) (l : Ledger) : Usage → Ledger
  | split f =>
    match l.cut sel f with
    | .error _ => l
    | .ok (l', _) => l'
  | rejoin fs => (Stage.rejoinAll sel l fs).ledger

/-- The ledger after all that was done since nothing was cut. -/
def ledger (sel : Selector) (us : List Usage) : Ledger := us.foldl (after sel) Ledger.empty

variable {sel : Selector} {f g : File} {us vs : List Usage} {u : Usage} {c d : Cut} {k o : Text}

theorem ledger_concat (sel : Selector) (us : List Usage) (u : Usage) :
    ledger sel (us ++ [u]) = after sel (ledger sel us) u := by
  rw [ledger, List.foldl_append]
  rfl

theorem after_split (sel : Selector) (l : Ledger) (f : File) : after sel l (.split f) =
    match Cut.ofFile? sel f with
    | none => l
    | some c => l.record c := by
  simp only [after, Ledger.cut, Cut.ofFile?]
  cases hrs : Region.locate sel f.text with
  | error e => rfl
  | ok rs => cases hps : partsOf f.path f.text 0 0 rs <;> simp only [hps]

theorem exists_of_ofFile? (hc : Cut.ofFile? sel f = some c) :
    ∃ rs ps, partsOf f.path f.text 0 0 rs = .ok ps ∧
      c = ⟨f.path, encode (remainder f.text 0 rs), ps.map (·.1)⟩ := by
  unfold Cut.ofFile? at hc
  split at hc
  · cases hc
  · split at hc
    · cases hc
    · cases hc
      exact ⟨_, _, ‹_›, rfl⟩

theorem path_of_ofFile? (hc : Cut.ofFile? sel f = some c) : c.path = f.path := by
  obtain ⟨rs, ps, -, rfl⟩ := exists_of_ofFile? hc
  rfl

/-- What is on record was recorded when a file was split. -/
theorem exists_split_of_cut (hc : (ledger sel us).cuts.get? o = some c) :
    ∃ f, .split f ∈ us ∧ f.path.key = o ∧ Cut.ofFile? sel f = some c := by
  induction us using List.reverseRecOn with
  | nil => cases hc
  | append_singleton us u ih =>
    have hearlier (hold : (ledger sel us).cuts.get? o = some c) :
        ∃ f, .split f ∈ us ++ [u] ∧ f.path.key = o ∧ Cut.ofFile? sel f = some c := by
      obtain ⟨f, hf, hrest⟩ := ih hold
      exact ⟨f, List.mem_append_left _ hf, hrest⟩
    rw [ledger_concat] at hc
    cases u with
    | rejoin fs =>
      rw [after, Stage.rejoinAll_ledger] at hc
      exact hearlier (Stage.cut_of_takeAll hc)
    | split f =>
      rw [after_split] at hc
      cases hd : Cut.ofFile? sel f with
      | none =>
        rw [hd] at hc
        exact hearlier hc
      | some d =>
        rw [hd] at hc
        simp only [Ledger.record, Table.get?_put] at hc
        split at hc
        · cases hc
          rename_i hkey
          exact ⟨f, List.mem_append_right us List.mem_cons_self, path_of_ofFile? hd ▸ hkey, hd⟩
        · exact hearlier hc

/-! ### Scripts are told apart -/

theorem script_of_partsOf {p : Path} {t : Text} {index removed : Nat} {rs : List Region}
    {ps : List (Part × Text)} (h : partsOf p t index removed rs = .ok ps) {x : Part × Text}
    (hx : x ∈ ps) : ∃ i, p.script i = .ok x.1.path := by
  induction rs generalizing index removed ps with
  | nil =>
    obtain rfl := Except.ok.inj h
    cases hx
  | cons r rs ih =>
    obtain ⟨q, rest, hq, hrest, rfl⟩ := partsOf_cons h
    cases hx with
    | head => exact ⟨index, hq⟩
    | tail _ hx => exact ih hrest hx

/-- What is cut out of a file are scripts of it. -/
theorem script_of_mem_partKeys (hc : Cut.ofFile? sel f = some c) (hk : k ∈ c.partKeys) :
    ∃ i p, f.path.script i = .ok p ∧ p.key = k := by
  obtain ⟨rs, ps, hps, rfl⟩ := exists_of_ofFile? hc
  rw [Cut.partKeys, List.map_map] at hk
  obtain ⟨x, hx, rfl⟩ := List.mem_map.1 hk
  obtain ⟨i, hi⟩ := script_of_partsOf hps hx
  exact ⟨i, x.1.path, hi, rfl⟩

/-- Files that share the key of a script share their own key. -/
theorem key_eq_of_partKeys (hc : Cut.ofFile? sel f = some c) (hd : Cut.ofFile? sel g = some d)
    (hck : k ∈ c.partKeys) (hdk : k ∈ d.partKeys) : f.path.key = g.path.key := by
  obtain ⟨i, p, hp, rfl⟩ := script_of_mem_partKeys hc hck
  obtain ⟨j, q, hq, heq⟩ := script_of_mem_partKeys hd hdk
  exact (Path.key_script_inj hp hq heq.symm).1

/-! ### Cuts that are replaced -/

/-- No file is split again, while it is on record, without the scripts that were cut out of it then. -/
def Covering (sel : Selector) (us : List Usage) : Prop :=
  ∀ vs f c old, vs ++ [.split f] <+: us → Cut.ofFile? sel f = some c →
    (ledger sel vs).cuts.get? f.path.key = some old → old.partKeys ⊆ c.partKeys

theorem Covering.of_prefix (h : Covering sel us) (hvs : vs <+: us) : Covering sel vs :=
  fun ws f c old hws hc hold => h ws f c old (hws.trans hvs) hc hold

/-- Scripts that are told apart leave only one thing to go wrong. -/
theorem admits_iff_covering (hl : (ledger sel us).Consistent) (hc : Cut.ofFile? sel f = some c) :
    (ledger sel us).Admits c ↔
      ∀ old, (ledger sel us).cuts.get? f.path.key = some old → old.partKeys ⊆ c.partKeys := by
  have hpath := path_of_ofFile? hc
  constructor
  · intro hadmits old hold
    exact hadmits.covering old (hpath ▸ hold)
  · intro hcovering
    constructor
    · intro k hk o howner
      obtain ⟨d, hd, hdk⟩ := (hl k o).1 howner
      obtain ⟨g, -, rfl, hg⟩ := exists_split_of_cut hd
      rw [hpath]
      exact key_eq_of_partKeys hg hc hdk hk
    · intro old hold
      exact hcovering old (hpath ▸ hold)

theorem keyed (sel : Selector) (us : List Usage) : (ledger sel us).Keyed := by
  intro k c hc
  obtain ⟨f, -, hkey, hf⟩ := exists_split_of_cut hc
  rw [path_of_ofFile? hf, hkey]

/-- What one use preserves. -/
theorem consistent_after (hl : (ledger sel us).Consistent)
    (hadmits : ∀ f c, u = .split f → Cut.ofFile? sel f = some c → (ledger sel us).Admits c) :
    (after sel (ledger sel us) u).Consistent := by
  cases u with
  | split f =>
    rw [after_split]
    cases hc : Cut.ofFile? sel f with
    | none => exact hl
    | some c => exact (Ledger.consistent_record_iff hl).2 (hadmits f c rfl hc)
  | rejoin fs =>
    have horder : Stage.InOrder (ledger sel us) [] := ⟨hl, keyed sel us, Stage.tidy_nil _⟩
    rw [after, Stage.rejoinAll_ledger]
    exact (horder.takeAll sel fs).1

theorem Covering.consistent (h : Covering sel us) : (ledger sel us).Consistent := by
  induction us using List.reverseRecOn with
  | nil => exact Ledger.consistent_empty
  | append_singleton us u ih =>
    have hl := ih (h.of_prefix (List.prefix_append us [u]))
    rw [ledger_concat]
    refine consistent_after hl fun f c hu hc => (admits_iff_covering hl hc).2 fun old hold => ?_
    rw [hu] at h
    exact h us f c old (List.prefix_refl _) hc hold

theorem covering_of_consistent (h : ∀ vs, vs <+: us → (ledger sel vs).Consistent) :
    Covering sel us := by
  intro vs f c old hvs hc hold
  have hl := h vs ((List.prefix_append vs _).trans hvs)
  have hboth := h _ hvs
  rw [ledger_concat, after_split, hc] at hboth
  exact (admits_iff_covering hl hc).1 ((Ledger.consistent_record_iff hl).1 hboth) old hold

/-! ### Documents -/

/-- The scripts of a document are numbered, so it lists those of another cut if it has as many. -/
theorem partKeys_of_ofFile? (hhtml : f.path.isHtml) (hc : Cut.ofFile? sel f = some c) :
    c.partKeys = (List.range' 0 c.parts.length).map fun n => f.path.key ++ Path.scriptEnding n := by
  obtain ⟨rs, ps, hps, rfl⟩ := exists_of_ofFile? hc
  have hkeys := keys_partsOf hhtml hps
  have hlength := congrArg List.length (bodies_partsOf hps)
  rw [List.length_map, List.length_map] at hlength
  rw [Cut.partKeys, List.map_map, List.length_map, hlength]
  exact hkeys

theorem partKeys_subset_iff (hf : f.path.isHtml) (hg : g.path.isHtml) (hkey : g.path.key = f.path.key)
    (hc : Cut.ofFile? sel f = some c) (hd : Cut.ofFile? sel g = some d) :
    d.partKeys ⊆ c.partKeys ↔ d.parts.length ≤ c.parts.length := by
  constructor
  · intro hsub
    have hnodup : d.partKeys.Nodup := by
      rw [partKeys_of_ofFile? hg hd]
      refine List.Nodup.map (fun m n hmn => ?_) List.nodup_range'
      exact Path.scriptEnding_injective (List.append_cancel_left hmn)
    have hlength := (hnodup.subperm hsub).length_le
    rw [Cut.partKeys, Cut.partKeys, List.length_map, List.length_map] at hlength
    exact hlength
  · intro hle
    rw [partKeys_of_ofFile? hg hd, partKeys_of_ofFile? hf hc, hkey]
    refine List.map_subset _ fun n hn => ?_
    rw [List.mem_range'_1] at hn ⊢
    omega

/-- Only HTML documents are split. -/
def OfDocuments (us : List Usage) : Prop := ∀ f, .split f ∈ us → f.path.isHtml

theorem covering_iff_of_documents (h : OfDocuments us) : Covering sel us ↔
    ∀ vs f c old, vs ++ [.split f] <+: us → Cut.ofFile? sel f = some c →
      (ledger sel vs).cuts.get? f.path.key = some old → old.parts.length ≤ c.parts.length := by
  have hparts : ∀ vs f c old, vs ++ [.split f] <+: us → Cut.ofFile? sel f = some c →
      (ledger sel vs).cuts.get? f.path.key = some old →
      (old.partKeys ⊆ c.partKeys ↔ old.parts.length ≤ c.parts.length) := by
    intro vs f c old hvs hc hold
    obtain ⟨g, hg, hkey, hd⟩ := exists_split_of_cut hold
    have hf := h f (hvs.subset (List.mem_append_right vs List.mem_cons_self))
    exact partKeys_subset_iff hf (h g (hvs.subset (List.mem_append_left _ hg))) hkey hc hd
  constructor
  · intro hcovering vs f c old hvs hc hold
    exact (hparts vs f c old hvs hc hold).1 (hcovering vs f c old hvs hc hold)
  · intro hle vs f c old hvs hc hold
    exact (hparts vs f c old hvs hc hold).2 (hle vs f c old hvs hc hold)

/-! ### The result -/

/-- **The tables of a splitter agree** after every part of a history exactly if no file that is on record
is split again without the scripts that were cut out of it, which for documents means: into fewer
scripts.  And while they agree, no stream can be rejoined that ends for want of a piece. -/
theorem consistent_iff_covering (sel : Selector) (us : List Usage) :
    ((∀ vs, vs <+: us → (ledger sel vs).Consistent) ↔ Covering sel us) ∧
      (OfDocuments us → (Covering sel us ↔
        ∀ vs f c old, vs ++ [.split f] <+: us → Cut.ofFile? sel f = some c →
          (ledger sel vs).cuts.get? f.path.key = some old → old.parts.length ≤ c.parts.length)) ∧
      (Covering sel us → ∀ fs,
        Stage.Settled (ledger sel us) fs (Stage.rejoinAll sel (ledger sel us) fs)) := by
  refine ⟨⟨covering_of_consistent, ?_⟩, covering_iff_of_documents, ?_⟩
  · intro h vs hvs
    exact (h.of_prefix hvs).consistent
  · intro h fs
    exact Stage.settled_of_consistent h.consistent (keyed sel us) sel fs

/-- A page with the scripts `ts`. -/
def pageOf (ts : List Text) : File :=
  ⟨"/app/page.html", encode (ts.flatMap fun t => "<script>" ++ t ++ "</script>")⟩

/-- A page that is cut again with one more script. -/
theorem consistent_grown :
    (∀ vs, vs <+: [.split (pageOf ["a"]), .split (pageOf ["b", "c"])] →
      (ledger .usual vs).Consistent) ∧
    Stage.Settled (ledger .usual [.split (pageOf ["a"]), .split (pageOf ["b", "c"])])
      [pageOf [""]] (Stage.rejoinAll .usual
        (ledger .usual [.split (pageOf ["a"]), .split (pageOf ["b", "c"])]) [pageOf [""]]) := by
  obtain ⟨hconsistent, hdocuments, hsettled⟩ :=
    consistent_iff_covering .usual [.split (pageOf ["a"]), .split (pageOf ["b", "c"])]
  have hall : OfDocuments [.split (pageOf ["a"]), .split (pageOf ["b", "c"])] := by
    intro f hf
    simp only [List.mem_cons, Usage.split.injEq, List.not_mem_nil, or_false] at hf
    rcases hf with rfl | rfl <;> decide
  have hone : ((ledger .usual [.split (pageOf ["a"])]).cuts.get? (pageOf ["b", "c"]).path.key).map
      (·.parts.length) = some 1 := by
    repeat rw [Text.ofString_ofList]
    decide
  have htwo : (Cut.ofFile? .usual (pageOf ["b", "c"])).map (·.parts.length) = some 2 := by
    repeat rw [Text.ofString_ofList]
    decide
  have hcovering := (hdocuments hall).2 (by
    intro vs f c old hvs hc hold
    rcases vs with _ | ⟨v, _ | ⟨w, vs⟩⟩
    · cases hold
    · obtain ⟨rfl, heq⟩ : v = .split (pageOf ["a"]) ∧ f = pageOf ["b", "c"] := by
        simpa using hvs
      subst heq
      rw [hc] at htwo
      rw [hold] at hone
      have hold := Option.some.inj hone
      have hnew := Option.some.inj htwo
      simp only at hold hnew
      omega
    · exact absurd hvs.length_le (by simp))
  exact ⟨hconsistent.2 hcovering, hsettled hcovering _⟩

/-- A page that is cut again with one script less leaves the key of the other script behind, and when
that script comes, the page is taken for complete. -/
theorem not_consistent_shrunk :
    ¬ (ledger .usual [.split (pageOf ["a", "b"]), .split (pageOf ["c"])]).Consistent ∧
    (Stage.rejoinAll .usual (ledger .usual [.split (pageOf ["a", "b"]), .split (pageOf ["c"])])
      [pageOf [""], ⟨"/app/page.html_script_1.js", []⟩]).fault =
        some (.absent "/app/page.html_script_0.js") := by
  constructor
  · intro h
    have howner : (ledger .usual [.split (pageOf ["a", "b"]), .split (pageOf ["c"])]).owners.get?
        "/app/page.html_script_1.js" = some "/app/page.html" := by
      repeat rw [Text.ofString_ofList]
      decide
    have hkeys : ((ledger .usual [.split (pageOf ["a", "b"]), .split (pageOf ["c"])]).cuts.get?
        "/app/page.html").map Cut.partKeys = some [("/app/page.html_script_0.js" : Text)] := by
      repeat rw [Text.ofString_ofList]
      decide
    obtain ⟨c, hc, hk⟩ := (h _ _).1 howner
    rw [hc] at hkeys
    rw [Option.some.inj hkeys] at hk
    exact absurd hk (by decide)
  · repeat rw [Text.ofString_ofList]
    decide

end Usage
end HtmlDeps
