import HtmlDeps.Proofs.Split.Usage

/-!
# What a join touches

All documents that were cut stand in the same two tables.  A join that fails leaves both as they were,
although it works on them in place, since nothing is taken out before the carrier has been searched
(`Ledger.tryJoin_eq`).  A join that succeeds takes out its own cut and its own scripts and nothing that
belongs to another document (`Usage.join_local`).

The tables are `_records` and `_parents`, the join is `join_files`.
-/

namespace HtmlDeps

open Text

namespace Ledger

variable {sel : Selector} {l : Ledger} {c : Cut} {k : Text} {group : Table Text File} {carrier : File}
  {rs : List Region}

/-! ### Joining in place -/

/-- Steps that change a ledger.  What they changed before a fault stays changed. -/
abbrev Steps := ExceptT SplitFault (StateM Ledger)

/-- Takes a key out of the cuts. -/
def dropCut (k : Text) : Steps Unit := modify fun l => { l with cuts := l.cuts.erase k }

/-- Takes a key out of the owners. -/
def dropOwner (k : Text) : Steps Unit := modify fun l => { l with owners := l.owners.erase k }

/-- A join step by step. -/
def joinInPlace (sel : Selector) (c : Cut) (group : Table Text File) : Steps File := do
  let some carrier := group.get? c.path.key | throw (.absent c.path.key)
  let bs ← ExceptT.mk (pure (bodies group c.parts))
  let rs ← ExceptT.mk (pure (ranges sel c carrier))
  dropCut c.path.key
  c.parts.forM fun p => dropOwner p.path.key
  return ⟨c.path, encode (splice carrier.text 0 (rs.zip bs))⟩

/-- What comes of a join, and the ledger after it. -/
def tryJoin (sel : Selector) (l : Ledger) (c : Cut) (group : Table Text File) :
    Except SplitFault File × Ledger :=
  (joinInPlace sel c group).run.run l

theorem run_dropOwners_bind {α : Type} (ps : List Part) (l : Ledger)
    (next : Unit → Steps α) :
    ExceptT.run (do ps.forM fun p => dropOwner p.path.key; next ()) l =
      (next ()).run { l with owners := ps.foldl (fun t p => Table.erase t p.path.key) l.owners } := by
  induction ps generalizing l with
  | nil => rfl
  | cons p ps ih => exact ih { l with owners := l.owners.erase p.path.key }

/-- The tables change only when nothing can go wrong any more. -/
theorem tryJoin_eq (sel : Selector) (l : Ledger) (c : Cut) (group : Table Text File) :
    l.tryJoin sel c group =
      match l.join sel c group with
      | .error e => (.error e, l)
      | .ok (l', f) => (.ok f, l') := by
  unfold tryJoin joinInPlace join
  cases group.get? c.path.key with
  | none => rfl
  | some carrier =>
    dsimp only
    cases bodies group c.parts with
    | error e => rfl
    | ok bs =>
      cases hranges : ranges sel c carrier with
      | error e => rfl
      | ok rs =>
        let joined : File := ⟨c.path, encode (splice carrier.text 0 (rs.zip bs))⟩
        exact run_dropOwners_bind c.parts { l with cuts := l.cuts.erase c.path.key } fun _ => pure joined

/-! ### One join -/

/-- All pieces of a document are there, and the carrier has `n` regions. -/
structure Gathered (sel : Selector) (c : Cut) (group : Table Text File) (n : Nat) : Prop where
  carrier : ∃ f rs, group.get? c.path.key = some f ∧ Region.locate sel f.text = .ok rs ∧ rs.length = n
  parts : c.partKeys ⊆ group.keys

/-- Where the carrier can be searched, only the number of its regions can be wrong. -/
theorem ranges_eq_error {e : SplitFault} (hrs : Region.locate sel carrier.text = .ok rs)
    (h : ranges sel c carrier = .error e) :
    rs.length ≠ c.parts.length ∧ e = .regionCount c.path rs.length c.parts.length := by
  simp only [ranges, hrs] at h
  split at h
  · cases h
  · split at h
    · cases h
    · rename_i hne
      exact ⟨hne, (Except.error.inj h).symm⟩

theorem tryJoin_cases (l : Ledger) {n : Nat} (h : Gathered sel c group n) :
    (∃ f : File, f.path = c.path ∧ l.tryJoin sel c group = (.ok f, l.forget c)) ∨
      (n ≠ c.parts.length ∧
        l.tryJoin sel c group = (.error (.regionCount c.path n c.parts.length), l)) := by
  obtain ⟨⟨carrier, rs, hcarrier, hrs, rfl⟩, hparts⟩ := h
  obtain ⟨bs, hbodies⟩ := exists_bodies fun p hp => hparts (List.mem_map_of_mem hp)
  have htry := tryJoin_eq sel l c group
  cases hranges : ranges sel c carrier with
  | ok spans =>
    simp only [join, hcarrier, hbodies, hranges] at htry
    exact .inl ⟨_, rfl, htry⟩
  | error e =>
    obtain ⟨hne, rfl⟩ := ranges_eq_error hrs hranges
    simp only [join, hcarrier, hbodies, hranges] at htry
    exact .inr ⟨hne, htry⟩

end Ledger

namespace Usage

variable {sel : Selector} {fs : List File} {f : File} {c : Cut} {k o : Text}

/-! ### Documents with different keys -/

/-- No document is cut again. -/
theorem covering_splits (hdistinct : (fs.map (·.path.key)).Nodup) : Covering sel (fs.map .split) := by
  intro vs f c old hvs hc hold
  obtain ⟨us, hus⟩ := hvs
  rw [List.append_assoc, List.singleton_append] at hus
  obtain ⟨before, rest, rfl, rfl, hrest⟩ := List.map_eq_append_iff.1 hus.symm
  obtain ⟨f, after, rfl, hf, -⟩ := List.map_eq_cons_iff.1 hrest
  cases hf
  obtain ⟨g, hg, hkey, -⟩ := exists_split_of_cut hold
  obtain ⟨g, hmem, hg⟩ := List.mem_map.1 hg
  cases hg
  rw [List.map_append, List.nodup_append] at hdistinct
  exact absurd hkey (hdistinct.2.2 _ (List.mem_map_of_mem hmem) _ List.mem_cons_self)

/-! ### The result -/

/-- **Joins are local.**  Files with different keys were split, and all pieces of one document are there.
A join that fails does so because of the carrier's regions; it leaves both tables as they were, and the
document can still be joined with a carrier that has as many regions as were cut out.  A join that
succeeds takes out the cut and the keys of its scripts and leaves everything else; these keys are exactly
the ones that led to the document. -/
theorem join_local (hdistinct : (fs.map (·.path.key)).Nodup)
    (hlive : (ledger sel (fs.map .split)).cuts.get? k = some c) {group : Table Text File} {n : Nat}
    (hgroup : Ledger.Gathered sel c group n) :
    let l := ledger sel (fs.map .split)
    let r := l.tryJoin sel c group
    (∀ e, r.1 = .error e → e = .regionCount c.path n c.parts.length ∧ r.2 = l ∧
      ∀ later, Ledger.Gathered sel c later c.parts.length →
        ∃ f, (r.2.tryJoin sel c later).1 = .ok f ∧ (l.tryJoin sel c later).1 = .ok f) ∧
    (∀ f, r.1 = .ok f →
      (∀ o, r.2.cuts.get? o = if o = k then none else l.cuts.get? o) ∧
      (∀ j, r.2.owners.get? j = if j ∈ c.partKeys then none else l.owners.get? j) ∧
      ∀ j o, r.2.owners.get? j = some o ↔ o ≠ k ∧ l.owners.get? j = some o) := by
  intro l r
  have hkey : c.path.key = k := keyed sel _ k c hlive
  rcases Ledger.tryJoin_cases l hgroup with ⟨joined, -, htry⟩ | ⟨hne, htry⟩
  · have hr : r = (.ok joined, l.forget c) := htry
    rw [hr]
    constructor
    · intro e he
      cases he
    intro f _
    refine ⟨?_, ?_, ?_⟩
    · intro o
      simp only [Ledger.get?_cuts_forget, hkey, eq_comm (a := k)]
    · exact Ledger.get?_owners_forget l c
    · intro j o
      have hconsistent : l.Consistent := (covering_splits hdistinct).consistent
      have hforget : (l.forget c).Consistent := hconsistent.forget (hkey.symm ▸ hlive)
      rw [hforget j o, Ledger.lists_forget, hconsistent j o, hkey, ne_comm]
  · have hr : r = (.error (.regionCount c.path n c.parts.length), l) := htry
    rw [hr]
    constructor
    swap
    · intro f hf
      cases hf
    intro e he
    refine ⟨(Except.error.inj he).symm, rfl, ?_⟩
    intro later hlater
    rcases Ledger.tryJoin_cases l hlater with ⟨joined, -, hjoined⟩ | ⟨hcount, -⟩
    · exact ⟨joined, by rw [hjoined], by rw [hjoined]⟩
    · exact absurd rfl hcount

/-- Two pages with a script each. -/
def twoPages : List File :=
  [⟨"/app/page.html", encode "<script>a</script>"⟩, ⟨"/app/other.html", encode "<script>b</script>"⟩]

/-- How the first page was cut. -/
def pageCut : Cut :=
  ⟨"/app/page.html", encode "<script></script>", [⟨"/app/page.html_script_0.js", 8, "<script>", "</script>"⟩]⟩

/-- The pieces of the first page, with another carrier. -/
def pagePieces (carrier : Text) : Table Text File :=
  [("/app/page.html", ⟨"/app/page.html", encode carrier⟩),
    ("/app/page.html_script_0.js", ⟨"/app/page.html_script_0.js", encode "a"⟩)]

theorem gathered_pagePieces {carrier : Text} {rs : List Region}
    (hrs : Region.locate .usual (File.text ⟨"/app/page.html", encode carrier⟩) = .ok rs) :
    Ledger.Gathered .usual pageCut (pagePieces carrier) rs.length := by
  have hcarrier : pageCut.path.key = "/app/page.html" := by
    simp only [pageCut]
    repeat rw [Text.ofString_ofList]
    decide
  have hscript : pageCut.partKeys = ["/app/page.html_script_0.js"] := by
    simp only [pageCut]
    repeat rw [Text.ofString_ofList]
    decide
  refine ⟨⟨_, rs, ?_, hrs, rfl⟩, ?_⟩
  · rw [hcarrier]
    rfl
  · rw [hscript]
    exact List.subset_cons_self _ _

/-- The first page loses the place of its script, is refused, and gets it back; the other page keeps its
script. -/
theorem join_local_page :
    ((ledger .usual (twoPages.map .split)).tryJoin .usual pageCut (pagePieces "no script") =
      (.error (.regionCount "/app/page.html" 0 1), ledger .usual (twoPages.map .split))) ∧
    ∃ f l', (ledger .usual (twoPages.map .split)).tryJoin .usual pageCut
        (pagePieces "<p><script></script>") = (.ok f, l') ∧
      l'.cuts.get? "/app/page.html" = none ∧
      l'.owners.get? "/app/other.html_script_0.js" = some "/app/other.html" := by
  have hdistinct : (twoPages.map (·.path.key)).Nodup := by
    simp only [twoPages]
    repeat rw [Text.ofString_ofList]
    decide
  have hlive : (ledger .usual (twoPages.map .split)).cuts.get? "/app/page.html" = some pageCut := by
    simp only [twoPages, pageCut]
    repeat rw [Text.ofString_ofList]
    decide
  have hfault : ((ledger .usual (twoPages.map .split)).tryJoin .usual pageCut
      (pagePieces "no script")).1 = .error (.regionCount "/app/page.html" 0 1) := by
    simp only [twoPages, pageCut, pagePieces]
    repeat rw [Text.ofString_ofList]
    decide
  have howner : (ledger .usual (twoPages.map .split)).owners.get? "/app/other.html_script_0.js" =
      some "/app/other.html" := by
    simp only [twoPages]
    repeat rw [Text.ofString_ofList]
    decide
  have hnone : Ledger.Gathered .usual pageCut (pagePieces "no script") 0 := by
    have hrs : Region.locate .usual (File.text ⟨"/app/page.html", encode "no script"⟩) = .ok [] := by
      repeat rw [Text.ofString_ofList]
      decide
    exact gathered_pagePieces hrs
  have hone : Ledger.Gathered .usual pageCut (pagePieces "<p><script></script>") 1 := by
    have hrs : Region.locate .usual (File.text ⟨"/app/page.html", encode "<p><script></script>"⟩) =
        .ok [⟨11, 11, "<script>", "</script>"⟩] := by
      repeat rw [Text.ofString_ofList]
      decide
    exact gathered_pagePieces hrs
  have hkey : ("/app/other.html" : Text) ≠ "/app/page.html" := by decide
  have hrefused := join_local hdistinct hlive hnone
  have hjoined := join_local hdistinct hlive hone
  -- from here on the tables do not matter, nor how they were come by
  generalize ledger .usual (twoPages.map .split) = l at *
  obtain ⟨-, hunchanged, hlater⟩ := hrefused.1 _ hfault
  obtain ⟨f, -, hf⟩ := hlater _ hone
  obtain ⟨hcuts, -, howners⟩ := hjoined.2 f hf
  have hgone := hcuts "/app/page.html"
  rw [if_pos rfl] at hgone
  have hother := (howners _ _).2 ⟨hkey, howner⟩
  generalize l.tryJoin .usual pageCut (pagePieces "no script") = refused at hfault hunchanged ⊢
  generalize l.tryJoin .usual pageCut (pagePieces "<p><script></script>") = joined at hf hgone hother ⊢
  exact ⟨Prod.ext hfault hunchanged, f, joined.2, Prod.ext hf rfl, hgone, hother⟩

end Usage
end HtmlDeps
