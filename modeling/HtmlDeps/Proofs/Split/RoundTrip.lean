import Mathlib.Data.List.Nodup
import HtmlDeps.Proofs.Path.Logical
import HtmlDeps.Proofs.Split.Pieces
import HtmlDeps.Proofs.Table
import HtmlDeps.Split.Pipeline

/-!
# Splitting a document and rejoining it

The pieces of a document reach the second stage in any order.  It collects them under the document's
key, and with the last one it has what it needs to join them (`Stage.draw_completes`).  The
document comes out as it was exactly if no region stops before it starts (`Stage.rejoinAll_cut_iff`).

This is the sentence “rejoin(split(doc)) == doc byte for byte” of the full specification.  A region whose
start tag closes itself is in its way.
-/

namespace HtmlDeps

open Text Region

/-! ### The keys of the pieces -/

theorem exists_partsOf {p : Path} (hp : p.isHtml) (t : Text) (index removed : Nat)
    (rs : List Region) : ∃ ps, partsOf p t index removed rs = .ok ps := by
  induction rs generalizing index removed with
  | nil => exact ⟨[], rfl⟩
  | cons r rs ih =>
    obtain ⟨q, hq, -⟩ := Path.script_of_isHtml hp index
    obtain ⟨ps, hps⟩ := ih (index + 1) (removed + (r.body t).length)
    exact ⟨(⟨q, r.start - removed, r.openTag, r.closeTag⟩, r.body t) :: ps,
      by simp [partsOf, hq, hps, bind, Except.bind, pure, Except.pure]⟩

theorem keys_partsOf {p : Path} (hp : p.isHtml) {t : Text} {index removed : Nat} {rs : List Region} {ps : List (Part × Text)}
    (h : partsOf p t index removed rs = .ok ps) :
    ps.map (·.1.path.key) =
      (List.range' index rs.length).map fun n => p.key ++ Path.scriptEnding n := by
  induction rs generalizing index removed ps with
  | nil =>
    obtain rfl := Except.ok.inj h
    rfl
  | cons r rs ih =>
    obtain ⟨q, rest, hq, hrest, rfl⟩ := partsOf_cons h
    rw [List.map_cons, ih hrest, Path.key_script hp hq]
    rfl

/-- The files that a document is cut into. -/
def piecesOf (f : File) (carrier : Bytes) (ps : List (Part × Text)) : List File :=
  ⟨f.path, carrier⟩ :: ps.map fun x => ⟨x.1.path, encode x.2⟩

theorem keys_piecesOf (f : File) (carrier : Bytes) (ps : List (Part × Text)) :
    (piecesOf f carrier ps).map (·.path.key) = f.path.key :: ps.map (·.1.path.key) := by
  simp [piecesOf, Function.comp_def]

/-- The pieces of a document have keys of their own. -/
theorem nodup_keys_piecesOf {f : File} (hp : f.path.isHtml) {t : Text} {removed : Nat} {rs : List Region} {ps : List (Part × Text)}
    (h : partsOf f.path t 0 removed rs = .ok ps) (carrier : Bytes) :
    ((piecesOf f carrier ps).map (·.path.key)).Nodup := by
  rw [keys_piecesOf, keys_partsOf hp h, List.nodup_cons]
  constructor
  · rw [List.mem_map]
    rintro ⟨n, -, hn⟩
    rw [List.append_right_eq_self] at hn
    exact List.append_ne_nil_of_right_ne_nil _ (by decide) hn
  · refine List.Nodup.map (fun m n hmn => ?_) List.nodup_range'
    exact Path.scriptEnding_injective (List.append_cancel_left hmn)

theorem Ledger.cut_of_locate {sel : Selector} (l : Ledger) {f : File} (hp : f.path.isHtml)
    {rs : List Region} (hrs : Region.locate sel f.text = .ok rs) :
    ∃ ps, partsOf f.path f.text 0 0 rs = .ok ps ∧
      l.cut sel f = .ok (l.record ⟨f.path, encode (remainder f.text 0 rs), ps.map (·.1)⟩,
        piecesOf f (encode (remainder f.text 0 rs)) ps) := by
  obtain ⟨ps, hps⟩ := exists_partsOf hp f.text 0 0 rs
  refine ⟨ps, hps, ?_⟩
  simp only [cut, hrs, hps, piecesOf]

/-! ### Collecting the pieces -/

/-- A group with more files, each under its key. -/
def collect (group : Table Text File) (fs : List File) : Table Text File :=
  fs.foldl (fun g f => g.put f.path.key f) group

theorem get?_collect_of_not_mem {group : Table Text File} {fs : List File} {k : Text}
    (h : k ∉ fs.map (·.path.key)) : (collect group fs).get? k = group.get? k := by
  induction fs generalizing group with
  | nil => rfl
  | cons f fs ih =>
    rw [List.map_cons, List.mem_cons, not_or] at h
    rw [collect, List.foldl_cons, ← collect, ih h.2, Table.get?_put, if_neg (Ne.symm h.1)]

theorem get?_collect_of_mem {group : Table Text File} {fs : List File} {f : File}
    (hnodup : (fs.map (·.path.key)).Nodup) (h : f ∈ fs) :
    (collect group fs).get? f.path.key = some f := by
  induction fs generalizing group with
  | nil => cases h
  | cons g fs ih =>
    rw [List.map_cons, List.nodup_cons] at hnodup
    rcases List.mem_cons.1 h with rfl | h
    · rw [collect, List.foldl_cons, ← collect, get?_collect_of_not_mem hnodup.1, Table.get?_put,
        if_pos rfl]
    · exact ih hnodup.2 h

namespace Stage

/-- What is collected so far under a key. -/
def groupOf (gs : Groups) (key : Text) : Table Text File := (gs.get? key).getD []

variable {sel : Selector} {l l' : Ledger} {gs : Groups} {key : Text} {c : Cut}

theorem take_owned (sel : Selector) (gs : Groups) (f : File) (hcut : l.cuts.get? key = some c)
    (howner : (l.owners.get? f.path.key).getD f.path.key = key) :
    take sel l gs f =
      if ((groupOf gs key).put f.path.key f).length = c.parts.length + 1 &&
          ((groupOf gs key).put f.path.key f).has key then
        (l.join sel c ((groupOf gs key).put f.path.key f)).map fun (l', joined) =>
          ⟨l', gs.erase key, some joined⟩
      else .ok ⟨l, gs.put key ((groupOf gs key).put f.path.key f), none⟩ := by
  simp only [take, howner, hcut]
  rfl

/-- The second stage takes files one after the other, as it is read. -/
theorem takeAll_eq (sel : Selector) (l : Ledger) (gs : Groups) (fs : List File) :
    takeAll sel l gs fs =
      match (draw sel l gs fs).passed with
      | none => ⟨[], (draw sel l gs fs).ledger, (draw sel l gs fs).groups, (draw sel l gs fs).fault⟩
      | some g =>
        let r := takeAll sel (draw sel l gs fs).ledger (draw sel l gs fs).groups
          (draw sel l gs fs).pending
        { r with passed := g :: r.passed } := by
  induction fs generalizing l gs with
  | nil => rfl
  | cons f fs ih =>
    rw [takeAll, draw]
    cases htake : take sel l gs f with
    | error e => rfl
    | ok t =>
      obtain ⟨l', gs', passed⟩ := t
      cases passed with
      | none => exact ih l' gs'
      | some g => rfl

/-- A piece of a document of which more pieces are missing goes into its group. -/
theorem take_stored {f : File} (hcut : l.cuts.get? key = some c)
    (howner : (l.owners.get? f.path.key).getD f.path.key = key) (hfresh : (groupOf gs key).get? f.path.key = none)
    (hopen : (groupOf gs key).length ≠ c.parts.length) :
    take sel l gs f = .ok ⟨l, gs.put key ((groupOf gs key).put f.path.key f), none⟩ := by
  rw [take_owned sel gs f hcut howner, Table.length_put_of_get?_eq_none f hfresh, if_neg (by simp [hopen])]

/-- With the last piece of a document, it is joined. -/
theorem take_joined {f joined : File} (hcut : l.cuts.get? key = some c)
    (howner : (l.owners.get? f.path.key).getD f.path.key = key) (hfresh : (groupOf gs key).get? f.path.key = none)
    (hfull : (groupOf gs key).length = c.parts.length)
    (hcarrier : ((groupOf gs key).put f.path.key f).has key)
    (hjoin : l.join sel c ((groupOf gs key).put f.path.key f) = .ok (l', joined)) :
    take sel l gs f = .ok ⟨l', gs.erase key, some joined⟩ := by
  rw [take_owned sel gs f hcut howner, Table.length_put_of_get?_eq_none f hfresh,
    if_pos (by simp [hfull, hcarrier]), hjoin]
  rfl

/-- The carrier is there, or is the piece that is taken, or comes later. -/
theorem carrier_cases {f : File} {fs : List File}
    (h : (groupOf gs key).has key ∨ key ∈ (f :: fs).map (·.path.key)) :
    ((groupOf gs key).put f.path.key f).has key ∨ key ∈ fs.map (·.path.key) := by
  rcases h with h | h
  · exact .inl (Table.has_put_of_has f h)
  · rcases List.mem_cons.1 h with h | h
    · rw [h]
      exact .inl (Table.has_put_self _ _ _)
    · exact .inr h

/-- Once the last piece of a document is there, the document is passed on and its group is gone. -/
theorem draw_completes {fs : List File} {joined : File} (hcut : l.cuts.get? key = some c)
    (howner : ∀ f ∈ fs, (l.owners.get? f.path.key).getD f.path.key = key)
    (hlength : (groupOf gs key).length + fs.length = c.parts.length + 1) (hne : fs ≠ [])
    (hfresh : ∀ f ∈ fs, (groupOf gs key).get? f.path.key = none)
    (hnodup : (fs.map (·.path.key)).Nodup)
    (hcarrier : (groupOf gs key).has key ∨ key ∈ fs.map (·.path.key))
    (hjoin : l.join sel c (collect (groupOf gs key) fs) = .ok (l', joined)) :
    draw sel l gs fs = ⟨l', gs.erase key, [], some joined, none⟩ := by
  induction fs generalizing gs with  -- Only the groups change on the way; all but the last piece are stored.
  | nil => exact absurd rfl hne
  | cons f fs ih =>
    have hhas := carrier_cases hcarrier
    rw [List.length_cons] at hlength
    cases fs with
    | nil =>
      rw [collect, List.foldl_cons, List.foldl_nil] at hjoin
      rw [draw, take_joined hcut (howner f List.mem_cons_self) (hfresh f List.mem_cons_self)
        (Nat.succ.inj hlength) (hhas.resolve_right List.not_mem_nil) hjoin]
    | cons g fs =>
      have hopen : (groupOf gs key).length ≠ c.parts.length := by
        rw [List.length_cons] at hlength
        omega
      have hgroup : groupOf (gs.put key ((groupOf gs key).put f.path.key f)) key =
          (groupOf gs key).put f.path.key f := by
        simp [groupOf, Table.get?_put]
      rw [List.map_cons, List.nodup_cons] at hnodup
      -- The pieces still to come have keys of their own, so the one stored now is none of theirs.
      have hlater : ∀ x ∈ g :: fs, ((groupOf gs key).put f.path.key f).get? x.path.key = none := by
        intro x hx
        have hkey : f.path.key ≠ x.path.key := fun h => hnodup.1 (h ▸ List.mem_map_of_mem hx)
        rw [Table.get?_put, if_neg hkey]
        exact hfresh x (List.mem_cons_of_mem _ hx)
      have hput := Table.length_put_of_get?_eq_none f (hfresh f List.mem_cons_self)
      have hrest := @ih (gs.put key ((groupOf gs key).put f.path.key f))
        (fun x hx => howner x (List.mem_cons_of_mem _ hx)) (by rw [hgroup, hput]; omega) (by simp)
        (by rwa [hgroup]) hnodup.2 (by rwa [hgroup]) (by rw [hgroup]; exact hjoin)
      rw [draw, take_stored hcut (howner f List.mem_cons_self) (hfresh f List.mem_cons_self) hopen]
      simp only [hrest, Table.erase_put]

end Stage

/-! ### Joining the pieces -/

namespace Ledger

theorem bodies_of_contents {group : Table Text File} {ps : List (Part × Text)}
    (h : ∀ x ∈ ps, ∃ g, group.get? x.1.path.key = some g ∧ g.contents = encode x.2) :
    bodies group (ps.map (·.1)) = .ok (ps.map fun x => decode (encode x.2)) := by
  induction ps with
  | nil => rfl
  | cons x ps ih =>
    obtain ⟨g, hg, hcontents⟩ := h x List.mem_cons_self
    have hrest := ih fun y hy => h y (List.mem_cons_of_mem _ hy)
    simp [bodies, hg, hcontents, hrest, File.text, bind, Except.bind, pure, Except.pure]

/-- Joining a carrier that has not changed with its scripts; what counts is what stands under their
keys, at whatever paths. -/
theorem join_of_contents {sel : Selector} (l : Ledger) {group : Table Text File} {f : File}
    {carrier : Bytes} {ps : List (Part × Text)}
    (hcarrier : ∃ g, group.get? f.path.key = some g ∧ g.contents = carrier)
    (h : ∀ x ∈ ps, ∃ g, group.get? x.1.path.key = some g ∧ g.contents = encode x.2) :
    l.join sel ⟨f.path, carrier, ps.map (·.1)⟩ group =
      .ok (l.forget ⟨f.path, carrier, ps.map (·.1)⟩,
        ⟨f.path, encode (splice (decode carrier) 0 (fillings ps))⟩) := by
  obtain ⟨g, hg, hcontents⟩ := hcarrier
  have hranges : ((ps.map (·.1)).map fun p => (p.offset, p.offset)).zip
      (ps.map fun x => decode (encode x.2)) = fillings ps := by
    rw [List.map_map, List.zip_map']
    rfl
  simp only [join, hg, hcontents, bodies_of_contents h, ranges, if_true, hranges, File.text]

theorem join_of_get? {sel : Selector} (l : Ledger) {group : Table Text File} {f : File}
    {carrier : Bytes} {ps : List (Part × Text)}
    (hcarrier : group.get? f.path.key = some ⟨f.path, carrier⟩)
    (h : ∀ x ∈ ps, group.get? x.1.path.key = some ⟨x.1.path, encode x.2⟩) :
    l.join sel ⟨f.path, carrier, ps.map (·.1)⟩ group =
      .ok (l.forget ⟨f.path, carrier, ps.map (·.1)⟩,
        ⟨f.path, encode (splice (decode carrier) 0 (fillings ps))⟩) :=
  l.join_of_contents ⟨_, hcarrier, rfl⟩ fun x hx => ⟨_, h x hx, rfl⟩

theorem get?_cuts_record (l : Ledger) (c : Cut) : (l.record c).cuts.get? c.path.key = some c := by
  simp [record, Table.get?_put]

theorem owners_record (l : Ledger) (c : Cut) : (l.record c).owners =
    (c.parts.map (·.path.key)).foldl (fun t k => Table.put t k c.path.key) l.owners := by
  rw [List.foldl_map]
  rfl

end Ledger

namespace Stage

variable {l : Ledger} {f : File} {ps : List (Part × Text)} {carrier : Bytes}

/-- Pieces with keys of their own are joined, in whatever order they come. -/
theorem draw_pieces (sel : Selector) {fs : List File} (hperm : fs.Perm (piecesOf f carrier ps))
    (hnodup : ((piecesOf f carrier ps).map (·.path.key)).Nodup)
    (howner : l.owners.get? f.path.key = none) (gs : Groups) (hgs : gs.get? f.path.key = none) :
    draw sel (l.record ⟨f.path, carrier, ps.map (·.1)⟩) gs fs =
      ⟨(l.record ⟨f.path, carrier, ps.map (·.1)⟩).forget ⟨f.path, carrier, ps.map (·.1)⟩,
        gs.erase f.path.key, [], some ⟨f.path, encode (splice (decode carrier) 0 (fillings ps))⟩,
        none⟩ := by
  have hkeys : (fs.map (·.path.key)).Perm ((piecesOf f carrier ps).map (·.path.key)) :=
    hperm.map _
  have hnodup' : (fs.map (·.path.key)).Nodup := hkeys.nodup_iff.2 hnodup
  have hgroup : groupOf gs f.path.key = [] := by simp [groupOf, hgs]
  have hmem : ∀ g ∈ piecesOf f carrier ps, (collect [] fs).get? g.path.key = some g :=
    fun g hg => get?_collect_of_mem hnodup' (hperm.mem_iff.2 hg)
  refine draw_completes (Ledger.get?_cuts_record l _) ?_ ?_ ?_ ?_ hnodup' ?_ ?_
  · intro g hg
    have hkey : g.path.key ∈ f.path.key :: ps.map (·.1.path.key) := by
      rw [← keys_piecesOf f carrier ps]
      exact List.mem_map_of_mem (hperm.mem_iff.1 hg)
    rw [Ledger.owners_record, List.map_map]
    -- A script is owned by the document; the carrier has the key of the document, and nobody owns it.
    by_cases hscript : g.path.key ∈ ps.map (·.1.path.key)
    · exact congrArg (·.getD g.path.key) (Table.get?_foldl_put_of_mem _ hscript)
    · rcases List.mem_cons.1 hkey with h | h
      · refine (congrArg (·.getD g.path.key) (Table.get?_foldl_put_of_not_mem _ hscript)).trans ?_
        rw [h, howner]
        rfl
      · exact absurd h hscript
  · rw [hgroup, hperm.length_eq]
    simp [piecesOf]
  · intro hnil
    rw [hnil, List.nil_perm] at hperm
    simp [piecesOf] at hperm
  · intro g _
    rw [hgroup]
    rfl
  · refine .inr (hkeys.mem_iff.2 ?_)
    rw [keys_piecesOf]
    exact List.mem_cons_self
  · rw [hgroup]
    refine Ledger.join_of_get? _ (hmem _ List.mem_cons_self) fun x hx => ?_
    exact hmem ⟨x.1.path, encode x.2⟩ (List.mem_cons_of_mem _ (List.mem_map_of_mem hx))

theorem takeAll_pieces (sel : Selector) {fs : List File} (hperm : fs.Perm (piecesOf f carrier ps))
    (hnodup : ((piecesOf f carrier ps).map (·.path.key)).Nodup)
    (howner : l.owners.get? f.path.key = none) (gs : Groups) (hgs : gs.get? f.path.key = none) :
    takeAll sel (l.record ⟨f.path, carrier, ps.map (·.1)⟩) gs fs =
      ⟨[⟨f.path, encode (splice (decode carrier) 0 (fillings ps))⟩],
        (l.record ⟨f.path, carrier, ps.map (·.1)⟩).forget ⟨f.path, carrier, ps.map (·.1)⟩,
        gs.erase f.path.key, none⟩ := by
  rw [takeAll_eq, draw_pieces sel hperm hnodup howner gs hgs]
  rfl

/-- **Splitting and rejoining.**  A document whose regions can be located is cut into pieces, and the
untouched pieces, in any order, are joined to the very same document exactly if no region stops
before it starts. -/
theorem rejoinAll_cut_iff (l : Ledger) {sel : Selector} {f : File} {rs : List Region}
    (hp : f.path.isHtml) (hrs : Region.locate sel f.text = .ok rs)
    (howner : l.owners.get? f.path.key = none) :
    ∃ l' pieces, l.cut sel f = .ok (l', pieces) ∧ ∀ fs, fs.Perm pieces →
      ((rejoinAll sel l' fs).passed = [f] ∧ (rejoinAll sel l' fs).fault = none ↔ Forward rs) := by
  obtain ⟨ps, hps, hcut⟩ := l.cut_of_locate hp hrs
  refine ⟨_, _, hcut, fun fs hperm => ?_⟩
  have htext : encode f.text = f.contents := encode_decode f.contents
  have hsplice := encode_splice_fillings_eq_iff (faithful_decode f.contents) hps
    (chain_of_locate hrs)
  have htake := takeAll_pieces sel hperm (nodup_keys_piecesOf hp hps _) howner [] rfl
  simp only [rejoinAll, htake]
  constructor
  · rintro ⟨hpassed, -⟩
    have hcontents := congrArg File.contents (List.cons.inj hpassed).1
    exact hsplice.1 (hcontents.trans htext.symm)
  · intro hforward
    have hcontents := (hsplice.2 hforward).trans htext
    exact ⟨congrArg (fun bytes => [File.mk f.path bytes]) hcontents, rfl⟩

/-- The condition holds of a document with one script. -/
theorem rejoinAll_cut_page : ∃ l' pieces,
    Ledger.empty.cut .usual ⟨"/app/page.html", encode "<script>a</script>"⟩ = .ok (l', pieces) ∧
      (rejoinAll .usual l' pieces.reverse).passed =
        [⟨"/app/page.html", encode "<script>a</script>"⟩] := by
  have hrs : Region.locate .usual (File.text ⟨"/app/page.html", encode "<script>a</script>"⟩) =
      .ok [⟨8, 9, "<script>", "</script>"⟩] := by
    repeat rw [Text.ofString_ofList]
    decide
  obtain ⟨l', pieces, hcut, hall⟩ :=
    rejoinAll_cut_iff Ledger.empty (by decide) hrs rfl
  have hforward : Forward [⟨8, 9, "<script>", "</script>"⟩] := by simp [Forward]
  exact ⟨l', pieces, hcut, ((hall _ pieces.reverse_perm).2 hforward).1⟩

/-- A self-closing element stands twice in the document that is joined. -/
theorem rejoinAll_cut_selfClosing :
    Path.isHtml "/app/page.html" ∧
    (∃ rs, Region.locate .usual (File.text ⟨"/app/page.html", encode "<script/>"⟩) = .ok rs) ∧
    ∃ l' pieces,
      Ledger.empty.cut .usual ⟨"/app/page.html", encode "<script/>"⟩ = .ok (l', pieces) ∧
        (rejoinAll .usual l' pieces).passed =
          [⟨"/app/page.html", encode "<script/><script/>"⟩] ∧
        (rejoinAll .usual l' pieces).passed ≠ [⟨"/app/page.html", encode "<script/>"⟩] := by
  refine ⟨by decide, ⟨[⟨9, 0, "<script/>", "<script/>"⟩], ?_⟩,
    Ledger.empty.record ⟨"/app/page.html", encode "<script/><script/>",
      [⟨"/app/page.html_script_0.js", 9, "<script/>", "<script/>"⟩]⟩,
    [⟨"/app/page.html", encode "<script/><script/>"⟩, ⟨"/app/page.html_script_0.js", []⟩], ?_, ?_, ?_⟩
  · repeat rw [Text.ofString_ofList]
    decide
  · repeat rw [Text.ofString_ofList]
    decide
  · repeat rw [Text.ofString_ofList]
    decide
  · repeat rw [Text.ofString_ofList]
    decide

end Stage
end HtmlDeps
