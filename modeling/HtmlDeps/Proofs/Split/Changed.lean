import HtmlDeps.Proofs.Split.Edited

/-!
# Carriers that were changed

Between the two stages a carrier may be rewritten in any way.  It is searched for regions anew, and the
scripts take the places of the bodies that are found, whatever stands in them: the text between the
regions is the carrier's own, byte for byte (`Ledger.join_changed`).  Only the number of the regions
can be in the way.

This is the way of `join_files` for a carrier whose digest is not the recorded one: “a modified carrier is
re-scanned with the same boundary and must expose the same number of regions”.
-/

namespace HtmlDeps

open Text Region

/-! ### What stands between ranges -/

/-- The bytes from `cursor` on that lie before, between and behind ranges. -/
def gaps (bs : Bytes) (cursor : Nat) : List (Nat × Nat) → List Bytes
  | [] => [bs.drop cursor]
  | (start, stop) :: ranges => (bs.take start).drop cursor :: gaps bs stop ranges

/-- Pieces in turn: a gap, a filling, a gap, and so on, with a gap at either end. -/
def weave : List Bytes → List Bytes → Bytes
  | gap :: gaps, filling :: fillings => gap ++ filling ++ weave gaps fillings
  | gaps, _ => gaps.flatten

/-- Overwriting ranges keeps the gaps and changes the fillings. -/
theorem overwrite_eq_weave (bs : Bytes) {ranges : List (Nat × Nat)} {news : List Bytes}
    (h : news.length = ranges.length) (cursor : Nat) :
    overwrite bs cursor (ranges.zip news) = weave (gaps bs cursor ranges) news := by
  induction ranges generalizing news cursor with
  | nil =>
    obtain rfl := List.length_eq_zero_iff.1 h
    simp [overwrite, gaps, weave]
  | cons range ranges ih =>
    obtain ⟨new, news, rfl⟩ := List.exists_cons_of_length_eq_add_one h
    have hrest := ih (Nat.succ.inj h) range.2
    simp only [List.zip_cons_cons, overwrite, gaps, weave, hrest]

/-- What lies around the bodies of regions. -/
def Region.gaps (f : File) (rs : List Region) : List Bytes :=
  HtmlDeps.gaps f.contents 0 (rs.map (·.byteSpan f.text))

section

variable {f : File} {rs : List Region}

/-- Texts in the place of the bodies stand between the same gaps. -/
theorem encode_splice_eq_weave (hchain : Chain f.text 0 rs) {bodies : List Text}
    (hlength : bodies.length = rs.length) :
    encode (splice f.text 0 ((spans rs).zip bodies)) = weave (Region.gaps f rs) (bodies.map encode) := by
  have hcontents : encode f.text = f.contents := encode_decode f.contents
  rw [encode_splice_spans hchain (Nat.le_refl 0) hlength, hcontents]
  apply overwrite_eq_weave
  rw [List.length_map, List.length_map, hlength]

/-- A document whose regions are forward is made of the gaps and the bodies. -/
theorem weave_bodies (hchain : Chain f.text 0 rs) (hforward : Forward rs) :
    weave (Region.gaps f rs) (rs.map fun r => encode (r.body f.text)) = f.contents := by
  have hbodies : (rs.map (·.body f.text)).map encode = rs.map fun r => encode (r.body f.text) := by
    rw [List.map_map]
    rfl
  rw [← hbodies, ← encode_splice_eq_weave hchain (List.length_map _),
    splice_bodies hchain hforward (Nat.le_refl 0), List.drop_zero]
  exact encode_decode f.contents

end

/-! ### Joining -/

namespace Ledger

variable {sel : Selector} {l : Ledger} {c : Cut} {group : Table Text File} {carrier : File}
  {scripts : List File} {rs : List Region}

theorem bodies_of_forall₂ {ps : List Part}
    (h : List.Forall₂ (fun p f => group.get? p.path.key = some f) ps scripts) :
    bodies group ps = .ok (scripts.map (·.text)) := by
  induction h with
  | nil => rfl
  | cons hget hrest ih => simp [bodies, hget, ih, bind, Except.bind, pure, Except.pure]

/-- **A carrier that was changed** is joined by its own regions.  The join fails exactly if they are
not as many as were cut out.  Otherwise the scripts stand, at the path of the document, in the gaps
between the carrier's own bodies; these gaps and those bodies make up the carrier if no region stops
before it starts. -/
theorem join_changed (l : Ledger) (hcarrier : group.get? c.path.key = some carrier)
    (hscripts : List.Forall₂ (fun p f => group.get? p.path.key = some f) c.parts scripts)
    (hchanged : carrier.contents ≠ c.carrier) (hrs : Region.locate sel carrier.text = .ok rs) :
    (l.join sel c group = .error (.regionCount c.path rs.length c.parts.length) ↔
      rs.length ≠ c.parts.length) ∧
    (rs.length = c.parts.length → l.join sel c group =
      .ok (l.forget c, ⟨c.path, weave (Region.gaps carrier rs) (scripts.map (·.contents))⟩)) ∧
    (Forward rs →
      carrier.contents = weave (Region.gaps carrier rs) (rs.map fun r => encode (r.body carrier.text))) := by
  have hbodies := bodies_of_forall₂ hscripts
  have hcount : c.parts.length = scripts.length := hscripts.length_eq
  refine ⟨?_, ?_, ?_⟩
  · constructor
    · intro hjoin hlength
      simp [join, hcarrier, hbodies, ranges, hchanged, hrs, hlength] at hjoin
    · intro hne
      simp [join, hcarrier, hbodies, ranges, hchanged, hrs, hne]
  · intro hlength
    have hranges : ranges sel c carrier = .ok (spans rs) := by
      simp [ranges, hchanged, hrs, hlength, spans]
    have htexts : (scripts.map (·.text)).length = rs.length := by
      rw [List.length_map, hlength, hcount]
    have hcontents : (scripts.map (·.text)).map encode = scripts.map (·.contents) := by
      rw [List.map_map]
      exact List.map_congr_left fun f _ => encode_decode f.contents
    have hweave := encode_splice_eq_weave (chain_of_locate hrs) htexts
    rw [hcontents] at hweave
    simp only [join, hcarrier, hbodies, hranges, hweave]
  · intro hforward
    exact (weave_bodies (chain_of_locate hrs) hforward).symm

/-- A page whose script got an attribute and another text while it was out: the text is replaced, the
attribute stays. -/
theorem join_changed_page :
    ∃ l c pieces, Ledger.empty.cut .usual ⟨"/app/page.html", encode "<script>a</script>"⟩ =
        .ok (l, pieces) ∧
      l.cuts.get? "/app/page.html" = some c ∧
      l.join .usual c
          [("/app/page.html", ⟨"/app/page.html", encode "<p><script async>old</script></p>"⟩),
            ("/app/page.html_script_0.js", ⟨"/app/page.html_script_0.js", encode "new"⟩)] =
        .ok (l.forget c, ⟨"/app/page.html", encode "<p><script async>new</script></p>"⟩) := by
  let c : Cut := ⟨"/app/page.html", encode "<script></script>",
    [⟨"/app/page.html_script_0.js", 8, "<script>", "</script>"⟩]⟩
  let group : Table Text File :=
    [("/app/page.html", ⟨"/app/page.html", encode "<p><script async>old</script></p>"⟩),
      ("/app/page.html_script_0.js", ⟨"/app/page.html_script_0.js", encode "new"⟩)]
  have hcut : Ledger.empty.cut .usual ⟨"/app/page.html", encode "<script>a</script>"⟩ =
      .ok (Ledger.empty.record c, [⟨"/app/page.html", encode "<script></script>"⟩,
        ⟨"/app/page.html_script_0.js", encode "a"⟩]) := by
    repeat rw [Text.ofString_ofList]
    decide
  have hcarrier : group.get? c.path.key =
      some ⟨"/app/page.html", encode "<p><script async>old</script></p>"⟩ := by
    repeat rw [Text.ofString_ofList]
    decide
  have hscript : group.get? (Path.key "/app/page.html_script_0.js") =
      some ⟨"/app/page.html_script_0.js", encode "new"⟩ := by
    repeat rw [Text.ofString_ofList]
    decide
  have hrs : Region.locate .usual
      (File.text ⟨"/app/page.html", encode "<p><script async>old</script></p>"⟩) =
        .ok [⟨17, 20, "<script async>", "</script>"⟩] := by
    repeat rw [Text.ofString_ofList]
    decide
  have hchanged : encode "<p><script async>old</script></p>" ≠ encode "<script></script>" := by
    repeat rw [Text.ofString_ofList]
    decide
  obtain ⟨-, hjoin, -⟩ := join_changed (Ledger.empty.record c) hcarrier
    (.cons hscript .nil) hchanged hrs
  refine ⟨_, c, _, hcut, get?_cuts_record _ c, (hjoin rfl).trans ?_⟩
  repeat rw [Text.ofString_ofList]
  decide

end Ledger
end HtmlDeps
