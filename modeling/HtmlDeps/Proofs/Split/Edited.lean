import HtmlDeps.Proofs.Split.RoundTrip

/-!
# Documents with edited scripts

Whatever is written into the scripts that were cut out of a document, it comes to stand in the document
where the scripts were, byte for byte, and nothing else changes (`Stage.rejoinAll_edited`).  Ranges
of glyphs become ranges of bytes by the size of the text in front of their ends.

This is the way of `join_files` for an unmodified carrier, which is “spliced by recorded offset”.
-/

namespace HtmlDeps

open Text Region

/-- The bytes from `cursor` on, with each range replaced by other bytes. -/
def overwrite (bs : Bytes) (cursor : Nat) : List ((Nat × Nat) × Bytes) → Bytes
  | [] => bs.drop cursor
  | ((start, stop), new) :: rest => (bs.take start).drop cursor ++ new ++ overwrite bs stop rest

/-- The range of the bytes of a region's body. -/
def Region.byteSpan (t : Text) (r : Region) : Nat × Nat :=
  (size (t.take r.start), size (t.take r.stop))

/-- Scripts with other contents. -/
def edited (scripts : List File) (contents : List Bytes) : List File :=
  scripts.zipWith (fun f bytes => { f with contents := bytes }) contents

/-! ### Glyphs and bytes -/

namespace Text

theorem encode_take (t : Text) (n : Nat) :
    encode (t.take n) = (encode t).take (size (t.take n)) := by
  have hsplit : encode t = encode (t.take n) ++ encode (t.drop n) := by
    rw [← encode_append, List.take_append_drop]
  rw [hsplit, size, List.take_left]

theorem encode_drop (t : Text) (n : Nat) :
    encode (t.drop n) = (encode t).drop (size (t.take n)) := by
  have hsplit : encode t = encode (t.take n) ++ encode (t.drop n) := by
    rw [← encode_append, List.take_append_drop]
  rw [hsplit, size, List.drop_left]

theorem encode_drop_take {m n : Nat} (h : m ≤ n) (t : Text) :
    encode ((t.take n).drop m) = ((encode t).take (size (t.take n))).drop (size (t.take m)) := by
  rw [encode_drop, encode_take, List.take_take, Nat.min_eq_left h]

end Text

/-- New texts in the place of the bodies, in glyphs and in bytes. -/
theorem encode_splice_spans {t : Text} {lo : Nat} {rs : List Region} (hchain : Chain t lo rs)
    {cursor : Nat} (hcursor : cursor ≤ lo) {bodies : List Text} (hlength : bodies.length = rs.length) :
    encode (splice t cursor ((spans rs).zip bodies)) =
      overwrite (encode t) (size (t.take cursor))
        ((rs.map (·.byteSpan t)).zip (bodies.map encode)) := by
  induction rs generalizing lo cursor bodies with
  | nil => exact encode_drop t cursor
  | cons r rs ih =>
    obtain ⟨body, bodies, rfl⟩ := List.exists_cons_of_length_eq_add_one hlength
    have hstart : cursor ≤ r.start := Nat.le_trans hcursor (Nat.le_of_lt hchain.1.lt_start)
    have hrest := ih hchain.2 (Nat.le_max_right _ _) (Nat.succ.inj hlength)
    rw [spans] at hrest
    simp only [spans, List.map_cons, List.zip_cons_cons, splice, overwrite, encode_append]
    rw [hrest, encode_drop_take hstart]
    rfl

/-! ### Pieces with other scripts -/

section

variable {ps : List (Part × Text)} {contents : List Bytes}

/-- The scripts with other texts. -/
def rewritten (ps : List (Part × Text)) (contents : List Bytes) : List (Part × Text) :=
  (ps.map (·.1)).zip (contents.map decode)

theorem parts_rewritten (h : contents.length = ps.length) :
    (rewritten ps contents).map (·.1) = ps.map (·.1) := by
  rw [rewritten, List.map_fst_zip]
  rw [List.length_map, List.length_map, h]

theorem edited_eq (ps : List (Part × Text)) (contents : List Bytes) :
    edited (ps.map fun x => ⟨x.1.path, encode x.2⟩) contents =
      (rewritten ps contents).map fun x => ⟨x.1.path, encode x.2⟩ := by
  induction ps generalizing contents with
  | nil => rfl
  | cons x ps ih =>
    cases contents with
    | nil => rfl
    | cons bytes contents =>
      simp only [rewritten, edited, List.map_cons, List.zipWith_cons_cons, List.zip_cons_cons] at ih ⊢
      rw [ih, encode_decode]

theorem fillings_rewritten (ps : List (Part × Text)) (contents : List Bytes) :
    fillings (rewritten ps contents) = (seams ps).zip (contents.map decode) := by
  induction ps generalizing contents with
  | nil => rfl
  | cons x ps ih =>
    cases contents with
    | nil => rfl
    | cons bytes contents =>
      simp only [rewritten, fillings, seams, List.map_cons, List.zip_cons_cons] at ih ⊢
      rw [ih, encode_decode]

/-- Other texts leave the keys of the scripts as they are. -/
theorem keys_rewritten (h : contents.length = ps.length) :
    (rewritten ps contents).map (·.1.path.key) = ps.map (·.1.path.key) := by
  have := congrArg (List.map (·.path.key)) (parts_rewritten h)
  rwa [List.map_map, List.map_map] at this

theorem nodup_keys_rewritten {f : File} {t : Text} {rs : List Region} (hp : f.path.isHtml)
    (hps : partsOf f.path t 0 0 rs = .ok ps) (h : contents.length = ps.length) (carrier : Bytes) :
    ((piecesOf f carrier (rewritten ps contents)).map (·.path.key)).Nodup := by
  rw [keys_piecesOf, keys_rewritten h, ← keys_piecesOf f carrier]
  exact nodup_keys_piecesOf hp hps carrier

end

/-- The edited scripts come to stand where the regions were. -/
theorem encode_splice_rewritten {f : File} {rs : List Region} {ps : List (Part × Text)}
    (h : partsOf f.path f.text 0 0 rs = .ok ps) (hchain : Chain f.text 0 rs) (hforward : Forward rs)
    {contents : List Bytes} (hlength : contents.length = rs.length) :
    encode (splice (decode (encode (remainder f.text 0 rs))) 0 (fillings (rewritten ps contents))) =
      overwrite f.contents 0 ((rs.map (·.byteSpan f.text)).zip contents) := by
  have hpre : ([] : Text).length + 0 = 0 := rfl
  have htexts : (contents.map decode).length = rs.length := by rw [List.length_map, hlength]
  have hbytes : (contents.map decode).map encode = contents := by
    rw [List.map_map, ← List.map_id contents, List.map_map]
    exact List.map_congr_left fun bytes _ => encode_decode bytes
  have hsplice := splice_remainder h hchain hforward htexts (Nat.le_refl 0) hpre
  have hspans := encode_splice_spans hchain (Nat.le_refl 0) htexts
  have htext : encode f.text = f.contents := encode_decode f.contents
  rw [hbytes, htext] at hspans
  have hcarrier : Faithful (remainder f.text 0 rs) :=
    faithful_remainder (faithful_decode f.contents) hchain (Nat.le_refl 0)
  rw [hcarrier, fillings_rewritten]
  exact (congrArg encode hsplice).trans hspans

namespace Stage

/-- **Editing.**  A document whose regions are all forward is cut into a carrier and scripts.  For any
new contents of the scripts, the carrier and the edited scripts, in any order, are joined to the one
document that has the new contents in the place of the old ones. -/
theorem rejoinAll_edited (l : Ledger) {sel : Selector} {f : File} {rs : List Region}
    (hp : f.path.isHtml) (hrs : Region.locate sel f.text = .ok rs) (hforward : Forward rs)
    (howner : l.owners.get? f.path.key = none) :
    ∃ l' carrier scripts, l.cut sel f = .ok (l', carrier :: scripts) ∧
      scripts.length = rs.length ∧
      ∀ contents : List Bytes, contents.length = rs.length →
        ∀ fs : List File, fs.Perm (carrier :: edited scripts contents) →
          (rejoinAll sel l' fs).passed =
              [⟨f.path, overwrite f.contents 0 ((rs.map (·.byteSpan f.text)).zip contents)⟩] ∧
            (rejoinAll sel l' fs).fault = none := by
  obtain ⟨ps, hps, hcut⟩ := l.cut_of_locate hp hrs
  have hlength : ps.length = rs.length := by
    have := congrArg List.length (bodies_partsOf hps)
    simpa using this
  refine ⟨_, _, _, hcut, by rw [List.length_map, hlength], fun contents hcontents fs hperm => ?_⟩
  have hcount := hcontents.trans hlength.symm
  rw [edited_eq] at hperm
  change fs.Perm (piecesOf f _ (rewritten ps contents)) at hperm
  have hnodup := nodup_keys_rewritten hp hps hcount (encode (remainder f.text 0 rs))
  have htake := takeAll_pieces sel hperm hnodup howner [] rfl
  rw [encode_splice_rewritten hps (chain_of_locate hrs) hforward hcontents,
    parts_rewritten hcount] at htake
  rw [rejoinAll, htake]
  exact ⟨rfl, rfl⟩

/-- A script gets a byte for its contents that is no text. -/
theorem rejoinAll_edited_page : ∃ l' carrier scripts,
    Ledger.empty.cut .usual ⟨"/app/page.html", encode "<script>a</script>"⟩ =
        .ok (l', carrier :: scripts) ∧
      (rejoinAll .usual l' (edited scripts [[255]] ++ [carrier])).passed =
        [⟨"/app/page.html", encode "<script>" ++ 255 :: encode "</script>"⟩] := by
  have hrs : Region.locate .usual (File.text ⟨"/app/page.html", encode "<script>a</script>"⟩) =
      .ok [⟨8, 9, "<script>", "</script>"⟩] := by
    repeat rw [Text.ofString_ofList]
    decide
  have hforward : Forward [⟨8, 9, "<script>", "</script>"⟩] := by simp [Forward]
  obtain ⟨l', carrier, scripts, hcut, -, hall⟩ :=
    rejoinAll_edited Ledger.empty (by decide) hrs hforward rfl
  have hperm : (edited scripts [[255]] ++ [carrier]).Perm (carrier :: edited scripts [[255]]) :=
    List.perm_append_singleton _ _
  obtain ⟨hpassed, -⟩ := hall [[255]] rfl _ hperm
  refine ⟨l', carrier, scripts, hcut, hpassed.trans ?_⟩
  repeat rw [Text.ofString_ofList]
  decide

end Stage
end HtmlDeps
