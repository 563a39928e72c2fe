import HtmlDeps.Proofs.Split.Carrier
import HtmlDeps.Proofs.Split.RoundTrip

/-!
# Searching the carrier

A carrier that has changed is searched for regions.  The same search of an unchanged carrier finds
the recorded offsets, so that both ways of joining agree, as long as the regions of the document are
found before its end is known (`Ledger.rescan_agrees`).  A scan that waits does so for want of
something in all the text behind, and the bodies may hold just that.

These are the two ways of `join_files`, by the offsets of a `SplitPart` and by `locate_regions`.
-/

namespace HtmlDeps

open Text

namespace Region

variable {sel : Selector} {raw' : Option Text} {text : Text} {p : Position} {ts : List Token}

/-- The regions that are found before the end of the document is known. -/
def fed (sel : Selector) (t : Text) : List Region :=
  ofTokens sel t none ((Scanner.start .kept).feed t).tokens

/-- The tokens that a scan makes of the text from where it waits. -/
def leftover (raw : Option Text) (rest : Text) : Except MarkupFault (List Token) :=
  match (Scanner.pass .kept false raw rest).stop with
  | .error f => .error f
  | .ok (raw', last) =>
    (Scanner.finalPass .kept raw' last).stop.map fun _ =>
      (Scanner.pass .kept false raw rest).tokens ++ (Scanner.finalPass .kept raw' last).tokens

theorem locate_of_reads {t rest : Text} (hread : Reads none t ts raw' rest) :
    locate sel t = (leftover raw' rest).map fun us =>
      ofTokens sel t none (Located.of .start (ts ++ us)) := by
  have hpass := hread.pass_eq
  simp only [locate, locateWith, Scanner.scan, Scanner.feedAll, Scanner.feed, Scanner.start,
    Scanner.resume, List.nil_append, hpass, leftover]
  cases (Scanner.pass .kept false raw' rest).stop with
  | error f => rfl
  | ok stop =>
    obtain ⟨raw'', last⟩ := stop
    simp only [Except.map, Scanner.close, Scanner.resume]
    cases (Scanner.finalPass .kept raw'' last).stop with
    | error f => rfl
    | ok _ =>
      simp only [← List.append_assoc, Located.of_append]
      rfl

/-- Tokens without an event add nothing. -/
theorem ofTokens_append_content {us : List Token} (h : ∀ k ∈ us, k.event = .content)
    (o : Option Opening) :
    ofTokens sel text o (Located.of p (ts ++ us)) = ofTokens sel text o (Located.of p ts) := by
  induction ts generalizing o p with
  | nil =>
    induction us generalizing p with
    | nil => rfl
    | cons k us ih =>
      simp only [List.nil_append, Located.of, ofTokens, h k List.mem_cons_self] at ih ⊢
      exact ih fun k hk => h k (List.mem_cons_of_mem _ hk)
  | cons k ts ih => simp only [List.cons_append, Located.of, ofTokens, ih]

theorem fed_of_reads {t rest : Text} (hread : Reads none t ts raw' rest)
    (hcontent : ∀ k ∈ (Scanner.pass .kept false raw' rest).tokens, k.event = .content) :
    fed sel t = ofTokens sel t none (Located.of .start ts) := by
  simp only [fed, Scanner.feed, Scanner.start, Scanner.resume, List.nil_append, hread.pass_eq]
  exact ofTokens_append_content hcontent none

/-- **Searching the carrier** finds the regions where the scripts belong, and they are empty, if the
regions of the document are forward and found before its end is known. -/
theorem locate_remainder {path : Path} {t : Text} {rs : List Region} {ps : List (Part × Text)}
    (hrs : locate sel t = .ok rs) (hfed : fed sel t = rs) (hforward : Forward rs) {index : Nat}
    (hparts : partsOf path t index 0 rs = .ok ps) :
    ∃ found, locate sel (remainder t 0 rs) = .ok found ∧ spans found = seams ps := by
  obtain ⟨ts, raw', rest, hread, hcontent⟩ := Reads.exists_of_pass none t
  rw [fed_of_reads hread hcontent] at hfed
  rw [locate_of_reads hread] at hrs
  cases hleft : leftover raw' rest with
  | error f =>
    rw [hleft] at hrs
    cases hrs
  | ok us =>
    rw [hleft] at hrs
    have hall := Except.ok.inj hrs
    have hlayout := layout_of_reads (p := .start) hread (Nat.zero_le _) hfed hall hforward
    obtain ⟨vs, hvs, hspans⟩ := hlayout.exists_reads (by simp) hforward hparts
    have hvs : Reads none (remainder t 0 rs) vs raw' rest := hvs
    refine ⟨_, ?_, hspans (remainder t 0 rs) .start rfl⟩
    rw [locate_of_reads hvs, hleft]
    rfl

end Region

namespace Ledger

/-- The ranges that a search of the carrier finds are the recorded ones. -/
theorem ranges_congr {sel : Selector} {c : Cut} {carrier : File} {found : List Region}
    (hcarrier : carrier.contents = c.carrier)
    (hfound : Region.locate sel carrier.text = .ok found)
    (hspans : spans found = c.parts.map fun p => (p.offset, p.offset)) (other : Bytes) :
    ranges sel { c with carrier := other } carrier = ranges sel c carrier := by
  have hlength : found.length = c.parts.length := by
    have := congrArg List.length hspans
    rwa [spans, List.length_map, List.length_map] at this
  have hrecorded : ranges sel c carrier = .ok (c.parts.map fun p => (p.offset, p.offset)) :=
    if_pos hcarrier
  rw [hrecorded]
  by_cases hother : carrier.contents = other
  · exact if_pos hother
  · simp only [ranges, if_neg hother, hfound, if_pos hlength]
    exact congrArg Except.ok hspans

/-- **Both ways of joining agree.**  Let the regions of a document be forward and found before its end
is known.  Then a search of its carrier finds a region for every script, empty and at the recorded
offset, and the carrier takes its scripts back alike by the recorded offsets and by a search, which
the record of another carrier would lead to. -/
theorem rescan_agrees (l : Ledger) {sel : Selector} {f : File} {rs : List Region}
    (hp : f.path.isHtml) (hrs : Region.locate sel f.text = .ok rs) (hforward : Forward rs)
    (hfed : Region.fed sel f.text = rs) :
    ∃ c scripts, l.cut sel f = .ok (l.record c, ⟨f.path, c.carrier⟩ :: scripts) ∧
      (∃ found, Region.locate sel (decode c.carrier) = .ok found ∧ found.length = rs.length ∧
        (∀ r ∈ found, r.body (decode c.carrier) = []) ∧
        spans found = c.parts.map fun p => (p.offset, p.offset)) ∧
      ∀ (l' : Ledger) (group : Table Text File) (carrier : File),
        group.get? c.path.key = some carrier → carrier.contents = c.carrier →
        ∀ other : Bytes, l'.join sel { c with carrier := other } group = l'.join sel c group := by
  obtain ⟨ps, hps, hcut⟩ := l.cut_of_locate hp hrs
  have hcarrier : decode (encode (remainder f.text 0 rs)) = remainder f.text 0 rs :=
    faithful_remainder (faithful_decode f.contents) (Region.chain_of_locate hrs) (Nat.le_refl 0)
  obtain ⟨found, hfound, hspans⟩ := Region.locate_remainder hrs hfed hforward hps
  have hseams : spans found = (ps.map (·.1)).map fun p => (p.offset, p.offset) := by
    rw [hspans, seams, List.map_map]
    rfl
  have hlength : found.length = rs.length := by
    have hfoundLength := congrArg List.length hspans
    have hparts := congrArg List.length (bodies_partsOf hps)
    rw [spans, seams, List.length_map, List.length_map] at hfoundLength
    rw [List.length_map, List.length_map] at hparts
    exact hfoundLength.trans hparts
  refine ⟨_, _, hcut, ⟨found, ?_, hlength, ?_, hseams⟩, ?_⟩
  · rw [hcarrier]
    exact hfound
  · intro r hr
    have hmem : (r.start, r.stop) ∈ spans found := List.mem_map_of_mem hr
    rw [hspans] at hmem
    obtain ⟨x, -, hx⟩ := List.mem_map.1 hmem
    obtain ⟨hstart, hstop⟩ := Prod.mk.inj hx
    rw [Region.body, ← hstart, ← hstop]
    exact List.drop_eq_nil_of_le (List.length_take_le _ _)
  · intro l' group carrier hget hcontents other
    have htext : Region.locate sel carrier.text = .ok found := by
      rw [File.text, hcontents, hcarrier]
      exact hfound
    have hranges := ranges_congr (c := ⟨f.path, encode (remainder f.text 0 rs), ps.map (·.1)⟩)
      hcontents htext hseams other
    simp only at hget
    simp only [join, hget, hranges]
    rfl

/-- The carrier of a document with one script. -/
theorem rescan_agrees_page : ∃ c scripts found,
    Ledger.empty.cut .usual ⟨"/app/page.html", encode "<script>a</script>"⟩ =
        .ok (Ledger.empty.record c, ⟨"/app/page.html", c.carrier⟩ :: scripts) ∧
      Region.locate .usual (decode c.carrier) = .ok found ∧ found.length = 1 ∧
      ∀ r ∈ found, r.body (decode c.carrier) = [] := by
  have hrs : Region.locate .usual (File.text ⟨"/app/page.html", encode "<script>a</script>"⟩) =
      .ok [⟨8, 9, "<script>", "</script>"⟩] := by
    repeat rw [Text.ofString_ofList]
    decide
  have hfed : Region.fed .usual (File.text ⟨"/app/page.html", encode "<script>a</script>"⟩) =
      [⟨8, 9, "<script>", "</script>"⟩] := by
    repeat rw [Text.ofString_ofList]
    decide
  have hforward : Forward [⟨8, 9, "<script>", "</script>"⟩] := by simp [Forward]
  obtain ⟨c, scripts, hcut, ⟨found, hfound, hlength, hempty, -⟩, -⟩ :=
    rescan_agrees Ledger.empty (by decide) hrs hforward hfed
  exact ⟨c, scripts, found, hcut, hfound, hlength, hempty⟩

/-- A semicolon in a body keeps the scan going behind a stray `&#` in front of the script.  Without
the body the scan stops there, and a search of the carrier finds no region. -/
theorem not_rescan_agrees_reference :
    Path.isHtml "/app/page.html" ∧
    Region.locate .usual (File.text ⟨"/app/page.html", encode "&#<script>;</script>"⟩) =
        .ok [⟨10, 11, "<script>", "</script>"⟩] ∧
    ∃ c scripts,
      Ledger.empty.cut .usual ⟨"/app/page.html", encode "&#<script>;</script>"⟩ =
          .ok (Ledger.empty.record c, ⟨"/app/page.html", c.carrier⟩ :: scripts) ∧
        Region.locate .usual (decode c.carrier) = .ok [] ∧
        ranges .usual c ⟨"/app/page.html", c.carrier⟩ = .ok [(10, 10)] ∧
        ranges .usual { c with carrier := [] } ⟨"/app/page.html", c.carrier⟩ =
          .error (.regionCount "/app/page.html" 0 1) := by
  refine ⟨by decide, by decide +kernel,
    ⟨"/app/page.html", encode "&#<script></script>",
      [⟨"/app/page.html_script_0.js", 10, "<script>", "</script>"⟩]⟩,
    [⟨"/app/page.html_script_0.js", encode ";"⟩], ?_, ?_, ?_, ?_⟩
  · repeat rw [Text.ofString_ofList]
    decide +kernel
  · repeat rw [Text.ofString_ofList]
    decide +kernel
  · repeat rw [Text.ofString_ofList]
    decide +kernel
  · repeat rw [Text.ofString_ofList]
    decide +kernel

end Ledger
end HtmlDeps
