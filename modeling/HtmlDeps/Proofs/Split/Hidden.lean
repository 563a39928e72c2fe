import HtmlDeps.Proofs.Markup.Passes
import HtmlDeps.Proofs.Split.Exact

/-!
# Hidden regions

Regions are searched with references kept, and documents are read with references resolved.  Both find the same
regions if no stray `&#` stands in the document.  In any case the search finds all regions that stop in front of
what it forgoes, and no others (`Region.locate_eq_filter`).  Two stray references hide all scripts behind them, and
so does one with no semicolon behind (`Region.hidden_behind_stray`).

The full specification asks that “each inline region's body is cut out of the carrier”; the search is that
of `_RegionLocator`.
-/

namespace HtmlDeps
namespace Region

open Scanner Token

variable {sel : Selector} {text t : Text} {o : Option Opening} {r : Region} {rs : List Region} {xs : List Located}

/-! ### Regions and marks -/

/-- A mark, as a token at a place in the first line. -/
def atMark (x : Nat × Token) : Located := ⟨⟨x.1, 0, 0⟩, x.2⟩

/-- Regions depend on marks alone. -/
theorem ofTokens_eq_marks (sel : Selector) (text : Text) (o : Option Opening) (p : Position) (ts : List Token) :
    ofTokens sel text o (Located.of p ts) = ofTokens sel text o ((marks p.offset ts).map atMark) := by
  induction ts generalizing o p with
  | nil => rfl
  | cons k ts ih =>
    have htail (o : Option Opening) : ofTokens sel text o (Located.of (p.advance k.source) ts) =
        ofTokens sel text o ((marks (p.offset + k.source.length) ts).map atMark) := by
      rw [ih, Position.offset_advance]
    rw [Located.of, marks]
    split
    · rename_i he
      simp only [ofTokens, he, htail]
    · simp only [List.map_cons, atMark, ofTokens, opened, htail]

theorem stop_of_closed? {n : Nat} {name : Text} (h : closed? sel text n name o = some r) : r.stop = n := by
  cases o with
  | none => cases h
  | some x =>
    simp only [closed?] at h
    split at h
    · rw [← Option.some.inj h]
    · cases h

/-- A token makes one region at most, which stops where it begins, and leaves another open or none. -/
theorem exists_ofTokens_cons (sel : Selector) (text : Text) (o : Option Opening) (x : Located) :
    ∃ (made : Option Region) (o' : Option Opening), (∀ r ∈ made, r.stop = x.position.offset) ∧
      ∀ ys, ofTokens sel text o (x :: ys) = made.toList ++ ofTokens sel text o' ys := by
  cases he : x.token.event with
  | content => exact ⟨none, o, nofun, fun ys => by simp only [ofTokens, he, Option.toList_none, List.nil_append]⟩
  | closed name =>
    cases hr : closed? sel text x.position.offset name o with
    | none => exact ⟨none, o, nofun, fun ys => by simp only [ofTokens, he, hr, Option.toList_none, List.nil_append]⟩
    | some r =>
      refine ⟨some r, none, fun r' hr' => ?_, fun ys => by simp only [ofTokens, he, hr]; rfl⟩
      rw [← Option.some.inj hr', stop_of_closed? hr]
  | opened tag =>
    cases hself : tag.selfClosing with
    | false =>
      exact ⟨none, opened sel x tag o, nofun, fun ys => by simp only [ofTokens, he, hself]; rfl⟩
    | true =>
      cases hr : closed? sel text x.position.offset tag.name (opened sel x tag o) with
      | none => exact ⟨none, opened sel x tag o, nofun, fun ys => by simp only [ofTokens, he, hself, hr]; rfl⟩
      | some r =>
        refine ⟨some r, none, fun r' hr' => ?_, fun ys => by simp only [ofTokens, he, hself, hr]; rfl⟩
        rw [← Option.some.inj hr', stop_of_closed? hr]

/-- What tokens leave open for those behind them. -/
theorem exists_ofTokens_append (sel : Selector) (text : Text) (o : Option Opening) (xs : List Located) :
    ∃ o', ∀ ys, ofTokens sel text o (xs ++ ys) = ofTokens sel text o xs ++ ofTokens sel text o' ys := by
  induction xs generalizing o with
  | nil => exact ⟨o, fun ys => rfl⟩
  | cons x xs ih =>
    obtain ⟨made, o', -, hcons⟩ := exists_ofTokens_cons sel text o x
    obtain ⟨o'', happend⟩ := ih o'
    exact ⟨o'', fun ys => by rw [List.cons_append, hcons, hcons, happend, List.append_assoc]⟩

/-- A region stops where a token begins. -/
theorem exists_of_mem_ofTokens (h : r ∈ ofTokens sel text o xs) : ∃ x ∈ xs, r.stop = x.position.offset := by
  induction xs generalizing o with
  | nil => cases h
  | cons x xs ih =>
    obtain ⟨made, o', hmade, hcons⟩ := exists_ofTokens_cons sel text o x
    rw [hcons] at h
    rcases List.mem_append.1 h with h | h
    · exact ⟨x, List.mem_cons_self, hmade r (Option.mem_toList.1 h)⟩
    · obtain ⟨y, hy, hstop⟩ := ih h
      exact ⟨y, List.mem_cons_of_mem x hy, hstop⟩

theorem exists_mark_of_mem {ms : List (Nat × Token)} (h : r ∈ ofTokens sel text o (ms.map atMark)) :
    ∃ x ∈ ms, r.stop = x.1 := by
  obtain ⟨y, hy, hstop⟩ := exists_of_mem_ofTokens h
  obtain ⟨x, hx, rfl⟩ := List.mem_map.1 hy
  exact ⟨x, hx, hstop⟩

/-! ### What both scans find -/

variable {refs : References} {raw : Option Text} {rest : Text} {ts : List Token}

/-- The regions that marks make. -/
def ofMarks (sel : Selector) (t : Text) (ms : List (Nat × Token)) : List Region :=
  ofTokens sel t none (ms.map atMark)

theorem ofTokens_of_skimmed (sel : Selector) (h : Skimmed refs t ts raw rest) :
    ofTokens sel t none (scan refs t).tokens = ofMarks sel t (marks 0 ts) := by
  obtain ⟨us, htokens, hmarks⟩ := h.tokens
  rw [htokens, ofTokens_eq_marks, hmarks]
  rfl

/-- Where a search comes to an end from which there is no way on. -/
theorem exists_of_locateWith (hstray : refs = .kept → ¬ Straying t) (h : locateWith refs sel t = .ok rs) :
    ∃ ts raw rest, Skims none t ts raw rest ∧ Quiet raw rest ∧ rs = ofMarks sel t (marks 0 ts) := by
  obtain ⟨⟨s, hscan⟩, rfl⟩ := scan_of_locateWith h
  obtain ⟨ts, raw, rest, hskimmed, hquiet⟩ := quiet_of_scan hscan hstray
  exact ⟨ts, raw, rest, hskimmed.skims, hquiet, ofTokens_of_skimmed sel hskimmed⟩

/-- No stray reference counts with references resolved. -/
theorem exists_of_locateWith_resolved (h : locateWith .resolved sel t = .ok rs) :
    ∃ ts raw rest, Skims none t ts raw rest ∧ Quiet raw rest ∧ rs = ofMarks sel t (marks 0 ts) := by
  refine exists_of_locateWith (fun hrefs => ?_) h
  cases hrefs

/-- A search that keeps references fails where what comes next cannot be read. -/
theorem faulty_of_locate {f : MarkupFault} (h : locate sel t = .error f) :
    ∃ ts raw rest, Skims none t ts raw rest ∧ Faulty f raw rest := by
  rcases faulty_of_scan (scan_of_locateWith_eq_error h) with hfaulty | ⟨hrefs, -⟩
  · exact hfaulty
  · cases hrefs

/-- It does not fail if the other does not. -/
theorem exists_locate (h : locateWith .resolved sel t = .ok rs) : ∃ rs', locate sel t = .ok rs' := by
  cases hlocate : locate sel t with
  | ok rs' => exact ⟨rs', rfl⟩
  | error f =>
    obtain ⟨ts, raw, rest, hskims, hquiet, -⟩ := exists_of_locateWith_resolved h
    obtain ⟨ts', raw', rest', hskims', hfaulty⟩ := faulty_of_locate hlocate
    obtain ⟨rfl, rfl, -⟩ := hskims.unique hquiet.halts hskims' hfaulty.halts
    exact absurd hfaulty hquiet.not_faulty

/-- Without stray references, both find the same. -/
theorem locate_of_not_straying (hstray : ¬ Straying t) (h : locateWith .resolved sel t = .ok rs) :
    locate sel t = .ok rs := by
  obtain ⟨rs', hlocate⟩ := exists_locate h
  obtain ⟨ts, raw, rest, hskims, hquiet, rfl⟩ := exists_of_locateWith_resolved h
  obtain ⟨ts', raw', rest', hskims', hquiet', rfl⟩ := exists_of_locateWith (fun _ => hstray) hlocate
  obtain ⟨-, -, hmarks⟩ := hskims.unique hquiet.halts hskims' hquiet'.halts
  rw [hlocate, hmarks]

/-- Either fails as the other does, unless a reference is too long. -/
theorem locate_eq_of_not_overlong (hstray : ¬ Straying t) (hlong : ¬ Overlong t) :
    locate sel t = locateWith .resolved sel t := by
  cases hresolved : locateWith .resolved sel t with
  | ok rs => exact locate_of_not_straying hstray hresolved
  | error f =>
    rcases faulty_of_scan (scan_of_locateWith_eq_error hresolved) with
      ⟨ts, raw, rest, hskims, hfaulty⟩ | ⟨-, hover⟩
    · cases hlocate : locate sel t with
      | error f' =>
        obtain ⟨ts', raw', rest', hskims', hfaulty'⟩ := faulty_of_locate hlocate
        obtain ⟨rfl, rfl, -⟩ := hskims.unique hfaulty.halts hskims' hfaulty'.halts
        rw [Next.fault.inj (hfaulty'.2.symm.trans hfaulty.2)]
      | ok rs =>
        obtain ⟨ts', raw', rest', hskims', hquiet, -⟩ := exists_of_locateWith (fun _ => hstray) hlocate
        obtain ⟨rfl, rfl, -⟩ := hskims.unique hfaulty.halts hskims' hquiet.halts
        exact absurd hfaulty hquiet.not_faulty
    · exact absurd hover hlong

/-- Where the search gives up. -/
def reach (t : Text) : Nat := t.length - (forgone t).length

/-- The marks that a search comes to are those in front of its reach. -/
theorem exists_marks_of_locate (hskims : Skims none t ts raw rest) (hquiet : Quiet raw rest)
    (hlocate : locate sel t = .ok rs) : ∃ before behind, marks 0 ts = before ++ behind ∧ rs = ofMarks sel t before ∧
      (∀ x ∈ before, x.1 < reach t) ∧ ∀ x ∈ behind, reach t ≤ x.1 := by
  obtain ⟨⟨s, hscan⟩, rfl⟩ := scan_of_locateWith hlocate
  obtain ⟨us, raw', last, hskimmed, hend, hforgone⟩ := skimmed_of_scan hscan
  obtain ⟨vs, hvs, hmarks⟩ := hskimmed.skims.exists_rest hskims hquiet.halts
  have hlength := congrArg List.length hskimmed.skims.sources_append_rest
  rw [List.length_append] at hlength
  have hforgone := hforgone rfl
  refine ⟨marks 0 us, _, hmarks 0, ofTokens_of_skimmed sel hskimmed, fun x hx => ?_, fun x hx => ?_⟩
  · have hlt := lt_of_mem_marks hx hskimmed.skims.source_ne_nil
    have hle : (forgone t).length ≤ last.length := by
      rw [hforgone]
      split
      · exact Nat.le_refl _
      · exact Nat.zero_le _
    rw [reach]
    omega
  · cases hraw : raw' with
    | none =>
      have hle := le_of_mem_marks hx
      rw [hraw, if_pos rfl] at hforgone
      rw [reach, hforgone]
      omega
    | some name =>
      have hquiet' : Quiet raw' last := by  -- raw text that nothing ends is the end of both
        rcases hend with hquiet' | ⟨hnone, -⟩ | ⟨-, hnone, -⟩
        · exact hquiet'
        · rw [hraw] at hnone
          cases hnone
        · rw [hraw] at hnone
          cases hnone
      obtain ⟨rfl, -, -⟩ := hvs.eq_of_halts hquiet'.halts
      cases hx

/-- A search that keeps references finds the regions that stop within its reach. -/
theorem locate_eq_filter (h : locateWith .resolved sel t = .ok rs) :
    locate sel t = .ok (rs.filter fun r => r.stop < reach t) := by
  obtain ⟨rs', hlocate⟩ := exists_locate h
  obtain ⟨ts, raw, rest, hskims, hquiet, rfl⟩ := exists_of_locateWith_resolved h
  obtain ⟨before, behind, hmarks, rfl, hbefore, hbehind⟩ := exists_marks_of_locate hskims hquiet hlocate
  obtain ⟨o', happend⟩ := exists_ofTokens_append sel t none (before.map atMark)
  have hsplit : ofMarks sel t (marks 0 ts) = ofMarks sel t before ++ ofTokens sel t o' (behind.map atMark) := by
    rw [hmarks, ofMarks, List.map_append, happend]
    rfl
  have hin : ∀ r ∈ ofMarks sel t before, decide (r.stop < reach t) = true := by
    intro r hr
    obtain ⟨x, hx, hstop⟩ := exists_mark_of_mem hr
    exact decide_eq_true (hstop ▸ hbefore x hx)
  have hout : ∀ r ∈ ofTokens sel t o' (behind.map atMark), ¬ decide (r.stop < reach t) = true := by
    intro r hr
    obtain ⟨x, hx, hstop⟩ := exists_mark_of_mem hr
    rw [decide_eq_true_eq, hstop]
    exact Nat.not_lt.2 (hbehind x hx)
  rw [hlocate, hsplit, List.filter_append, List.filter_eq_self.2 hin, List.filter_eq_nil_iff.2 hout,
    List.append_nil]

/-- **Stray references hide regions.**  Of the regions that are there with references resolved, a search that keeps
references finds exactly those that stop within its reach.  So it finds all if and only if all stop there.  They do
if no stray reference stands in the text; then, if no reference is too long either, one search fails as the other
does. -/
theorem locate_eq_iff (sel : Selector) (t : Text) :
    (∀ rs, locateWith .resolved sel t = .ok rs →
      locate sel t = .ok (rs.filter fun r => r.stop < reach t) ∧
      (locate sel t = .ok rs ↔ ∀ r ∈ rs, r.stop < reach t)) ∧
    (¬ Straying t → (∀ rs, locateWith .resolved sel t = .ok rs → locate sel t = .ok rs) ∧
      (¬ Overlong t → locate sel t = locateWith .resolved sel t)) := by
  refine ⟨fun rs h => ?_, fun hstray => ⟨fun rs => locate_of_not_straying hstray, locate_eq_of_not_overlong hstray⟩⟩
  have hfilter := locate_eq_filter h
  refine ⟨hfilter, ?_⟩
  rw [hfilter]
  constructor
  · intro heq r hr
    exact of_decide_eq_true (List.filter_eq_self.1 (Except.ok.inj heq) r hr)
  · intro hall
    rw [List.filter_eq_self.2 fun r hr => decide_eq_true (hall r hr)]

/-- The script in front of a stray reference is found, and the one behind is not. -/
theorem locate_before_stray :
    locateWith .resolved .usual "<script>a</script>&#<script>b</script>" =
      .ok [⟨8, 9, "<script>", "</script>"⟩, ⟨28, 29, "<script>", "</script>"⟩] ∧
    locate .usual "<script>a</script>&#<script>b</script>" = .ok [⟨8, 9, "<script>", "</script>"⟩] := by
  have hresolved : locateWith .resolved .usual "<script>a</script>&#<script>b</script>" =
      .ok [⟨8, 9, "<script>", "</script>"⟩, ⟨28, 29, "<script>", "</script>"⟩] := by
    repeat rw [Text.ofString_ofList]
    decide
  have hreach : reach "<script>a</script>&#<script>b</script>" = 18 := by
    rw [Text.ofString_ofList]
    decide
  refine ⟨hresolved, (((locate_eq_iff _ _).1 _ hresolved).1).trans ?_⟩
  rw [hreach]
  rfl

/-- A stray reference with no semicolon behind hides the only script. -/
theorem hidden_behind_stray :
    locateWith .resolved .usual "&#<script>x</script>" = .ok [⟨10, 11, "<script>", "</script>"⟩] ∧
    locate .usual "&#<script>x</script>" = .ok [] := by
  repeat rw [Text.ofString_ofList]
  decide

end Region
end HtmlDeps
