import Mathlib.Data.List.Chain
import HtmlDeps.Proofs.Markup.Places
import HtmlDeps.Proofs.Split.Carrier

/-!
# Exact regions

What a region says of the document can be found there: its start tag right in front of the body, an end where a
tag begins, and no overlap with the region before (`Region.exact_of_locate`).  A region starts before it stops
unless its start tag closes itself; then it stops where that tag begins.

This is what `locate_regions` returns.
-/

namespace HtmlDeps
namespace Region

variable {sel : Selector} {t : Text} {tokens : List Located} {lo n m : Nat} {o : Option Opening} {r : Region}
  {rs : List Region}

/-- Where the start tag of a region begins. -/
def origin (r : Region) : Nat := r.start - r.openTag.length

/-- A region that the text bears out, with a start tag among the tokens. -/
structure Exact (t : Text) (tokens : List Located) (r : Region) : Prop where
  fits : r.openTag.length ≤ r.start
  openTag : (t.take r.start).drop r.origin = r.openTag
  openTag_starts : r.openTag.head? = some (.char '<')
  openTag_ends : r.openTag.getLast? = some (.char '>')
  closeTag : (t.take (r.stop + r.closeTag.length)).drop r.stop = r.closeTag
  closeTag_starts : r.closeTag.head? = some (.char '<')
  way : ∃ x ∈ tokens, ∃ tag, x.position.offset = r.origin ∧ x.token = ⟨r.openTag, .opened tag⟩ ∧
    if tag.selfClosing then r.stop = r.origin else r.start ≤ r.stop

/-- Exact regions from `lo` on, where each begins behind both ends of the one before. -/
structure Aligned (t : Text) (tokens : List Located) (lo : Nat) (rs : List Region) : Prop where
  exact : ∀ r ∈ rs, r.Exact t tokens
  first : ∀ r ∈ rs.head?, lo ≤ r.origin
  order : rs.IsChain fun r r' => r.stop < r'.origin ∧ r.start ≤ r'.origin

theorem aligned_nil : Aligned t tokens lo [] := ⟨nofun, nofun, .nil⟩

theorem Aligned.cons (hr : r.Exact t tokens) (hlo : lo ≤ r.origin) (hstart : r.start ≤ n) (hstop : r.stop < n)
    (h : Aligned t tokens n rs) : Aligned t tokens lo (r :: rs) := by
  refine ⟨List.forall_mem_cons.2 ⟨hr, h.exact⟩, ?_, List.isChain_cons.2 ⟨fun r' hr' => ?_, h.order⟩⟩
  · rintro r' hr'
    obtain rfl := Option.some.inj hr'
    exact hlo
  · have hfirst := h.first r' hr'
    exact ⟨by omega, by omega⟩

/-! ### The tags of a region -/

theorem closingTag_isPrefix (t : Text) : closingTag t <+: t := by
  unfold closingTag
  split
  · exact List.take_prefix _ _
  · exact List.prefix_rfl

theorem head?_closingTag (t : Text) : (closingTag t).head? = t.head? := by
  unfold closingTag
  split
  · rename_i n hthrough
    rw [List.head?_take, if_neg (Nat.ne_of_gt (Token.through?_pos hthrough))]
  · rfl

theorem slice_of_prefix {s : Text} (h : s <+: t.drop n) : (t.take (n + s.length)).drop n = s := by
  rw [List.drop_take, Nat.add_sub_cancel_left, ← List.prefix_iff_eq_take.1 h]

/-- A region between a start tag and a token that is more than text. -/
theorem exact_of_tags {x y : Located} {tag : Tag} {source : Text} (hstands : ∀ z ∈ tokens, z.Stands t)
    (hx : x ∈ tokens) (htoken : x.token = ⟨source, .opened tag⟩)
    (hy : y ∈ tokens) (hevent : y.token.event ≠ .content)
    (hway : if tag.selfClosing then y.position.offset = x.position.offset
      else x.position.offset + source.length ≤ y.position.offset) :
    Exact t tokens ⟨x.position.offset + source.length, y.position.offset, source,
      closingTag (t.drop y.position.offset)⟩ := by
  have hopen := hstands x hx
  have hclose := hstands y hy
  have hsource : x.token.source = source := by rw [htoken]
  have horigin : x.position.offset + source.length - source.length = x.position.offset := Nat.add_sub_cancel _ _
  obtain ⟨body, hbody⟩ := hopen.closes tag (by rw [htoken])
  -- Both ends stand in the text, so what is in front of the region and behind it can be read off.
  have hangle : (t.drop y.position.offset).head? = some (.char '<') := by
    obtain ⟨rest, hrest⟩ := hclose.source
    have hhead := hclose.angle hevent
    rw [← hrest, List.head?_append, hhead]
    rfl
  refine ⟨Nat.le_add_left _ _, ?_, ?_, ?_, ?_, ?_, x, hx, tag, horigin.symm, htoken, ?_⟩
  · have hprefix := hopen.source
    rw [hsource] at hprefix
    rw [origin, horigin]
    exact slice_of_prefix hprefix
  · have hhead := hopen.angle (by rw [htoken]; exact nofun)
    rwa [hsource] at hhead
  · rw [← hsource, hbody, List.getLast?_append]
    rfl
  · exact slice_of_prefix (closingTag_isPrefix _)
  · rw [head?_closingTag, hangle]
  · rw [origin, horigin]
    exact hway

/-- An open region with a start tag from `lo` on, which does not close itself, and a body that does not start
behind `n`. -/
def Pending (tokens : List Located) (lo n : Nat) (o : Option Opening) : Prop :=
  ∀ y ∈ o, ∃ x ∈ tokens, ∃ tag, x.token = ⟨y.2, .opened tag⟩ ∧ tag.selfClosing = false ∧
    y.1 = x.position.offset + y.2.length ∧ lo ≤ x.position.offset ∧ y.1 ≤ n

theorem pending_none (tokens : List Located) (lo n : Nat) : Pending tokens lo n none := nofun

theorem Pending.mono (h : Pending tokens lo n o) (hnm : n ≤ m) : Pending tokens lo m o := by
  intro y hy
  obtain ⟨x, hx, tag, htoken, hself, hstart, hlo, hle⟩ := h y hy
  exact ⟨x, hx, tag, htoken, hself, hstart, hlo, Nat.le_trans hle hnm⟩

/-- A token that is more than text takes up room. -/
theorem lt_advance_of_stands {x : Located} (h : x.Stands t) (he : x.token.event ≠ .content) :
    x.position.offset < (x.position.advance x.token.source).offset := by
  have hlength : 0 < x.token.source.length := by
    cases hsource : x.token.source with
    | nil =>
      have hhead := h.angle he
      rw [hsource] at hhead
      cases hhead
    | cons => exact Nat.succ_pos _
  rw [Position.offset_advance]
  exact Nat.lt_add_of_pos_right hlength

/-- Tokens that stand in the text make exact regions. -/
theorem aligned_ofTokens (hstands : ∀ x ∈ tokens, x.Stands t) {ts : List Token} {p : Position}
    (hts : Located.of p ts ⊆ tokens) (hlo : lo ≤ p.offset) (ho : Pending tokens lo p.offset o) :
    Aligned t tokens lo (ofTokens sel t o (Located.of p ts)) := by
  induction ts generalizing p lo o with
  | nil => exact aligned_nil
  | cons k ts ih =>
    obtain ⟨hk, hrest⟩ := List.cons_subset.1 hts
    have hoffset : (p.advance k.source).offset = p.offset + k.source.length := Position.offset_advance _ _
    have hlater : p.offset ≤ (p.advance k.source).offset := by omega
    have hpos : k.event ≠ .content → p.offset < (p.advance k.source).offset := lt_advance_of_stands (hstands _ hk)
    -- Within a body, only the token that completes it makes a region; outside, a tag opens one or is one.
    cases o with
    | some x =>
      by_cases hcompletes : Completes sel k.event
      · have he : k.event ≠ .content := by
          rcases hcompletes with he | ⟨tag, he, -⟩ <;> rw [he] <;> exact nofun
        rw [ofTokens_completes hcompletes]
        -- The tag that opened the region was kept as pending, and it stands in the text like this one.
        obtain ⟨y, hy, tag, htoken, hself, hstart, hfirst, hle⟩ := ho x rfl
        have hexact := exact_of_tags (y := ⟨p, k⟩) hstands hy htoken hk he
          (by rw [hself, if_neg Bool.false_ne_true, ← hstart]; exact hle)
        rw [← hstart] at hexact
        refine Aligned.cons hexact ?_ (Nat.le_trans hle hlater) (hpos he)
          (ih hrest (Nat.le_refl _) (pending_none _ _ _))
        rw [origin, hstart, Nat.add_sub_cancel]
        exact hfirst
      · rw [ofTokens_within hcompletes]
        exact ih hrest (Nat.le_trans hlo hlater) (ho.mono hlater)
    | none =>
      by_cases hopens : ∃ tag, k.event = .opened tag ∧ sel.accepts tag.name tag.attributes = true
      · obtain ⟨tag, he, haccepts⟩ := hopens
        have htoken : k = ⟨k.source, .opened tag⟩ := by rw [← he]
        cases hself : tag.selfClosing with
        | true =>
          have hevent : k.event ≠ .content := by
            rw [he]
            exact nofun
          rw [ofTokens_selfClosing t p ts he haccepts hself]
          have hexact := exact_of_tags (x := ⟨p, k⟩) (y := ⟨p, k⟩) hstands hk htoken hk hevent
            (by rw [hself, if_pos rfl])
          refine Aligned.cons hexact ?_ (Nat.le_of_eq hoffset.symm) (hpos hevent)
            (ih hrest (Nat.le_refl _) (pending_none _ _ _))
          rw [origin, Nat.add_sub_cancel]
          exact hlo
        | false =>
          rw [ofTokens_opens he haccepts hself]
          refine ih hrest (Nat.le_trans hlo hlater) ?_
          rintro y hy
          obtain rfl := Option.some.inj hy
          exact ⟨⟨p, k⟩, hk, tag, htoken, hself, rfl, hlo, Nat.le_of_eq hoffset.symm⟩
      · rw [ofTokens_passes fun tag he haccepts => hopens ⟨tag, he, haccepts⟩]
        exact ih hrest (Nat.le_trans hlo hlater) (pending_none _ _ _)

/-- **Regions are exact.**  Each has its start tag, from `<` to `>`, right in front of it and stops where a tag
begins with `<`; the start tag is a token of the document, and the region stops where that begins if it closes
itself, and else not before its start.  The next region begins behind both.  The offsets of tokens are those that
their lines and columns say. -/
theorem exact_of_locate (h : locate sel t = .ok rs) :
    (∀ r ∈ rs, r.Exact t (Scanner.scan .kept t).tokens) ∧
    (rs.IsChain fun r r' => r.stop < r'.origin ∧ r.start ≤ r'.origin) ∧
    ∀ x ∈ (Scanner.scan .kept t).tokens, ∃ k, (Position.lineStarts t)[x.position.line - 1]? = some k ∧
      k + x.position.column = x.position.offset := by
  obtain ⟨⟨s, hscan⟩, rfl⟩ := scan_of_locateWith h
  have hstands : ∀ x ∈ (Scanner.scan .kept t).tokens, x.Stands t :=
    fun x hx => Scanner.stands_of_mem_scan hscan hx
  obtain ⟨ts, rest, htokens, -, -⟩ := Scanner.scan_covers hscan
  have hsubset : Located.of .start ts ⊆ (Scanner.scan .kept t).tokens := by
    rw [htokens]
    exact List.Subset.refl _
  have haligned : Aligned t _ 0 (ofTokens sel t none (Located.of .start ts)) :=
    aligned_ofTokens hstands hsubset (Nat.zero_le _) (pending_none _ _ _)
  rw [← htokens] at haligned
  refine ⟨haligned.exact, haligned.order, fun x hx => ?_⟩
  have hposition := (hstands x hx).position
  obtain ⟨k, hk, hcolumn⟩ := Position.exists_lineStart (t.take x.position.offset) (t.drop x.position.offset)
  rw [List.take_append_drop, ← hposition] at hk
  rw [← hposition] at hcolumn
  exact ⟨k, hk, hcolumn⟩

/-- Two regions over several lines, the second of which stops before it starts. -/
theorem exact_of_locate_lines : locate .usual "<p>\n<script\n>a\n</script ><script/>" =
      .ok [⟨13, 15, "<script\n>", "</script >"⟩, ⟨34, 25, "<script/>", "<script/>"⟩] ∧
    (∀ r ∈ [(⟨13, 15, "<script\n>", "</script >"⟩ : Region), ⟨34, 25, "<script/>", "<script/>"⟩],
      r.Exact "<p>\n<script\n>a\n</script ><script/>"
        (Scanner.scan .kept "<p>\n<script\n>a\n</script ><script/>").tokens) := by
  have hlocate : locate .usual "<p>\n<script\n>a\n</script ><script/>" =
      .ok [⟨13, 15, "<script\n>", "</script >"⟩, ⟨34, 25, "<script/>", "<script/>"⟩] := by
    repeat rw [Text.ofString_ofList]
    decide
  exact ⟨hlocate, (exact_of_locate hlocate).1⟩

end Region
end HtmlDeps
