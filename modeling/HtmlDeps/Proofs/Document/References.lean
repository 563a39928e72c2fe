import HtmlDeps.Document.Survey
import HtmlDeps.Proofs.Url.Resolved

/-!
# References of a document

What a document refers to is resolved against its URL (`Survey.resolved_of_mem`).  A resolved URL is read once
more when it is followed, and then tabs and line ends are dropped from it.  Two slashes may meet there that
stood apart before, and what follows them is taken for a host.  This does not happen below a URL without such
glyphs (`Url.exists_external`).
-/

namespace HtmlDeps

namespace Text

variable {g : Glyph} {s t : Text} {ps : List Text}

/-- Between two separators there is an empty piece. -/
theorem nil_mem_tail_split (s t : Text) : [] ∈ (split g (s ++ g :: g :: t)).tail := by
  induction s with
  | nil => simp [split]
  | cons x s ih =>
    rw [List.cons_append, split]
    split
    · exact List.mem_of_mem_tail ih
    · split
      · rename_i hnil
        rw [hnil] at ih
        cases ih
      · rename_i hcons
        rwa [hcons] at ih

theorem not_infix_join (h : ∀ p ∈ ps, p ≠ [] ∧ g ∉ p) : ¬ [g, g] <:+: join [g] ps := by
  rintro ⟨s, t, heq⟩
  rw [List.append_assoc, List.cons_append, List.cons_append, List.nil_append] at heq
  have hnil := nil_mem_tail_split (g := g) s t
  rw [heq] at hnil
  cases ps with
  | nil => simp [join, split] at hnil
  | cons p ps =>
    rw [split_join (List.cons_ne_nil p ps) fun q hq => (h q hq).2] at hnil
    exact (h [] (List.mem_cons_of_mem p hnil)).1 rfl

end Text

namespace Url

open HtmlDeps.Path

variable {base href r t : Text}

/-- The glyphs that are dropped wherever they stand in a URL. -/
def breaks : Text := [.char '\t', .char '\r', .char '\n']

theorem not_mem_breaks_of_cleaned {g : Glyph} (h : g ∈ cleaned t) : g ∉ breaks := by
  have hkept := (List.mem_filter.1 h).2
  simpa [breaks, and_assoc] using hkept

/-- Where nothing is dropped inside and no slashes meet, there is no host to be found fault with. -/
theorem exists_parse (hbreaks : ∀ g ∈ t, g ∉ breaks) (hslashes : ¬ [.char '/', .char '/'] <:+: t) :
    ∃ v, parse t = .ok v := by
  have hcleaned : cleaned t <:+ t := by
    have hkept : cleaned t = t.dropWhile fun g => g.code ≤ 32 := by
      apply List.filter_eq_self.2
      intro g hg
      have hnot := hbreaks g ((List.dropWhile_suffix _).subset hg)
      simpa [breaks, and_assoc] using hnot
    rw [hkept]
    exact List.dropWhile_suffix _
  have hrest : ((cutScheme? (cleaned t)).getD ([], cleaned t)).2 <:+ t := by
    cases hscheme : cutScheme? (cleaned t) with
    | none => exact hcleaned
    | some cut => exact (cutScheme?_suffix hscheme).1.trans hcleaned
  have hauthority : (cutAuthority ((cutScheme? (cleaned t)).getD ([], cleaned t)).2).1 = [] := by
    unfold cutAuthority
    split
    · rename_i rest heq
      rw [heq] at hrest
      exact absurd (List.IsInfix.trans ⟨[], rest, rfl⟩ hrest.isInfix) hslashes
    · rfl
  unfold parse
  dsimp only
  rw [hauthority]
  exact ⟨_, rfl⟩

theorem mem_of_settle (h : resolve.settle t = some r) {g : Glyph} (hg : g ∈ r) : g = .char '/' ∨ g ∈ t := by
  rw [(settle_eq_some h).1] at hg
  rcases Text.mem_of_mem_join hg with hg | ⟨n, hn, hg⟩
  · exact .inl (List.mem_singleton.1 hg)
  · have hsplit := (List.mem_filter.1 (mem_of_mem_resolveParts hn)).1
    exact .inr (Text.mem_of_mem_split hsplit hg)

theorem not_slashes_of_settle (h : resolve.settle t = some r) : ¬ [.char '/', .char '/'] <:+: r := by
  intro hslashes
  rw [(settle_eq_some h).1] at hslashes
  refine Text.not_infix_join (fun n hn => ?_) hslashes
  have hpart := part_of_mem_normal hn
  exact ⟨hpart.1, hpart.2.2⟩

/-- **A resolved URL can be read**, and holds no tabs and line ends unless its base does. -/
theorem exists_external (hbase : ∀ g ∈ base, g ∉ breaks) (h : resolve base href = .ok (some r)) :
    (∃ external, isExternal r = .ok external) ∧ (isExternal r = .ok false → ∀ g ∈ r, g ∉ breaks) := by
  rcases cases_of_resolve h with hexternal | ⟨t, hsettle, hfrom⟩
  · refine ⟨⟨true, hexternal⟩, fun hlocal => ?_⟩
    cases hexternal.symm.trans hlocal
  · have hkept : ∀ g ∈ r, g ∉ breaks := by
      intro g hg
      rcases mem_of_settle hsettle hg with rfl | hg
      · decide
      · rcases hfrom g hg with hg | hg
        · exact hbase g hg
        · exact not_mem_breaks_of_cleaned hg
    refine ⟨?_, fun _ => hkept⟩
    obtain ⟨v, hparse⟩ := exists_parse hkept (not_slashes_of_settle hsettle)
    unfold isExternal
    split
    · exact ⟨true, rfl⟩
    · rw [hparse]
      exact ⟨_, rfl⟩

end Url

namespace Survey

variable {s s' : Survey} {u contents : Text}

/-- A survey has gone on, and has resolved what it has noted since. -/
structure Extends (s s' : Survey) : Prop where
  document : s'.document = s.document
  references : ∀ r ∈ s'.references, r ∈ s.references ∨
    ∃ href, Url.resolve s.document href = .ok (some r.url)

theorem Extends.refl (s : Survey) : Extends s s := ⟨rfl, fun _ hr => .inl hr⟩

theorem Extends.trans {s'' : Survey} (h : Extends s s') (h' : Extends s' s'') : Extends s s'' := by
  constructor
  · exact h'.document.trans h.document
  · intro r hr
    rcases h'.references r hr with hr | hresolve
    · exact h.references r hr
    · exact .inr (h.document ▸ hresolve)

theorem extends_note {p : Position} {href : Option Text} {kind : Kind} {code message : Text}
    (h : s.note p href kind code message = .ok s') : Extends s s' := by
  unfold note at h
  dsimp only at h
  split at h
  · obtain rfl := Except.ok.inj h
    exact ⟨rfl, fun _ hr => .inl hr⟩
  · split at h
    · cases h
    · obtain rfl := Except.ok.inj h
      exact ⟨rfl, fun _ hr => .inl hr⟩
    · rename_i url hresolve
      obtain rfl := Except.ok.inj h
      refine ⟨rfl, fun r hr => ?_⟩
      rcases List.mem_append.1 hr with hr | hr
      · exact .inl hr
      · rw [List.mem_singleton.1 hr]
        exact .inr ⟨_, hresolve⟩

theorem extends_opened {p : Position} {tag : Tag} (h : s.opened p tag = .ok s') : Extends s s' := by
  unfold opened at h
  dsimp only at h
  split at h
  · split at h
    · exact extends_note h
    · split at h
      · exact extends_note h
      · exact Except.ok.inj h ▸ .refl s
  · split at h
    · split at h
      · have hnote := extends_note h
        exact ⟨hnote.document, hnote.references⟩
      · obtain rfl := Except.ok.inj h
        exact ⟨rfl, fun _ hr => .inl hr⟩
    · exact Except.ok.inj h ▸ .refl s

theorem extends_step {t : Located} (h : s.step t = .ok s') : Extends s s' := by
  unfold step at h
  split at h
  · exact extends_opened h
  · obtain rfl := Except.ok.inj h
    split
    · exact ⟨rfl, fun _ hr => .inl hr⟩
    · exact .refl s
  · exact Except.ok.inj h ▸ .refl s

theorem extends_run (ts : List Located) (s : Survey) : Extends s (s.run ts).1 := by
  induction ts generalizing s with
  | nil => exact .refl s
  | cons t ts ih =>
    rw [run]
    split
    · rename_i s' hstep
      exact (extends_step hstep).trans (ih s')
    · exact .refl s

theorem references_finish (s : Survey) : s.finish.references = s.references := by
  unfold finish warn
  split <;> rfl

/-- What a document refers to is resolved against its URL. -/
theorem resolved_of_mem {r : Reference} (h : r ∈ (Survey.of u contents).1.references) :
    ∃ href, Url.resolve u href = .ok (some r.url) := by
  have hall : ∀ ts, ∀ r ∈ ((start u).run ts).1.references, ∃ href, Url.resolve u href = .ok (some r.url) := by
    intro ts r hr
    exact ((extends_run ts (start u)).references r hr).resolve_left nofun
  unfold Survey.of ofPieces at h
  dsimp only at h
  split at h
  · rename_i s f hrun
    exact hall _ r (by rwa [hrun])
  · rename_i s hrun
    split at h
    · exact hall _ r (by rwa [hrun])
    · rw [references_finish] at h
      exact hall _ r (by rwa [hrun])

end Survey

end HtmlDeps
