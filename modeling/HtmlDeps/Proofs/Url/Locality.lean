import HtmlDeps.Proofs.Document.References

/-!
# Local references

Whether a reference leads out of the project is asked twice: of the reference as it stands in the document, and of the
URL that it resolves to.  On the way `./` and slashes in front are dropped, so that a name with a colon may come first
and be taken for a scheme, as in `./a:b.js`.  Unless that happens, both questions have one answer
(`Url.isExternal_resolve_iff`).

The question is `is_external_url`, asked around `resolve_reference`.
-/

namespace HtmlDeps

theorem Text.lower_ne_nil {t : Text} (h : t ≠ []) : t.lower ≠ [] := by
  obtain ⟨g, r, rfl⟩ := List.exists_cons_of_ne_nil h
  cases g with
  | stray b => exact List.cons_ne_nil _ _
  | char c =>
    rw [lower, lowerFrom]
    split
    · exact List.cons_ne_nil _ _
    · split <;> exact List.cons_ne_nil _ _

/-- A text that is cut begins with what stands in front of the cut, and the cut stands where it should. -/
theorem Text.eq_of_cutAt {p : Glyph → Bool} {t a b : Text} {x : Glyph} (h : cutAt p t = (a, x :: b)) :
    t = a ++ x :: b ∧ p x := by
  obtain ⟨ha, hb⟩ := Prod.mk.inj h
  refine ⟨?_, ?_⟩
  · rw [← ha, ← hb, List.takeWhile_append_dropWhile]
  · have hnot := List.head?_dropWhile_not (fun y => !p y) t
    rw [hb] at hnot
    simpa using hnot

namespace Url

variable {base href r t s rest : Text} {v : Url}

/-! ### Schemes -/

/-- A scheme and its colon stand in front of a text, once the controls in front of it and all tabs and line ends are
dropped. -/
def Schemed (t : Text) : Prop :=
  ∃ g s rest, cleaned t = g :: s ++ .char ':' :: rest ∧ g.isLetter ∧ ∀ x ∈ g :: s, isSchemeGlyph x

theorem ne_colon_of_isSchemeGlyph {x : Glyph} (h : isSchemeGlyph x) : x ≠ .char ':' := by
  rintro rfl
  exact absurd h (by decide)

theorem cutScheme?_isSome_iff : (cutScheme? t).isSome ↔
    ∃ g s rest, t = g :: s ++ .char ':' :: rest ∧ g.isLetter ∧ ∀ x ∈ g :: s, isSchemeGlyph x := by
  constructor
  · intro h
    unfold cutScheme? at h
    split at h
    · rename_i g s x rest hcut
      split at h
      · rename_i hscheme
        rw [Bool.and_eq_true, List.all_eq_true] at hscheme
        obtain ⟨hwhole, hx⟩ := Text.eq_of_cutAt hcut
        exact ⟨g, s, rest, eq_of_beq hx ▸ hwhole, hscheme⟩
      · cases h
    · cases h
  · rintro ⟨g, s, rest, rfl, hletter, hscheme⟩
    have hkept : ∀ x ∈ g :: s, (!(x == Glyph.char ':')) = true := fun x hx => by
      simpa using ne_colon_of_isSchemeGlyph (hscheme x hx)
    have hcut : Text.cutAt (· == .char ':') (g :: s ++ .char ':' :: rest) = (g :: s, .char ':' :: rest) := by
      rw [Text.cutAt, List.takeWhile_append_of_pos hkept, List.dropWhile_append_of_pos hkept,
        List.takeWhile_cons_of_neg (by simp), List.dropWhile_cons_of_neg (by simp), List.append_nil]
    have hall : (g.isLetter && (g :: s).all isSchemeGlyph) = true := by
      rw [Bool.and_eq_true, List.all_eq_true]
      exact ⟨hletter, hscheme⟩
    unfold cutScheme?
    rw [hcut]
    dsimp only
    rw [if_pos hall]
    rfl

/-- Unless it starts with two slashes, a URL that can be read leads out of the project if it starts with a scheme. -/
theorem isExternal_of_parse (hparse : parse t = .ok v) (hslashes : t.startsWith "//" = false) :
    isExternal t = .ok (cutScheme? (cleaned t)).isSome := by
  have hscheme : (!v.scheme.isEmpty) = (cutScheme? (cleaned t)).isSome := by
    unfold parse at hparse
    dsimp only at hparse
    split at hparse
    · cases hparse
    · obtain rfl := Except.ok.inj hparse
      dsimp only
      cases hcut : cutScheme? (cleaned t) with
      | none => rfl
      | some cut =>
        obtain ⟨s, rest⟩ := cut
        have hne : s ≠ [] := by
          unfold cutScheme? at hcut
          split at hcut
          · split at hcut
            · rw [← (Prod.mk.inj (Option.some.inj hcut)).1]
              exact List.cons_ne_nil _ _
            · cases hcut
          · cases hcut
        simpa using Text.lower_ne_nil hne
  rw [isExternal, if_neg (by simp [hslashes]), hparse]
  exact congrArg Except.ok hscheme

/-! ### Resolved URLs -/

/-- The part of a URL up to its first slash. -/
def front (t : Text) : Text := t.takeWhile (· ≠ .char '/')

theorem cleaned_of_breaks (h : ∀ g ∈ t, g ∉ breaks) : cleaned t = t.dropWhile fun g => g.code ≤ 32 := by
  refine List.filter_eq_self.2 fun g hg => ?_
  have hnot := h g ((List.dropWhile_suffix _).subset hg)
  simpa [breaks, and_assoc] using hnot

/-- A scheme holds no slash, so that it stands in the first part. -/
theorem schemed_front_iff (h : ∀ g ∈ t, g ∉ breaks) : Schemed (front t) ↔ Schemed t := by
  have hfront : ∀ g ∈ front t, g ∉ breaks := fun g hg => h g ((List.takeWhile_prefix _).subset hg)
  obtain ⟨r, hr, hwhole⟩ : ∃ r : Text, (∀ g ∈ r.head?, g = .char '/') ∧ t = front t ++ r := by
    refine ⟨t.dropWhile (· ≠ .char '/'), fun g hg => ?_, List.takeWhile_append_dropWhile.symm⟩
    have hnot := List.head?_dropWhile_not (· ≠ Glyph.char '/') t
    rw [hg] at hnot
    simpa using hnot
  have hclean : cleaned t = cleaned (front t) ++ r := by
    have hkept : (r.dropWhile fun g => g.code ≤ 32) = r := by
      cases r with
      | nil => rfl
      | cons g r =>
        rw [hr g rfl]
        exact List.dropWhile_cons_of_neg (by decide)
    rw [cleaned_of_breaks h, cleaned_of_breaks hfront]
    conv_lhs => rw [hwhole]
    rw [List.dropWhile_append]
    split
    · rename_i hempty
      rw [hkept, List.isEmpty_iff.1 hempty, List.nil_append]
    · rfl
  unfold Schemed
  rw [hclean]
  constructor
  · rintro ⟨g, s, rest, hscheme, hletter, hglyphs⟩
    exact ⟨g, s, rest ++ r, by simp [hscheme], hletter, hglyphs⟩
  · rintro ⟨g, s, rest, hscheme, hletter, hglyphs⟩
    rcases List.append_eq_append_iff.1 hscheme with ⟨more, hfirst, hrest⟩ | ⟨more, hfirst, hrest⟩
    · -- the scheme would reach beyond the slash
      cases more with
      | nil =>
        exact absurd (hr (.char ':') (by rw [hrest]; rfl)) (by decide)
      | cons x more =>
        have hslash := hr x (by rw [hrest]; rfl)
        have hx : x ∈ g :: s := hfirst ▸ List.mem_append_right _ List.mem_cons_self
        exact absurd (hslash ▸ hglyphs x hx) (by decide)
    · cases more with
      | nil =>
        exact absurd (hr (.char ':') (by rw [← List.nil_append r, ← hrest]; rfl)) (by decide)
      | cons x more =>
        obtain ⟨hx, -⟩ := List.cons.inj hrest
        exact ⟨g, s, more, hx ▸ hfirst, hletter, hglyphs⟩

theorem colon_mem_of_schemed (h : Schemed t) : .char ':' ∈ t := by
  obtain ⟨g, s, rest, hclean, -⟩ := h
  exact (cleaned_sublist t).subset (hclean ▸ by simp)

/-- In a directory, the first part is that of the directory. -/
theorem front_subset_directory (hne : directory base ≠ []) (h : directory base <+: t) : front t ⊆ directory base := by
  unfold directory at hne h ⊢
  cases hcut : Text.cutLast? (· == .char '/') base with
  | none =>
    rw [hcut] at hne
    exact absurd rfl hne
  | some cut =>
    rw [hcut] at h
    obtain ⟨rest, rfl⟩ := h
    intro g hg
    have hstop : (Glyph.char '/' :: rest).takeWhile (· ≠ .char '/') = [] := List.takeWhile_cons_of_neg (by simp)
    have hg : g ∈ (cut.1 ++ Glyph.char '/' :: rest).takeWhile (· ≠ .char '/') := by simpa [front] using hg
    rw [List.takeWhile_append, hstop, List.append_nil] at hg
    refine List.mem_append_left _ ?_
    split at hg
    · exact hg
    · exact (List.takeWhile_prefix _).subset hg

/-- Whether a URL that was put together leads out of the project. -/
theorem isExternal_of_settle (hsettle : resolve.settle t = some r) (hbreaks : ∀ g ∈ r, g ∉ breaks) :
    ∃ external, isExternal r = .ok external ∧ (external = true ↔ Schemed (front r)) := by
  have hslashes := not_slashes_of_settle hsettle
  obtain ⟨v, hparse⟩ := exists_parse hbreaks hslashes
  have hstart : r.startsWith "//" = false := by
    rw [← Bool.not_eq_true]
    intro hstart
    obtain ⟨rest, hrest⟩ := Option.isSome_iff_exists.1 hstart
    exact hslashes ⟨[], rest, (Text.after?_eq_some.1 hrest).symm⟩
  refine ⟨_, isExternal_of_parse hparse hstart, ?_⟩
  rw [schemed_front_iff hbreaks, cutScheme?_isSome_iff]
  rfl

/-- **A reference keeps its side.**  If no directory of the document has a colon in its name (nor a tab or a line
end), then a reference and the URL that it resolves to agree on whether they lead out of the project, exactly if the
reference does or no scheme stands in the first part of the URL.  They do if the path of the reference holds no colon,
and if the URL stays in the directory of the document. -/
theorem isExternal_resolve_iff (hcolon : .char ':' ∉ directory base) (hbreaks : ∀ g ∈ directory base, g ∉ breaks)
    (h : resolve base href = .ok (some r)) :
    (∃ external, isExternal r = .ok external) ∧
    (isExternal r = isExternal href.strip ↔ isExternal href.strip = .ok true ∨ ¬ Schemed (front r)) ∧
    (∀ v, parse href.strip = .ok v → .char ':' ∉ v.path → isExternal r = isExternal href.strip) ∧
    (directory base ≠ [] → directory base <+: r → isExternal r = isExternal href.strip) := by
  rcases exists_of_resolve h with ⟨hexternal, rfl⟩ | ⟨hlocal, v, place, hparse, hsettle, hplace⟩
  · exact ⟨⟨true, hexternal⟩, iff_of_true rfl (.inl hexternal), fun _ _ _ => rfl, fun _ _ => rfl⟩
  · have hdirectory : ∀ g ∈ place, g ∈ directory base := by
      rcases hplace with rfl | rfl
      · exact nofun
      · exact fun _ hg => hg
    have hkept : ∀ g ∈ r, g ∉ breaks := by
      intro g hg
      rcases mem_of_settle hsettle hg with rfl | hg
      · decide
      · rcases List.mem_append.1 hg with hg | hg
        · exact hbreaks g (hdirectory g hg)
        · exact not_mem_breaks_of_cleaned (path_subset_cleaned hparse hg)
    obtain ⟨external, hexternal, hscheme⟩ := isExternal_of_settle hsettle hkept
    have hstays : ¬ Schemed (front r) → isExternal r = isExternal href.strip := by
      intro hnone
      rw [hexternal, hlocal, Bool.eq_false_iff.2 (mt hscheme.1 hnone)]
    refine ⟨⟨external, hexternal⟩, ⟨fun heq => .inr fun hschemed => ?_, fun hside => ?_⟩, fun w hw hpath => ?_,
      fun hne hprefix => ?_⟩
    · rw [hexternal, hlocal, hscheme.2 hschemed] at heq
      cases heq
    · exact hstays (hside.resolve_left (by rw [hlocal]; nofun))
    · obtain rfl := Except.ok.inj (hw.symm.trans hparse)
      refine hstays fun hschemed => ?_
      have hmem := (List.takeWhile_prefix _).subset (colon_mem_of_schemed hschemed)
      rcases mem_of_settle hsettle hmem with hslash | hmem
      · exact absurd hslash (by decide)
      · rcases List.mem_append.1 hmem with hmem | hmem
        · exact hcolon (hdirectory _ hmem)
        · exact hpath hmem
    · exact hstays fun hschemed => hcolon (front_subset_directory hne hprefix (colon_mem_of_schemed hschemed))

theorem isExternal_resolve_query : resolve "pages/index.html" " ../a.js?at=b:c" = .ok (some "a.js") ∧
    isExternal "a.js" = isExternal (Text.strip " ../a.js?at=b:c") := by
  have hresolve : resolve "pages/index.html" " ../a.js?at=b:c" = .ok (some "a.js") := by decide
  have hdirectory : directory "pages/index.html" = "pages/" := by decide
  have hparse : parse (Text.strip " ../a.js?at=b:c") = .ok ⟨[], [], "../a.js", "at=b:c", []⟩ := by decide
  obtain ⟨-, -, hpath, -⟩ := isExternal_resolve_iff (hdirectory ▸ by decide) (hdirectory ▸ by decide) hresolve
  exact ⟨hresolve, hpath _ hparse (by decide)⟩

/-- Without the `./` in front, a file with a colon in its name is taken for something else. -/
theorem not_isExternal_resolve_colon : Url.ofPath "/" "/app" "/app/index.html" = .ok "index.html" ∧
    .char ':' ∉ directory "index.html" ∧ resolve "index.html" "./a:b.js" = .ok (some "a:b.js") ∧
    isExternal (Text.strip "./a:b.js") = .ok false ∧ ¬ isExternal "a:b.js" = .ok false := by
  exact ⟨by decide, by decide, by decide, by decide, by decide⟩

end Url
end HtmlDeps
