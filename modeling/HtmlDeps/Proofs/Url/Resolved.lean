import HtmlDeps.Proofs.Url.Relative

/-!
# What references resolve to

A reference that does not lead out of the project resolves to a URL that is spelled part by part: first the
`..` for which there was no directory, then names (`Url.exists_climb`).  Two such spellings name the same file
exactly if they have the same names.  So a file has one URL among those that climb equally far above the root
(`Url.eq_iff_same_path`), as long as no name holds an escape.

This is `resolve_reference`, read back by `path_from_url`.
-/

namespace HtmlDeps

namespace Text

variable {g : Glyph} {t : Text}

theorem dropLeading_of_ne (h : ∀ r, t ≠ g :: r) : t.dropLeading g = t := by
  cases t with
  | nil => rfl
  | cons x t =>
    have hx : x ≠ g := by
      rintro rfl
      exact h t rfl
    exact List.dropWhile_cons_of_neg (by simpa using hx)

end Text

namespace Url

open HtmlDeps.Path

variable {cwd root file : Path} {base href r r₁ r₂ href₁ href₂ t : Text} {names : List Text} {k : Nat}

/-! ### Steps of the resolver -/

/-- The directory of a URL with the slash at its end, or nothing. -/
def directory (base : Text) : Text :=
  (Text.cutLast? (· == .char '/') base).elim [] fun cut => cut.1 ++ [.char '/']

theorem directory_isPrefix (base : Text) : directory base <+: base := by
  unfold directory
  cases hcut : Text.cutLast? (· == .char '/') base with
  | none => exact List.nil_prefix
  | some cut =>
    obtain ⟨slash, hslash, hbase, -⟩ := Text.cutLast?_eq_some hcut
    refine ⟨cut.2, ?_⟩
    rw [hbase, eq_of_beq hslash]
    exact List.append_assoc _ _ _

/-- A reference that leads out of the project stays as it is; any other is put together from its path, with the
directory of its document in front unless that path starts at the root. -/
theorem exists_of_resolve (h : resolve base href = .ok (some r)) :
    isExternal href.strip = .ok true ∧ r = href.strip ∨
      isExternal href.strip = .ok false ∧ ∃ v front, parse href.strip = .ok v ∧
        resolve.settle (front ++ v.path) = some r ∧ (front = [] ∨ front = directory base) := by
  unfold resolve at h
  obtain ⟨external, hexternal, h⟩ := exists_of_bind_eq_ok h
  cases external with
  | true => exact .inl ⟨hexternal, (Option.some.inj (Except.ok.inj h)).symm⟩
  | false =>
    obtain ⟨v, hparse, h⟩ := exists_of_bind_eq_ok h
    refine .inr ⟨hexternal, v, ?_⟩
    split at h
    · cases h
    · exact ⟨[], hparse, Except.ok.inj h, .inl rfl⟩
    · exact ⟨directory base, hparse, Except.ok.inj h, .inr rfl⟩

theorem path_subset_cleaned {v : Url} (h : parse t = .ok v) : v.path ⊆ cleaned t := by
  intro g hg
  have hmem := (cutAuthority_suffix _).subset ((path_of_parse h).1.subset hg)
  cases hscheme : cutScheme? (cleaned t) with
  | none => rwa [hscheme] at hmem
  | some cut =>
    rw [hscheme] at hmem
    exact (cutScheme?_suffix hscheme).1.subset hmem

/-- A reference leads out of the project, or is put together from the directory of its document and its own
path. -/
theorem cases_of_resolve (h : resolve base href = .ok (some r)) : isExternal r = .ok true ∨
    ∃ t, resolve.settle t = some r ∧ ∀ g ∈ t, g ∈ base ∨ g ∈ cleaned href.strip := by
  rcases exists_of_resolve h with ⟨hexternal, rfl⟩ | ⟨-, v, front, hparse, hsettle, hfront⟩
  · exact .inl hexternal
  · refine .inr ⟨_, hsettle, fun g hg => ?_⟩
    rcases List.mem_append.1 hg with hg | hg
    · rcases hfront with rfl | rfl
      · cases hg
      · exact .inl ((directory_isPrefix base).subset hg)
    · exact .inr (path_subset_cleaned hparse hg)

theorem exists_slashes (p : Path) : p.toText = dot ∨
    ∃ slashes : Text, (∀ g ∈ slashes, g = .char '/') ∧ p.toText = slashes ++ Text.join "/" p.parts := by
  obtain ⟨anchor, parts⟩ := p
  have hslashes : ∀ a : Anchor, ∀ g ∈ a.toText, g = .char '/' := by
    intro a
    cases a <;> decide
  unfold toText
  split
  · exact .inl rfl
  · exact .inr ⟨_, hslashes _, rfl⟩

theorem part_of_mem_normal {n : Text} (h : n ∈ (ofText t).normal.parts) : Path.Part n :=
  written_ofText t n (mem_of_mem_resolveParts h)

/-- Settling a text leaves its parts. -/
theorem settle_eq_some (h : resolve.settle t = some r) : r = Text.join "/" (ofText t).normal.parts ∧ r ≠ [] := by
  -- No part is empty or has a slash, so the slashes dropped are those of the root.
  have hfront : ∀ r', Text.join "/" (ofText t).normal.parts ≠ .char '/' :: r' := fun r' =>
    join_ne_slash (fun n hn => part_of_mem_normal hn) r'
  unfold resolve.settle at h
  simp only [Bool.or_eq_true, decide_eq_true_eq] at h
  split at h
  · cases h
  · rename_i hproper
    rw [not_or] at hproper
    obtain rfl := Option.some.inj h
    refine ⟨?_, hproper.1⟩
    rcases exists_slashes (ofText t).normal with htext | ⟨slashes, hslashes, htext⟩
    · refine absurd ?_ hproper.2
      rw [normalText, htext]
      rfl
    · have hdropped : ∀ g ∈ slashes, (g == Glyph.char '/') = true := by
        intro g hg
        rw [hslashes g hg]
        decide
      rw [normalText, htext, Text.dropLeading, List.dropWhile_append_of_pos hdropped]
      exact Text.dropLeading_of_ne hfront

/-- A URL that a reference resolves to is spelled part by part. -/
theorem exists_climb (hsettle : resolve.settle t = some r) :
    ∃ k names, r = Text.join "/" (List.replicate k dotDot ++ names) ∧
      (∀ n ∈ names, Name n ∧ Path.Part n) ∧ List.replicate k dotDot ++ names ≠ [] := by
  obtain ⟨hr, hne⟩ := settle_eq_some hsettle
  have hpart : ∀ n ∈ (ofText t).normal.parts, Path.Part n := fun n hn => part_of_mem_normal hn
  obtain ⟨k, names, hparts, hup⟩ : ∃ k names,
      (ofText t).normal.parts = List.replicate k dotDot ++ names ∧ dotDot ∉ names := by
    have hsettled := settled_resolveParts (ofText t).isAbsolute (ofText t).parts
    unfold Settled at hsettled
    split at hsettled
    · exact ⟨0, _, rfl, hsettled⟩
    · exact hsettled
  rw [hparts] at hpart hr
  refine ⟨k, names, hr, fun n hn => ?_, ?_⟩
  · have hn' := hpart n (List.mem_append_right _ hn)
    refine ⟨⟨hn'.1, ?_, hn'.2.2⟩, hn'⟩
    rintro rfl
    exact hup hn
  · intro hnil
    rw [hnil] at hr
    exact hne hr

/-! ### Spellings of one file -/

/-- In a file of the project, the reference `href` resolves to `r`, which does not lead out of the project. -/
def Refers (cwd root : Path) (href r : Text) : Prop :=
  ∃ file base, Url.ofPath cwd root file = .ok base ∧ resolve base href = .ok (some r) ∧ isExternal r = .ok false

/-- How many `..` stand in front of a URL. -/
def climbs (r : Text) : Nat := ((Text.split (.char '/') r).takeWhile (· = dotDot)).length

theorem climbs_join (hnames : ∀ n ∈ names, Name n ∧ Path.Part n) (hne : List.replicate k dotDot ++ names ≠ []) :
    climbs (Text.join "/" (List.replicate k dotDot ++ names)) = k := by
  have hparts := part_climb (k := k) fun n hn => (hnames n hn).2
  have hsplit : Text.split (.char '/') (Text.join "/" (List.replicate k dotDot ++ names)) =
      List.replicate k dotDot ++ names := Text.split_join hne fun n hn => (hparts n hn).2.2
  have hstop : names.takeWhile (· = dotDot) = [] := by
    cases names with
    | nil => rfl
    | cons n names =>
      have hn := (hnames n List.mem_cons_self).1.ne_dotDot
      exact List.takeWhile_cons_of_neg (by simpa using hn)
  rw [climbs, hsplit, List.takeWhile_append_of_pos (by simp), hstop]
  simp

theorem Refers.exists_climb (h : Refers cwd root href r) :
    ∃ k names, r = Text.join "/" (List.replicate k dotDot ++ names) ∧
      (∀ n ∈ names, Name n ∧ Path.Part n) ∧ List.replicate k dotDot ++ names ≠ [] := by
  obtain ⟨file, base, -, hresolve, hlocal⟩ := h
  rcases cases_of_resolve hresolve with hexternal | ⟨t, hsettle, -⟩
  · cases hlocal.symm.trans hexternal
  · exact Url.exists_climb hsettle

/-- **A file has one URL** among those that climb equally far, wherever the references stand that resolve to
them, and as long as there is nothing to decode in the URLs. -/
theorem eq_iff_same_path (h₁ : Refers cwd root href₁ r₁) (h₂ : Refers cwd root href₂ r₂)
    (hplain₁ : Percent.Unescaped r₁) (hplain₂ : Percent.Unescaped r₂) :
    r₁ = r₂ ↔ Path.ofUrl root r₁ = Path.ofUrl root r₂ ∧ climbs r₁ = climbs r₂ := by
  constructor
  · rintro rfl
    exact ⟨rfl, rfl⟩
  · rintro ⟨hsame, hclimbs⟩
    obtain ⟨k₁, names₁, rfl, hnames₁, hne₁⟩ := h₁.exists_climb
    obtain ⟨k₂, names₂, rfl, hnames₂, hne₂⟩ := h₂.exists_climb
    have hpath : ∀ {k names}, (∀ n ∈ names, Name n ∧ Path.Part n) →
        Percent.Unescaped (Text.join "/" (List.replicate k dotDot ++ names)) →
        Path.ofUrl root (Text.join "/" (List.replicate k dotDot ++ names)) = root.normal.extend names :=
      fun hnames => ofUrl_climb (fun n hn => (hnames n hn).1) fun n hn => (hnames n hn).2
    rw [hpath hnames₁ hplain₁, hpath hnames₂ hplain₂] at hsame
    rw [climbs_join hnames₁ hne₁, climbs_join hnames₂ hne₂] at hclimbs
    have hnames : names₁ = names₂ := List.append_cancel_left (congrArg Path.parts hsame)
    rw [hclimbs, hnames]

/-- Two documents in different directories refer to one file, by two URLs of which one climbs. -/
theorem same_path_climbing : Refers "/" "/app" "../lib/./a.js" "lib/a.js" ∧
    Refers "/" "/app" " ..//lib/a.js?v=1 " "../lib/a.js" ∧
    (("lib/a.js" : Text) = "../lib/a.js" ↔ Path.ofUrl "/app" "lib/a.js" = Path.ofUrl "/app" "../lib/a.js" ∧
      climbs "lib/a.js" = climbs "../lib/a.js") := by
  have h₁ : Refers "/" "/app" "../lib/./a.js" "lib/a.js" :=
    ⟨"/app/pages/index.html", "pages/index.html", by decide, by decide, by decide⟩
  have h₂ : Refers "/" "/app" " ..//lib/a.js?v=1 " "../lib/a.js" :=
    ⟨"/app/index.html", "index.html", by decide, by decide, by decide⟩
  have hplain : ∀ r : Text, .char '%' ∉ r → Percent.Unescaped r := fun _ => Percent.unescaped_of_not_mem
  exact ⟨h₁, h₂, eq_iff_same_path h₁ h₂ (hplain _ (by decide)) (hplain _ (by decide))⟩

/-- Without the number of `..`, the file does not tell its URL. -/
theorem not_eq_of_same_path : ¬ ∀ href₁ href₂ r₁ r₂, Refers "/" "/app" href₁ r₁ → Refers "/" "/app" href₂ r₂ →
    Path.ofUrl "/app" r₁ = Path.ofUrl "/app" r₂ → r₁ = r₂ := by
  intro hone
  have h₁ : Refers "/" "/app" "a.js" "a.js" := ⟨"/app/index.html", "index.html", by decide, by decide, by decide⟩
  have h₂ : Refers "/" "/app" "../a.js" "../a.js" :=
    ⟨"/app/index.html", "index.html", by decide, by decide, by decide⟩
  have heq := hone _ _ _ _ h₁ h₂ (by decide)
  exact absurd heq (by decide)

end Url
end HtmlDeps
