import HtmlDeps.Proofs.Build.Closure
import HtmlDeps.Proofs.Glob.Below
import HtmlDeps.Proofs.Glob.Selection

/-!
# Fragments as sources

The URL of a fragment stands among the patterns for source files.  It is read as a pattern there, so that the
fragment is a source only if the last pattern that has a say takes it in (`Project.source_of_fragment`).  An
ordinary URL takes itself in; one with a class, as `[a].html`, does not (`Project.not_source_of_fragment`).

The patterns are `source_globs`, “sources plus every fragment, root-relative”, and the question is
`matches_source`.
-/

namespace HtmlDeps

/-- A layout whose paths can be written down. -/
structure Layout.Written (l : Layout) : Prop where
  root : l.root.Written
  entrypoint : l.entrypoint.Written
  shell : ∀ f ∈ l.shell, f.Written
  fragments : ∀ f ∈ l.fragments, f.Written

theorem Layout.Written.members {l : Layout} (h : l.Written) : ∀ m ∈ l.members, m.Written := by
  intro m hm
  rcases List.mem_append.1 hm with hm | hm
  · rcases List.mem_cons.1 hm with rfl | hm
    · exact h.entrypoint
    · exact h.shell m (Option.mem_toList.1 hm)
  · exact h.fragments m hm

namespace Project

variable {p : Project} {l : Layout} {cwd f : Path} {homes : Homes} {m : Glob.Matcher} {u : Text}

theorem cwd_of_anchor (h : l.anchor m cwd homes = .ok p) : p.cwd = cwd := by
  obtain ⟨root, -, -, -, -, -, hcwd, -⟩ := anchor_eq_ok h
  exact hcwd

theorem matcher_of_anchor (h : l.anchor m cwd homes = .ok p) : p.matcher = m := by
  obtain ⟨root, -, -, -, -, -, -, hmatcher⟩ := anchor_eq_ok h
  exact hmatcher

/-! ### The patterns for source files -/

/-- A fold whose steps keep what is there and put in what they are told to. -/
theorem exists_foldlM {step : List Text → Path → Except OutsideRoot (List Text)} {fs : List Path}
    (hstep : ∀ ps f u, p.url f = .ok u → ∃ qs, step ps f = .ok qs ∧ ps <+: qs ∧ u ∈ qs)
    (h : ∀ f ∈ fs, ∃ u, p.url f = .ok u) (patterns : List Text) :
    ∃ ps, fs.foldlM step patterns = .ok ps ∧ patterns <+: ps ∧ ∀ f ∈ fs, ∀ u, p.url f = .ok u → u ∈ ps := by
  induction fs generalizing patterns with
  | nil => exact ⟨patterns, rfl, List.prefix_rfl, by simp⟩
  | cons f fs ih =>
    obtain ⟨⟨u, hu⟩, hfs⟩ := List.forall_mem_cons.1 h
    obtain ⟨ps, hps, hprefix, hmem⟩ := hstep patterns f u hu
    obtain ⟨all, hall, hprefix', hmem'⟩ := ih hfs ps
    refine ⟨all, ?_, hprefix.trans hprefix', List.forall_mem_cons.2 ⟨fun u' hu' => ?_, hmem'⟩⟩
    · rw [List.foldlM_cons, hps]
      exact hall
    · obtain rfl := Except.ok.inj (hu.symm.trans hu')
      exact hprefix'.subset hmem

/-- All patterns stay, and all URLs are among them. -/
theorem exists_sourcePatterns (h : ∀ f ∈ p.allFragments, ∃ u, p.url f = .ok u) :
    ∃ ps, p.sourcePatterns = .ok ps ∧ p.sources <+: ps ∧ ∀ f ∈ p.allFragments, ∀ u, p.url f = .ok u → u ∈ ps := by
  refine exists_foldlM (fun ps f u hu => ?_) h p.sources
  rw [hu]
  refine ⟨_, rfl, ?_⟩
  split
  · exact ⟨List.prefix_rfl, ‹_›⟩
  · exact ⟨List.prefix_append _ _, by simp⟩

/-- A URL is made of parts. -/
theorem parts_of_url (hcwd : p.cwd.Written) (hf : f.Written) (hu : p.url f = .ok u) :
    ∃ names, u = Text.join "/" names ∧ ∀ n ∈ names, Path.Part n := by
  have hwritten : (f.absolute p.cwd).Written := (hcwd.join hf.normal).normal
  rw [url, Url.ofPath] at hu
  split at hu
  · exact ⟨_, (Except.ok.inj hu).symm, fun n hn => hwritten n (List.mem_of_mem_drop hn)⟩
  · cases hu

theorem isSource_of_url {ps : List Text} (hps : p.sourcePatterns = .ok ps) (hu : p.url f = .ok u) :
    p.isSource f = .ok true ↔ Glob.selects p.matcher u ps = .ok true := by
  rw [isSource, hps]
  dsimp only
  rw [selects, hu]
  dsimp only
  exact mapError_eq_ok

/-- The files below the root that match are those with a URL that is selected. -/
theorem mem_matching_iff {d : Disk} {paths : List Path} {patterns names : List Text} (hp : p.Rooted)
    (hd : d.WellFormed) (hfile : d.Holds p.root names) (hpaths : d.matching p.matcher p.root patterns = .ok paths)
    (hu : p.url (p.root.extend names) = .ok u) :
    p.root.extend names ∈ paths ↔ Glob.selects p.matcher u patterns = .ok true := by
  obtain ⟨hroot, hnames⟩ := hfile.names hp hd
  have hurl := url_extend hp hnames
  rw [hroot, hu] at hurl
  obtain rfl := Except.ok.inj hurl
  obtain ⟨found, rfl, -, hmem⟩ := Disk.exists_of_matching hpaths
  constructor
  · intro h
    obtain ⟨names', hnames', heq⟩ := List.mem_map.1 h
    obtain rfl : names' = names := List.append_cancel_left (congrArg Path.parts heq)
    exact ((hmem _).1 hnames').2
  · intro h
    exact List.mem_map.2 ⟨names, (hmem _).2 ⟨hfile, h⟩, rfl⟩

/-- **A fragment below the root is a source** exactly if the last pattern that has a say on its URL takes the
URL in, whatever matches URLs against patterns.  Where glyphs that stand for themselves match themselves, its own
URL does, if that is ordinary as a pattern and no blank stands at its end; then the fragment is a source unless a
pattern in front stands for too many or one behind takes the URL out.  The fragments that are sources are those
that are found on disk. -/
theorem source_of_fragment (hcwd : cwd.isAbsolute ∧ cwd.Written) (hl : l.Written) (h : l.anchor m cwd homes = .ok p)
    (hunder : ∀ f ∈ p.allFragments, ∃ u, p.url f = .ok u) :
    ∃ ps, p.sourcePatterns = .ok ps ∧ p.sources <+: ps ∧ ∀ f ∈ p.allFragments, ∃ u, p.url f = .ok u ∧ u ∈ ps ∧
      (p.isSource f = .ok true ↔ Glob.Takes m u false ps) ∧
      (Glob.Faithful m → Glob.Ordinary u → (∀ g ∈ u.getLast?, g.isBlank = false) → ∀ before after, ps = before ++ u :: after →
        (∃ selected, Glob.selects m u before = .ok selected) → Glob.Keeps m u after → p.isSource f = .ok true) ∧
      ∀ d : Disk, d.WellFormed → ∀ names paths, f = p.root.extend names → d.Holds p.root names →
        d.matching m p.root ps = .ok paths → (f ∈ paths ↔ p.isSource f = .ok true) := by
  obtain rfl := matcher_of_anchor h
  have hrooted := rooted_of_anchor hcwd.1 h
  have hwritten := written_of_anchor hcwd.2 hl.root hl.members h
  obtain ⟨ps, hpatterns, hprefix, hmem⟩ := exists_sourcePatterns hunder
  refine ⟨ps, hpatterns, hprefix, fun f hf => ?_⟩
  obtain ⟨u, hu⟩ := hunder f hf
  have hsource := isSource_of_url hpatterns hu
  refine ⟨u, hu, hmem f hf u hu, hsource.trans Glob.selects_eq_true_iff, ?_, ?_⟩
  · rintro hfaithful hordinary hclosing before after rfl ⟨selected, hbefore⟩ hafter
    obtain ⟨names, rfl, hparts⟩ := parts_of_url (cwd_of_anchor h ▸ hcwd.2) (hwritten f hf) hu
    have hstrip := Glob.strip_eq_self (fun g hg => (hordinary.opening g hg).2) hclosing
    have hself : Glob.fits p.matcher (Text.join "/" names) (Text.join "/" names) = .ok true := by
      rw [Glob.fits, Glob.cleaned_eq_self hstrip (Glob.not_dot_of_parts hparts)]
      exact hfaithful.itself _ hordinary.simple (Glob.tight_join fun n hn => (hparts n hn).imp_right And.right)
    refine hsource.2 (Glob.selectsFrom_of_hit hbefore (fun hbang => ?_) hself hafter)
    exact (hordinary.opening _ hbang).1 rfl
  · rintro d hd names paths rfl hfile hpaths
    exact (mem_matching_iff hrooted hd hfile hpaths hu).trans hsource.symm

/-- A page beside the entrypoint, behind patterns that take other files in and out. -/
def pages : Layout := ⟨"app", "index.html", none, ["page.html"], ["src/**/*", "!*.txt"], []⟩

theorem anchor_pages : pages.anchor Glob.accepts "/" ⟨none, [], []⟩ =
    .ok ⟨⟨"/app", "/app/index.html", none, ["/app/page.html"], ["src/**/*", "!*.txt"], []⟩, "/", Glob.accepts⟩ := by
  rfl

theorem source_of_pages :
    ∃ p, pages.anchor Glob.accepts "/" ⟨none, [], []⟩ = .ok p ∧ p.isSource "/app/page.html" = .ok true := by
  refine ⟨_, anchor_pages, ?_⟩
  have hwritten : pages.Written := ⟨by decide, by decide, by decide, by decide⟩
  have hunder : ∀ f ∈ [("/app/index.html" : Path), "/app/page.html"],
      ∃ u, Url.ofPath "/" "/app" f = .ok u := by
    intro f hf
    simp only [List.mem_cons, List.not_mem_nil, or_false] at hf
    rcases hf with rfl | rfl
    · exact ⟨"index.html", by decide⟩
    · exact ⟨"page.html", by decide⟩
  obtain ⟨ps, hps, -, hall⟩ := source_of_fragment ⟨by decide, by decide⟩ hwritten anchor_pages hunder
  obtain ⟨u, hu, -, -, hself, -⟩ := hall "/app/page.html" (by decide)
  obtain rfl : u = ("page.html" : Text) := Except.ok.inj (hu.symm.trans (by decide))
  obtain rfl : ps = [("src/**/*" : Text), "!*.txt", "index.html", "page.html"] :=
    Except.ok.inj (hps.symm.trans (by decide))
  exact hself Glob.faithful_accepts ⟨by decide, by decide⟩ (by decide) [("src/**/*" : Text), "!*.txt", "index.html"] [] rfl
    ⟨false, by decide⟩ (fun _ hmem => nomatch hmem)

/-- A page whose name is a pattern for another. -/
def bracketed : Layout := ⟨"app", "[a].html", none, [], ["src/**/*"], []⟩

theorem not_source_of_fragment : ∃ p, bracketed.anchor Glob.accepts "/" ⟨none, [], []⟩ = .ok p ∧
    Path.ofText "/app/[a].html" ∈ p.allFragments ∧ p.url "/app/[a].html" = .ok "[a].html" ∧
    ¬ p.isSource "/app/[a].html" = .ok true := by
  refine ⟨⟨⟨"/app", "/app/[a].html", none, [], ["src/**/*"], []⟩, "/", Glob.accepts⟩, ?_, ?_, ?_, ?_⟩
  · rfl
  · decide
  · decide
  · decide

end Project
end HtmlDeps
