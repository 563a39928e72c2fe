import HtmlDeps.Proofs.Config.Fragments
import HtmlDeps.Proofs.Path.Seen

/-!
# Anchored projects

The root of an anchored layout and its fragments are absolute and in normal form.  Nobody checks that the
fragments lie below the root: they do exactly if no path of the layout leads out of it
(`Project.enclosed_iff`).  Then there are patterns for source files, and a build can start; otherwise nothing can
be said of any path, as with the page `../x.html` (`Project.not_enclosed_climber`).

This is `_anchor_paths`; “validation makes root absolute and every fragment absolute under root”, the full
specification says.
-/

namespace HtmlDeps

theorem Path.atHome_eq_ok {homes : Homes} {m q : Path} : m.atHome homes = .ok q ↔ q ∈ m.expandHome homes := by
  unfold atHome
  cases m.expandHome homes with
  | none => exact iff_of_false nofun nofun
  | some q' => simp

namespace Project

open HtmlDeps.Path

variable {p : Project} {l : Layout} {cwd f : Path} {homes : Homes} {m : Glob.Matcher}

/-- All fragments lie below the root; where `/` and `//` are not told apart. -/
def Enclosed (p : Project) : Prop := ∀ f ∈ p.allFragments, p.root.normal.parts <+: f.normal.parts

instance (p : Project) : Decidable p.Enclosed :=
  inferInstanceAs (Decidable (∀ f ∈ p.allFragments, p.root.normal.parts <+: f.normal.parts))

theorem absolute_of_anchor (hcwd : cwd.isAbsolute) (h : l.anchor m cwd homes = .ok p) :
    ∀ f ∈ p.allFragments, f.isAbsolute := by
  have hroot := (rooted_of_anchor hcwd h).absolute
  intro f hf
  obtain ⟨m, -, q, -, rfl⟩ := (mem_allFragments_of_anchor h).1 hf
  change (p.root.join q).isAbsolute
  rw [join]
  split
  · assumption
  · exact hroot

theorem plain_of_anchor (hcwd : cwd.isAbsolute) (h : l.anchor m cwd homes = .ok p) :
    p.root.Plain ∧ ∀ f ∈ p.allFragments, f.Plain := by
  constructor
  · obtain ⟨root, -, hbase, -⟩ := anchor_eq_ok h
    have habsolute := (rooted_of_anchor hcwd h).absolute
    rw [hbase] at habsolute ⊢
    exact plain_normal habsolute
  · intro f hf
    have habsolute := absolute_of_anchor hcwd h f hf
    obtain ⟨m, -, q, -, rfl⟩ := (mem_allFragments_of_anchor h).1 hf
    exact plain_normal habsolute

/-! ### Fragments below the root -/

/-- A fragment lies below the root if it has a URL. -/
theorem exists_url_iff (hcwd : cwd.isAbsolute) (h : l.anchor m cwd homes = .ok p) (hf : f ∈ p.allFragments) :
    (∃ u, p.url f = .ok u) ↔ p.root.normal.parts <+: f.normal.parts := by
  have hplain := (plain_of_anchor hcwd h).2 f hf
  rw [url_of_plain (rooted_of_anchor hcwd h) hplain, hplain.normal_eq, ← List.isPrefixOf_iff_prefix]
  split
  · exact iff_of_true ⟨_, rfl⟩ ‹_›
  · exact iff_of_false nofun ‹_›

theorem enclosed_iff_stays (hcwd : cwd.isAbsolute) (h : l.anchor m cwd homes = .ok p) :
    p.Enclosed ↔ ∀ m ∈ l.members, ∀ q ∈ m.expandHome homes, p.root.stays q := by
  have hroot := (plain_of_anchor hcwd h).1
  unfold Enclosed
  simp only [mem_allFragments_of_anchor h, stays_iff hroot, hroot.normal_eq, atHome_eq_ok]
  constructor
  · intro hall m hm q hq
    rw [← normal_normal]
    exact hall _ ⟨m, hm, q, hq, rfl⟩
  · rintro hall f ⟨m, hm, q, hq, rfl⟩
    rw [normal_normal]
    exact hall m hm q hq

/-! ### What depends on it -/

/-- A fold fails if one of its steps does. -/
theorem foldlM_eq_error {step : List Text → Path → Except OutsideRoot (List Text)} {fs : List Path}
    (hstep : ∀ ps, ∃ e, step ps f = .error e) (hf : f ∈ fs) (ps : List Text) : ∃ e, fs.foldlM step ps = .error e := by
  induction fs generalizing ps with
  | nil => cases hf
  | cons g fs ih =>
    rw [List.foldlM_cons]
    cases hg : step ps g with
    | error e => exact ⟨e, rfl⟩
    | ok ps' =>
      refine ih ((List.mem_cons.1 hf).resolve_left ?_) ps'
      rintro rfl
      obtain ⟨e, he⟩ := hstep ps
      rw [he] at hg
      cases hg

theorem sourcePatterns_eq_error (hf : f ∈ p.allFragments) (h : ¬ ∃ u, p.url f = .ok u) :
    ∃ e, p.sourcePatterns = .error e := by
  refine foldlM_eq_error (fun ps => ?_) hf p.sources
  cases hurl : p.url f with
  | error e => exact ⟨e, rfl⟩
  | ok u => exact absurd ⟨u, hurl⟩ h

/-- With patterns, no path is refused for lying outside. -/
theorem isSource_ne_outside {ps : List Text} (h : p.sourcePatterns = .ok ps) (q : Path) (e : OutsideRoot) :
    p.isSource q ≠ .error (.outside e) := by
  intro houtside
  rw [isSource, h] at houtside
  dsimp only [selects] at houtside
  split at houtside
  · cases houtside
  · rename_i u _
    cases hselects : Glob.selects p.matcher u ps with
    | ok b =>
      rw [hselects] at houtside
      cases houtside
    | error e =>
      rw [hselects] at houtside
      cases houtside

theorem isSource_eq_outside {e : OutsideRoot} (h : p.sourcePatterns = .error e) (q : Path) :
    p.isSource q = .error (.outside e) := by
  rw [isSource, h]

end Project

namespace Build

variable {C : Crawler} {s : Setup} {ps : List Text} {e : OutsideRoot} {b : Build C} {qs : List Path}

theorem enqueueExtras_ne_outside (hps : s.project.sourcePatterns = .ok ps) (hp : s.project.Rooted)
    (hqs : ∀ q ∈ qs, s.project.Inside q) (b : Build C) : (b.enqueueExtras s qs).2 ≠ some (.outside e) := by
  induction qs generalizing b with
  | nil => exact nofun
  | cons q qs ih =>
    obtain ⟨⟨names, hq, hnames⟩, hrest⟩ := List.forall_mem_cons.1 hqs
    have hurl := Project.url_extend hp hnames
    rw [← hq] at hurl
    rw [enqueueExtras, hurl]
    cases hsource : s.project.isSource q with
    | error f =>
      cases f with
      | outside f => exact absurd hsource (Project.isSource_ne_outside hps q f)
      | patterns f => exact nofun
    | ok source =>
      cases source with
      | true => exact ih hrest _
      | false => exact ih hrest _

/-- A build of a project with patterns starts without a fault about a fragment. -/
theorem start_ne_outside {d : Disk} {plan : BuildPlan} (hps : plan.project.sourcePatterns = .ok ps)
    (hp : plan.project.Rooted) (hd : d.WellFormed) (b : Build C) :
    (b.start (d.setup plan)).2 ≠ some (.outside e) := by
  unfold start
  split
  · exact nofun
  · dsimp only
    split
    · exact nofun
    · rename_i extras hextras
      have hne := enqueueExtras_ne_outside (e := e) (s := d.setup plan) hps hp
        (Disk.inside_of_mem_matching hp hd hextras) { b with started := true }
      split
      · rename_i f hfault
        rw [hfault] at hne
        exact hne
      · exact nofun

/-- Without patterns a build does not start if there is an extra dependency. -/
theorem start_eq_outside {d : Disk} {plan : BuildPlan} {q : Path} (he : plan.project.sourcePatterns = .error e)
    (hextras : d.matching plan.project.matcher plan.project.root plan.project.extras = .ok (q :: qs))
    (hb : b.started = false) :
    (b.start (d.setup plan)).2 = some (.outside e) := by
  have hsource : (d.setup plan).project.isSource q = .error (.outside e) := Project.isSource_eq_outside he q
  have hsetup : (d.setup plan).extras = .ok (q :: qs) := hextras
  rw [start, hb, if_neg Bool.false_ne_true, hsetup]
  dsimp only
  rw [enqueueExtras, hsource]
  rfl

end Build

namespace Project

open HtmlDeps.Path

variable {C : Crawler} {p : Project} {l : Layout} {cwd : Path} {homes : Homes} {m : Glob.Matcher}

/-- **An anchored project** has an absolute root and absolute fragments, and all are in normal form.  The
fragments lie below the root exactly if no path of the layout leads out of it.  Then there are patterns for
source files, no path is refused for lying outside, and a build starts without such a fault; otherwise there are
none, every path is refused, and a build with an extra dependency does not start. -/
theorem enclosed_iff (hcwd : cwd.isAbsolute) (h : l.anchor m cwd homes = .ok p) :
    (p.root.isAbsolute ∧ ∀ f ∈ p.allFragments, f.isAbsolute) ∧
    (p.root.normal = p.root ∧ ∀ f ∈ p.allFragments, f.normal = f) ∧
    (p.Enclosed ↔ ∀ m ∈ l.members, ∀ q ∈ m.expandHome homes, p.root.stays q) ∧
    (p.Enclosed → (∃ ps, p.sourcePatterns = .ok ps) ∧ ∀ e,
      (∀ q, p.isSource q ≠ .error (.outside e)) ∧
      ∀ (d : Disk) (plan : BuildPlan) (b : Build C), plan.project = p → d.WellFormed →
        (b.start (d.setup plan)).2 ≠ some (.outside e)) ∧
    (¬ p.Enclosed → ∃ e, p.sourcePatterns = .error e ∧ (∀ q, p.isSource q = .error (.outside e)) ∧
      ∀ (d : Disk) (plan : BuildPlan) (b : Build C) q qs, plan.project = p →
        d.matching m p.root p.extras = .ok (q :: qs) → b.started = false →
        (b.start (d.setup plan)).2 = some (.outside e)) := by
  obtain rfl := matcher_of_anchor h
  have hrooted := rooted_of_anchor hcwd h
  refine ⟨⟨hrooted.absolute, absolute_of_anchor hcwd h⟩, ?_, enclosed_iff_stays hcwd h, ?_, ?_⟩
  · obtain ⟨hroot, hfragments⟩ := plain_of_anchor hcwd h
    exact ⟨hroot.normal_eq, fun f hf => (hfragments f hf).normal_eq⟩
  · intro henclosed
    obtain ⟨ps, hps, -⟩ := exists_sourcePatterns fun f hf => (exists_url_iff hcwd h hf).2 (henclosed f hf)
    refine ⟨⟨ps, hps⟩, fun e => ⟨fun q => isSource_ne_outside hps q e, ?_⟩⟩
    rintro d plan b rfl hd
    exact Build.start_ne_outside hps hrooted hd b
  · intro hout
    obtain ⟨f, hf⟩ := Classical.not_forall.1 hout
    obtain ⟨hf, hprefix⟩ := Classical.not_imp.1 hf
    obtain ⟨e, he⟩ := sourcePatterns_eq_error hf fun hurl => hprefix ((exists_url_iff hcwd h hf).1 hurl)
    refine ⟨e, he, isSource_eq_outside he, ?_⟩
    rintro d plan b q qs rfl hextras hb
    exact Build.start_eq_outside he hextras hb

/-- Paths that leave directories and come back. -/
def returning : Layout := ⟨"app/x/..", "./sub/../index.html", some "../app/shell.html", ["//srv/app/page.html"], [], []⟩

/-- The project of the layout. -/
def returned : Project :=
  ⟨⟨"/srv/app", "/srv/app/index.html", some "/srv/app/shell.html", ["//srv/app/page.html"], [], []⟩, "/srv",
    Glob.accepts⟩

theorem enclosed_returned : returning.anchor Glob.accepts "/srv" ⟨none, [], []⟩ = .ok returned ∧
    (returned.root.normal = returned.root ∧ ∀ f ∈ returned.allFragments, f.normal = f) ∧ returned.Enclosed ∧
    (∃ ps, returned.sourcePatterns = .ok ps) ∧ ∀ q e, returned.isSource q ≠ .error (.outside e) := by
  have hanchor : returning.anchor Glob.accepts "/srv" ⟨none, [], []⟩ = .ok returned := rfl
  obtain ⟨-, hnormal, henclosed, hin, -⟩ := enclosed_iff (C := importer) (by decide) hanchor
  have henclosed := henclosed.2 (by decide)
  obtain ⟨hpatterns, hsource⟩ := hin henclosed
  exact ⟨hanchor, hnormal, henclosed, hpatterns, fun q e => (hsource e).1 q⟩

/-- A layout whose entrypoint leads out of the root. -/
def climbing : Layout := ⟨"/app", "../x.html", none, [], ["src/**/*"], []⟩

/-- The project of the layout. -/
def climber : Project := ⟨⟨"/app", "/x.html", none, [], ["src/**/*"], []⟩, "/", Glob.accepts⟩

theorem not_enclosed_climber : climbing.anchor Glob.accepts "/" ⟨none, [], []⟩ = .ok climber ∧ ¬ climber.Enclosed ∧
    climber.sourcePatterns = .error ⟨"/x.html", "/app"⟩ ∧
    climber.isSource "/app/a.js" = .error (.outside ⟨"/x.html", "/app"⟩) := by
  refine ⟨?_, ?_, ?_, ?_⟩
  · rfl
  · decide
  · decide
  · decide

end Project
end HtmlDeps
