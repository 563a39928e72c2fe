import HtmlDeps.Proofs.Build.Footprint
import HtmlDeps.Proofs.Command.Refused
import HtmlDeps.Proofs.Config.Anchored
import HtmlDeps.Proofs.Glob.Below
import HtmlDeps.Proofs.Glob.Selection

/-!
# Watching and the output

Who watches a project builds into a directory that may lie below its root, and must not take what the build writes
there for a change.  The name of the directory goes into a pattern, and changes come with real paths.  If the name is
ordinary in a pattern and no link lies below the root, nothing below the directory counts, and no build asks for
another one (`Command.Watching.minds_build`).  What a link leads to elsewhere below the root counts, and a directory
`[b]` is left out under the name `b` only (`Command.Watching.not_deaf_bracketed`).

This is the command `watch`, which leaves out `out_dir` by a pattern of `ProjectEventHandler`.
-/

namespace HtmlDeps

/-! ### The scope of a project -/

theorem Glob.selects_singleton {m : Matcher} {path p : Text} (h : p.head? ≠ some bang) :
    selects m path [p] = fits m path p := by
  rw [selects, selectsFrom_cons, verdict_of_head_ne h]
  cases fits m path p <;> rfl

namespace Watch

variable {m : Glob.Matcher} {s : Scope} {ps names : List Text} {cwd root out : Path} {homes : Homes}

theorem Scope.place?_extend (hroot : s.root.isAbsolute) (hne : names ≠ []) :
    s.place? (s.root.extend names) = some (Text.join "/" names) := by
  have hanchor : s.root.anchor ≠ .here := of_decide_eq_true hroot
  have hfrom : s.root.from? (s.root.extend names) = some names := by
    simp [Path.from?, Path.extend, hanchor]
  have htext : (Path.mk .here names).toText = Text.join "/" names := by
    cases names with
    | nil => exact absurd rfl hne
    | cons n names => rfl
  rw [Scope.place?, hfrom, Option.map_some, htext]

/-- What is left out of the scope of a project with the output below the root. -/
theorem Scope.ofProject_extend (hroot : root.isAbsolute) (hne : ps ≠ []) :
    ofProject m root (root.extend ps) = ⟨m, root, everything, [Glob.below (Text.join "/" ps)]⟩ := by
  have hanchor : root.anchor ≠ .here := of_decide_eq_true hroot
  have hfrom : root.from? (root.extend ps) = some ps := by
    simp [Path.from?, Path.extend, hanchor]
  have htext : (Path.mk .here ps).toText = Text.join "/" ps := by
    cases ps with
    | nil => exact absurd rfl hne
    | cons n ps => rfl
  rw [ofProject, hfrom, Option.toList, List.map_singleton, htext]
  rfl

/-- What counts where a directory with an ordinary name is left out: all that lies below the root with no part
that starts with a dot, but not below the directory. -/
theorem Scope.covers_iff (hm : Glob.Faithful s.matcher) (hroot : s.root.isAbsolute) (hwanted : s.wanted = everything)
    (hignored : s.ignored = [Glob.below (Text.join "/" ps)]) (hps : ∀ n ∈ ps, Path.Part n) (hne : ps ≠ [])
    (hordinary : Glob.Ordinary (Text.join "/" ps)) (hnames : ∀ n ∈ names, Path.Name n) (hsome : names ≠ []) :
    ∃ hit, s.covers (s.root.extend names) = .ok hit ∧
      (hit ↔ (∀ n ∈ names, n.head? ≠ some (.char '.')) ∧ ¬ ∃ more, more ≠ [] ∧ names = ps ++ more) := by
  have hparts : ∀ n ∈ names, n ≠ [] ∧ Glob.slash ∉ n := fun n hn => ⟨(hnames n hn).ne_nil, (hnames n hn).slash⟩
  have hbang : (Glob.below (Text.join "/" ps)).head? ≠ some Glob.bang := by
    intro hhead
    rw [Glob.below, List.head?_append_of_ne_nil _ (Glob.join_ne_nil hps hne)] at hhead
    exact (hordinary.opening _ hhead).1 rfl
  obtain ⟨left, hleft, hbelow⟩ := hm.below ps names hps hne hordinary.simple hparts
  obtain ⟨hit, hhit, hdots⟩ := hm.everything names hparts hsome
  have hclean : Glob.cleaned "**/*" = "**/*" := rfl
  refine ⟨!left && hit, ?_, ?_⟩
  · rw [Scope.covers, Scope.place?_extend hroot hsome, hignored, hwanted, everything]
    dsimp only
    rw [Glob.selects_singleton hbang, Glob.selects_singleton (by decide), Glob.fits, Glob.fits, hclean,
      Glob.cleaned_below hps hne hordinary, hleft, hhit]
    cases left <;> rfl
  · rw [Bool.and_eq_true, Bool.not_eq_true', ← Bool.not_eq_true, hbelow, hdots, and_comm]
    refine and_congr_right fun hfree => not_congr ⟨?_, ?_⟩
    · rintro ⟨more, hmore, rfl, -⟩
      exact ⟨more, hmore, rfl⟩
    · rintro ⟨more, hmore, rfl⟩
      exact ⟨more, hmore, rfl, fun n hn => hfree n (List.mem_append_right ps hn)⟩

end Watch

/-! ### What is watched -/

/-- No link lies below a directory: what is named below it has its real path below the real one of the
directory, under the same names. -/
structure Links.Straight (links : Links) (root real : Path) : Prop where
  absolute : real.isAbsolute
  below : ∀ q names, q.isAbsolute → q.parts = root.parts ++ names → (∀ n ∈ names, Path.Name n) →
    ∀ r, links q = .ok r → r = real.extend names

theorem Links.straight_none {root : Path} (hroot : root.Plain) : Links.none.Straight root ⟨.root, root.parts⟩ where
  absolute := rfl
  below q names hq hparts hnames r hr := by
    have hplain : q.Plain := ⟨hq, fun hmem => by
      rw [hparts, List.mem_append] at hmem
      exact hmem.elim hroot.settled fun hdots => (hnames _ hdots).ne_dotDot rfl⟩
    unfold Links.none at hr
    split at hr
    · cases hr
    · rw [← Except.ok.inj hr, hplain.normal_eq, hparts]
      rfl

theorem Path.atHome_of_isAbsolute {homes : Homes} {p : Path} (h : p.isAbsolute) : p.atHome homes = .ok p := by
  have hanchor : p.anchor ≠ .here := of_decide_eq_true h
  have hexpand : p.expandHome homes = some p := by
    unfold Path.expandHome
    split
    · exact absurd ‹_› hanchor
    · rfl
  rw [Path.atHome, hexpand]

/-- The directory that is watched for an absolute root. -/
theorem Watch.Watcher.rootOf_of_isAbsolute {links : Links} {cwd root : Path} {homes : Homes} (h : root.isAbsolute) :
    rootOf links cwd homes root = (links root).mapError .link := by
  rw [rootOf, Path.atHome_of_isAbsolute h]
  change (links (cwd.join root)).mapError _ = _
  rw [Path.join, if_pos h]

namespace Command

variable {s : Setting} {r : Request} {w : Watching} {requests : List Watch.Request}

theorem exists_anchor_of_prepare {p : Prepared} (h : prepare s r = .ok p) :
    ∃ l : Layout, l.anchor s.environment.libraries.matcher s.environment.cwd s.environment.homes = .ok p.project := by
  obtain ⟨project, hproject, h⟩ := exists_of_bind_eq_ok h
  obtain ⟨settings, -, h⟩ := exists_of_bind_eq_ok h
  obtain ⟨level, -, h⟩ := exists_of_bind_eq_ok h
  obtain rfl := Except.ok.inj h
  have hproject := mapError_eq_ok.1 hproject
  rw [Environment.project_eq] at hproject
  obtain ⟨l, -, hanchor⟩ := exists_of_bind_eq_ok hproject
  exact ⟨l, mapError_eq_ok.1 hanchor⟩

/-- What is watched: all of the project at its real root, less what lies below the output directory. -/
theorem Watching.scope_of_start (hcwd : s.environment.cwd.isAbsolute) (h : start s r = .ok (w, requests)) :
    (∃ l : Layout, l.anchor s.environment.libraries.matcher s.environment.cwd s.environment.homes =
        .ok w.prepared.project) ∧
      w.out = s.environment.cwd.join (w.prepared.out r) ∧
      s.environment.links w.prepared.project.root = .ok w.scope.root ∧
      w.scope = { Watch.Scope.ofProject s.environment.libraries.matcher w.prepared.project.root w.out with
        root := w.scope.root } := by
  obtain ⟨p, hp, h⟩ := exists_of_bind_eq_ok h
  obtain ⟨root, hroot, h⟩ := exists_of_bind_eq_ok h
  obtain rfl := (Prod.mk.inj (Except.ok.inj h)).1
  obtain ⟨l, hanchor⟩ := exists_anchor_of_prepare hp
  have habsolute := (Project.rooted_of_anchor hcwd hanchor).absolute
  have hroot := mapError_eq_ok.1 hroot
  have hsame : (Watch.Scope.ofProject s.environment.libraries.matcher p.project.root
      (s.environment.cwd.join (p.out r))).root = p.project.root := rfl
  rw [hsame, Watch.Watcher.rootOf_of_isAbsolute habsolute] at hroot
  exact ⟨⟨l, hanchor⟩, rfl, mapError_eq_ok.1 hroot, rfl⟩

/-! ### What a build changes -/

namespace Watching

variable {links : Links} {d d' : Disk} {dir : Path} {ps : List Text} {es : List Watch.Event}

/-- What happens on a disk that grows happens below the directory. -/
theorem exists_of_mem_changes {e : Watch.Event} (hkeys : d.files.keys.Nodup) (h : d.Grows dir d')
    (he : e ∈ changes links d d') : ∃ change names q, names ≠ [] ∧ (∀ n ∈ names, Path.Name n) ∧
      links ⟨.root, (dir.extend names).normal.parts⟩ = .ok q ∧ e = ⟨change, q, false⟩ := by
  have hcome : ∀ x ∈ d'.files, d.files.get? x.1 ≠ some x.2 →
      ∃ names, names ≠ [] ∧ (∀ n ∈ names, Path.Name n) ∧ x.1 = (dir.extend names).normal.parts :=
    fun x hx hnew => (h.come x hx).resolve_left fun hold => hnew (Table.get?_of_mem hkeys hold)
  have hevent {parts : List Text} {change : Watch.Change}
      (h : ((links ⟨.root, parts⟩).toOption.map fun p => (⟨change, p, false⟩ : Watch.Event)) = some e) :
      ∃ q, links ⟨.root, parts⟩ = .ok q ∧ e = ⟨change, q, false⟩ := by
    cases hlinks : links ⟨.root, parts⟩ with
    | error f =>
      rw [hlinks] at h
      cases h
    | ok q =>
      rw [hlinks] at h
      exact ⟨q, rfl, (Option.some.inj h).symm⟩
  rcases List.mem_append.1 he with he | he
  · obtain ⟨⟨parts, contents⟩, hx, he⟩ := List.mem_filterMap.1 he
    dsimp only at he
    split at he
    · rename_i hnone
      obtain ⟨names, hne, hnames, rfl⟩ := hcome _ hx (by rw [hnone]; nofun)
      obtain ⟨q, hq, rfl⟩ := hevent he
      exact ⟨.created, names, q, hne, hnames, hq, rfl⟩
    · rename_i old hold
      split at he
      · cases he
      · rename_i hother
        obtain ⟨names, hne, hnames, rfl⟩ := hcome _ hx (by rw [hold]; exact fun heq => hother (Option.some.inj heq))
        obtain ⟨q, hq, rfl⟩ := hevent he
        exact ⟨.modified, names, q, hne, hnames, hq, rfl⟩
  · obtain ⟨⟨parts, contents⟩, hx, he⟩ := List.mem_filterMap.1 he
    have hhas : d'.files.has parts :=
      h.stay parts ((Table.mem_keys_iff _ _).1 (List.mem_map.2 ⟨_, hx, rfl⟩))
    dsimp only at he
    rw [if_pos hhas] at he
    cases he

theorem minds_of_forall (h : ∀ e ∈ es, w.scope.minds e = .ok false) : w.minds es = .ok false := by
  have hall : es.mapM w.scope.minds = .ok (es.map fun _ => false) := by
    induction es with
    | nil => rfl
    | cons e es ih =>
      rw [List.forall_mem_cons] at h
      rw [List.mapM_cons, h.1, ih h.2]
      rfl
  rw [minds, hall]
  simp [Except.map]

theorem disk_build (w : Watching) (d : Disk) : ∃ selector, (w.build d).1 =
    (d.build ⟨w.prepared.project, w.prepared.settings.loadTimeout, selector, some w.out, w.limit⟩).disk := by
  refine ⟨if w.prepared.settings.splitScripts then some Selector.usual else none, ?_⟩
  unfold build
  dsimp only
  split <;> rfl

section

variable (hm : Glob.Faithful s.environment.libraries.matcher) (hcwd : s.environment.cwd.isAbsolute)
  (hw : start s r = .ok (w, requests)) (hout : w.out = w.prepared.project.root.extend ps) (hne : ps ≠ [])
  (hps : ∀ n ∈ ps, Path.Name n ∧ n ≠ Path.dot) (hordinary : Glob.Ordinary (Text.join "/" ps))

include hm hcwd hw hout hne hps hordinary

theorem covers_iff_of_start {names : List Text} (hreal : w.scope.root.isAbsolute) (hsome : names ≠ [])
    (hnames : ∀ n ∈ names, Path.Name n) : ∃ hit, w.scope.covers (w.scope.root.extend names) = .ok hit ∧
      (hit ↔ (∀ n ∈ names, n.head? ≠ some (.char '.')) ∧ ¬ ∃ more, more ≠ [] ∧ names = ps ++ more) := by
  obtain ⟨⟨l, hanchor⟩, -, -, hscope⟩ := scope_of_start hcwd hw
  rw [hout, Watch.Scope.ofProject_extend (Project.rooted_of_anchor hcwd hanchor).absolute hne] at hscope
  have hparts : ∀ n ∈ ps, Path.Part n :=
    fun n hn => ⟨(hps n hn).1.ne_nil, (hps n hn).2, (hps n hn).1.slash⟩
  generalize w.scope = scope at hscope hreal ⊢
  have hmatcher : scope.matcher = s.environment.libraries.matcher := congrArg (·.matcher) hscope
  exact Watch.Scope.covers_iff (hmatcher ▸ hm) hreal (congrArg (·.wanted) hscope) (congrArg (·.ignored) hscope)
    hparts hne hordinary hnames hsome

/-- The real path of a file below the directory leads there, whichever way it is named, and does not count. -/
theorem covers_real (hlinks : s.environment.links.Straight w.prepared.project.root w.scope.root) {more : List Text}
    {q real : Path} (hmore : more ≠ []) (hnames : ∀ n ∈ more, Path.Name n) (hq : q.isAbsolute)
    (hparts : q.parts = w.prepared.project.root.parts ++ (ps ++ more)) (hreal : s.environment.links q = .ok real) :
    w.scope.covers real = .ok false := by
  have hall : ∀ n ∈ ps ++ more, Path.Name n :=
    List.forall_mem_append.2 ⟨fun n hn => (hps n hn).1, hnames⟩
  obtain rfl := hlinks.below q _ hq hparts hall real hreal
  obtain ⟨hit, hhit, hiff⟩ := covers_iff_of_start hm hcwd hw hout hne hps hordinary hlinks.absolute
    (List.append_ne_nil_of_left_ne_nil hne more) hall
  have hnot : ¬ hit := fun htrue => (hiff.1 htrue).2 ⟨more, hmore, rfl⟩
  rw [hhit, Bool.eq_false_iff.2 hnot]

end

/-- **A build does not hear itself.**  If the output directory lies strictly below the root and its name is ordinary
in a pattern, then what counts is what lies elsewhere below the real root, up to names that start with a dot.  If no
link lies below the root, then no file below the directory counts by its real path, and what a build does to the disk
asks for no other build. -/
theorem minds_build (hm : Glob.Faithful s.environment.libraries.matcher) (hcwd : s.environment.cwd.isAbsolute)
    (hw : start s r = .ok (w, requests)) (hlinks : s.environment.links.Straight w.prepared.project.root w.scope.root)
    (hout : w.out = w.prepared.project.root.extend ps) (hne : ps ≠ []) (hps : ∀ n ∈ ps, Path.Name n ∧ n ≠ Path.dot)
    (hordinary : Glob.Ordinary (Text.join "/" ps)) :
    (∀ names, names ≠ [] → (∀ n ∈ names, Path.Name n) → ∃ hit, w.scope.covers (w.scope.root.extend names) = .ok hit ∧
      (hit ↔ (∀ n ∈ names, n.head? ≠ some (.char '.')) ∧ ¬ ∃ more, more ≠ [] ∧ names = ps ++ more)) ∧
    (∀ more, more ≠ [] → (∀ n ∈ more, Path.Name n) → ∀ q, s.environment.links (w.out.extend more) = .ok q →
      w.scope.covers q = .ok false) ∧
    ∀ d : Disk, d.WellFormed → d.files.keys.Nodup → d.files.has w.prepared.project.root.normal.parts = false →
      w.minds (changes s.environment.links d (w.build d).1) = .ok false := by
  obtain ⟨⟨l, hanchor⟩, -⟩ := scope_of_start hcwd hw
  have habsolute : w.out.isAbsolute := by
    rw [hout]
    exact (Project.rooted_of_anchor hcwd hanchor).absolute
  have hextend : ∀ more, w.out.extend more = w.prepared.project.root.extend (ps ++ more) := by
    intro more
    rw [hout]
    exact congrArg (Path.mk _) (List.append_assoc _ _ _)
  refine ⟨?_, ?_, ?_⟩
  · intro names hsome hnames
    exact covers_iff_of_start hm hcwd hw hout hne hps hordinary hlinks.absolute hsome hnames
  · intro more hmore hnames q hq
    have hparts : (w.out.extend more).parts = w.prepared.project.root.parts ++ (ps ++ more) := by
      rw [hextend]
      rfl
    have hbelow : (w.out.extend more).isAbsolute := habsolute
    exact covers_real hm hcwd hw hout hne hps hordinary hlinks hmore hnames hbelow hparts hq
  · intro d hd hkeys hroot
    obtain ⟨selector, hbuild⟩ := disk_build w d
    have hgrows : d.Grows w.out (w.build d).1 := by
      rw [hbuild]
      exact Disk.grows_build hd hroot hcwd hanchor habsolute rfl
    apply minds_of_forall
    intro e he
    obtain ⟨change, names, q, hsome, hnames, hq, rfl⟩ := exists_of_mem_changes hkeys hgrows he
    refine covers_real hm hcwd hw hout hne hps hordinary hlinks hsome hnames rfl ?_ hq
    have hall : ∀ n ∈ ps ++ names, Path.Name n :=
      List.forall_mem_append.2 ⟨fun n hn => (hps n hn).1, hnames⟩
    rw [hextend, Path.normal_extend_names hall, (Project.plain_of_anchor hcwd hanchor).1.normal_eq]
    rfl

/-- Watches a page and builds it into a directory. -/
def intoDirectory (out : Path) : Request := ⟨.watch, none, some out, none, none⟩

/-- How the page is watched. -/
def ofPage (out : Path) : Watching where
  prepared := ⟨⟨⟨"/app", "/app/index.html", none, [], ["src/**/*"], []⟩, "/app", Glob.accepts⟩, Settings.default, 20⟩
  out := out
  scope := Watch.Scope.ofProject Glob.accepts "/app" out
  limit := 100

theorem start_ofPage {out : Path} (h : out.isAbsolute) :
    start pageSetting (intoDirectory out) = .ok (ofPage out, [.schedule "/app", .start]) := by
  have hjoin : Path.join "/app" out = out := by rw [Path.join, if_pos h]
  have hstart : start pageSetting (intoDirectory out) =
      .ok (ofPage (Path.join "/app" out), [.schedule "/app", .start]) := rfl
  rw [hstart, hjoin]

theorem minds_build_page : start pageSetting (intoDirectory "/app/build") =
      .ok (ofPage "/app/build", [.schedule "/app", .start]) ∧
    (ofPage "/app/build").scope.covers "/app/build/index.html" = .ok false ∧
    (ofPage "/app/build").minds
      (changes Links.none pageSetting.disk ((ofPage "/app/build").build pageSetting.disk).1) = .ok false := by
  have hstart : start pageSetting (intoDirectory "/app/build") =
      .ok (ofPage "/app/build", [.schedule "/app", .start]) := start_ofPage (by decide)
  have hout : (ofPage "/app/build").out = (ofPage "/app/build").prepared.project.root.extend ["build"] := rfl
  have hlinks : pageSetting.environment.links.Straight "/app" "/app" := Links.straight_none ⟨rfl, by decide⟩
  obtain ⟨-, hcovers, hminds⟩ := minds_build Glob.faithful_accepts (by decide) hstart hlinks hout (by decide) (by decide)
    ⟨by decide, by decide⟩
  have hdisk : pageSetting.disk.WellFormed := by
    unfold Disk.WellFormed
    decide
  exact ⟨hstart, hcovers ["index.html"] (by decide) (by decide) _ rfl, hminds _ hdisk (by decide) (by decide)⟩

/-- A directory whose name is a pattern for another.  The page is written there, and that counts. -/
theorem not_deaf_bracketed : start pageSetting (intoDirectory "/app/[b]") =
      .ok (ofPage "/app/[b]", [.schedule "/app", .start]) ∧
    (ofPage "/app/[b]").out = (ofPage "/app/[b]").prepared.project.root.extend ["[b]"] ∧
    Project.url (ofPage "/app/[b]").prepared.project "/app/index.html" = .ok "index.html" ∧
    ¬ (ofPage "/app/[b]").scope.covers ((ofPage "/app/[b]").out.inOutput "index.html") = .ok false := by
  refine ⟨start_ofPage (by decide), rfl, by decide, ?_⟩
  decide

end Watching
end Command
end HtmlDeps
