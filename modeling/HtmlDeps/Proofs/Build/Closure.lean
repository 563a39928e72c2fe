import HtmlDeps.Build.Output
import HtmlDeps.Proofs.Build.Orderly
import HtmlDeps.Proofs.Except
import HtmlDeps.Proofs.Split.Stream

/-!
# What a build on disk has put out

The files of a project on disk arrive, the build runs in any order of steps, and what it has sent is
put out.  If there is a summary, then all that the index refers to was registered and put out
(`Build.Fed.covers_of_result`).

This is what `run_build` promises with its `BuildSummary`.
-/

namespace HtmlDeps

/-! ### The files of a project -/

namespace Disk

variable {m : Glob.Matcher} {d : Disk} {p : Project} {patterns : List Text} {paths : List Path}

/-- All files have names that a file can have. -/
def WellFormed (d : Disk) : Prop := ∀ x ∈ d.files, ∀ n ∈ x.1, Path.Name n

/-- There is a file below a directory, under these names. -/
def Holds (d : Disk) (root : Path) (names : List Text) : Prop :=
  names ≠ [] ∧ d.files.has (root.parts ++ names)

theorem mem_below_iff {root : Path} {names : List Text} :
    names ∈ d.below root ↔ d.Holds root names := by
  have hhas : ∀ f : List Text, d.files.has f ↔ ∃ x ∈ d.files, x.1 = f := by
    intro f
    rw [Table.has, ← Table.mem_keys_iff, Table.keys, List.mem_map]
  unfold below Holds
  rw [List.mem_mergeSort, List.mem_filterMap, hhas]
  constructor
  · rintro ⟨⟨f, contents⟩, hfile, hsome⟩
    dsimp only at hsome
    split at hsome
    · rename_i hprefix
      rw [Bool.and_eq_true, List.isPrefixOf_iff_prefix, bne_iff_ne] at hprefix
      obtain ⟨⟨rest, rfl⟩, hne⟩ := hprefix
      obtain rfl : rest = names := by simpa using hsome
      refine ⟨?_, _, hfile, rfl⟩
      rintro rfl
      exact hne (List.append_nil _).symm
    · cases hsome
  · rintro ⟨hne, ⟨f, contents⟩, hfile, rfl⟩
    refine ⟨_, hfile, ?_⟩
    have hbelow : (root.parts.isPrefixOf (root.parts ++ names) && root.parts != root.parts ++ names) = true := by
      rw [Bool.and_eq_true, List.isPrefixOf_iff_prefix, bne_iff_ne]
      exact ⟨List.prefix_append _ _, fun heq => hne (List.self_eq_append_right.1 heq)⟩
    dsimp only
    rw [if_pos hbelow, List.drop_left]

/-- If anything is found below the root of a project, the root is in normal form. -/
theorem Holds.names {names : List Text} (hp : p.Rooted) (hd : d.WellFormed) (h : d.Holds p.root names) :
    p.root.normal = p.root ∧ ∀ n ∈ names, Path.Name n := by
  have hmem : p.root.parts ++ names ∈ d.files.keys := (Table.mem_keys_iff _ _).2 h.2
  obtain ⟨x, hx, hparts⟩ := List.mem_map.1 hmem
  have hname : ∀ n ∈ p.root.parts ++ names, Path.Name n := hparts ▸ hd x hx
  have hroot : p.root.Plain := ⟨hp.absolute,
    fun hmem => (hname _ (List.mem_append_left _ hmem)).ne_dotDot rfl⟩
  exact ⟨hroot.normal_eq, fun n hn => hname n (List.mem_append_right _ hn)⟩

/-- Exactly the files that the patterns select are found. -/
theorem exists_of_matching {root : Path} (h : d.matching m root patterns = .ok paths) :
    ∃ names : List (List Text), paths = names.map root.extend ∧ names.Sublist (d.below root) ∧
      ∀ n, n ∈ names ↔ d.Holds root n ∧ Glob.selects m (Text.join "/" n) patterns = .ok true := by
  unfold matching at h
  split at h
  · rename_i hnone
    obtain rfl := List.isEmpty_iff.1 hnone
    obtain rfl := Except.ok.inj h
    refine ⟨[], rfl, List.nil_sublist _, fun n => iff_of_false List.not_mem_nil fun hn => ?_⟩
    exact absurd (Except.ok.inj hn.2) nofun
  · obtain ⟨names, hnames, h⟩ := exists_of_bind_eq_ok h
    obtain ⟨hsublist, hmem⟩ := filterM_eq_ok hnames
    refine ⟨names, (Except.ok.inj h).symm, hsublist, fun n => ?_⟩
    rw [hmem, mem_below_iff]

/-- What is found below the root of a project lies there. -/
theorem inside_of_mem_matching (hp : p.Rooted) (hd : d.WellFormed)
    (h : d.matching m p.root patterns = .ok paths) : ∀ q ∈ paths, p.Inside q := by
  obtain ⟨names, rfl, -, hmem⟩ := exists_of_matching h
  intro q hq
  obtain ⟨n, hn, rfl⟩ := List.mem_map.1 hq
  obtain ⟨hroot, hnames⟩ := ((hmem n).1 hn).1.names hp hd
  exact ⟨n, by rw [hroot], hnames⟩

theorem inside_of_mem_arrivals (hp : p.Rooted) (hd : d.WellFormed) {f : File}
    (h : .file f ∈ d.arrivals p) : p.Inside f.path := by
  unfold arrivals at h
  split at h
  · cases List.mem_singleton.1 h
  · split at h
    · cases List.mem_singleton.1 h
    · rename_i paths hpaths
      rcases List.mem_append.1 h with h | h
      · obtain ⟨q, hq, harrival⟩ := List.mem_map.1 h
        have hpath : f.path = q := by
          unfold arrival at harrival
          split at harrival
          · rw [← Arrival.file.inj harrival]
          · cases harrival
        rw [hpath]
        exact inside_of_mem_matching hp hd hpaths q hq
      · cases List.mem_singleton.1 h

theorem regular_of_origin {plan : BuildPlan} {gated : Bool} {q : Path} (hp : plan.project.Rooted)
    (hd : d.WellFormed) (hq : Build.Origin { d.setup plan with gated } q) : plan.project.Regular q := by
  rcases hq with ⟨t, rfl⟩ | ⟨ps, hextras, hq⟩
  · exact Project.regular_path hp t
  · exact (inside_of_mem_matching hp hd hextras q hq).regular hp

end Disk

/-! ### What is put out -/

theorem Outlet.drained_of_fault_eq_none {o : Outlet Failure} {selector : Option Selector}
    (h : (o.drained selector Ledger.empty).fault = none) :
    (o.drained selector Ledger.empty).files.map (·.path) = o.sent.map (·.path) ∧
      (o.drained selector Ledger.empty).ledger = Ledger.empty := by
  cases selector with
  | none => exact ⟨rfl, rfl⟩
  | some sel =>
    cases hfault : (Stage.passAll sel Ledger.empty [] o.sent).fault with
    | none => exact Stage.passAll_of_fault_eq_none hfault
    | some e =>
      simp [drained, hfault] at h

/-- A closed stream that is drained without a fault was ended properly. -/
theorem Outlet.ending_of_fault_eq_none {o : Outlet Failure} {selector : Option Selector} {l : Ledger}
    (hclosed : o.closed) (h : (o.drained selector l).fault = none) : o.ending = some .complete := by
  have hending : o.ending.bind Ending.fault? = none := by
    cases selector with
    | none => exact h
    | some sel =>
      simp only [drained, Option.orElse_eq_orElse, Option.orElse_eq_or, Option.or_eq_none_iff] at h
      exact h.2.1
  obtain ⟨e, he⟩ := Option.isSome_iff_exists.1 hclosed
  rw [he] at hending
  cases e with
  | complete => exact he
  | failed f => cases hending

/-- Without a fault, all files are written under their URLs. -/
theorem Disk.urls_writeAll {d : Disk} {p : Project} {out : Option Path} {fs : List File}
    (h : (d.writeAll p out fs).2.2 = none) :
    (d.writeAll p out fs).2.1.map .ok = fs.map fun f => p.url f.path := by
  induction fs generalizing d with
  | nil => rfl
  | cons g fs ih =>
    unfold writeAll at h ⊢
    cases hurl : p.url g.path with
    | error e => simp [hurl] at h
    | ok u =>
      simp only [hurl] at h ⊢
      split at h
      · cases h
      · rw [List.map_cons, List.map_cons, hurl, ih h]

/-- A stream that is put out without a fault is put out as a whole, and nothing stays cut. -/
theorem Outlet.put_out {o : Outlet Failure} {selector : Option Selector} {d : Disk} {p : Project}
    {out : Option Path}
    (hfault : (o.drained selector Ledger.empty).fault = none)
    (hwritten : (d.writeAll p out (o.drained selector Ledger.empty).files).2.2 = none) :
    (o.drained selector Ledger.empty).ledger = Ledger.empty ∧
      (d.writeAll p out (o.drained selector Ledger.empty).files).2.1.map .ok =
        o.sent.map fun f => p.url f.path := by
  obtain ⟨hpaths, hledger⟩ := drained_of_fault_eq_none hfault
  refine ⟨hledger, ?_⟩
  have hurls := congrArg (List.map p.url) hpaths
  rw [List.map_map, List.map_map] at hurls
  exact (Disk.urls_writeAll hwritten).trans hurls

namespace Build

variable {m : Glob.Matcher} {b b₀ : Build importer} {rest : List Arrival}

/-- A summary has the index and, in order, the URLs of all files that were sent. -/
theorem urls_of_conclude {d : Disk} {plan : BuildPlan} {summary : Summary}
    (h : (d.conclude plan b).result = some (.ok summary)) :
    b.outcome = some (.ok summary.index) ∧ b.sources.ending = some .complete ∧
      summary.sources.map .ok = b.sources.sent.map (fun f => plan.project.url f.path) ∧
      summary.dependencies.map .ok = b.dependencies.sent.map fun f => plan.project.url f.path := by
  unfold Disk.conclude at h
  dsimp only at h
  split at h
  · cases h
  · cases h
  · rename_i i hfault houtcome
    split at h
    · rename_i hclosed
      rw [Bool.and_eq_true] at hclosed
      obtain rfl := Except.ok.inj (Option.some.inj h)
      simp only [Option.orElse_eq_orElse, Option.orElse_eq_or, Option.or_eq_none_iff] at hfault
      obtain ⟨hsourceUrls, hsources, hdependencyUrls, hdependencies⟩ := hfault
      obtain ⟨hledger, hurls⟩ := Outlet.put_out hsources hsourceUrls
      rw [hledger] at hdependencyUrls hdependencies
      obtain ⟨-, hurls'⟩ := Outlet.put_out hdependencies hdependencyUrls
      refine ⟨houtcome, Outlet.ending_of_fault_eq_none hclosed.1 hsources, hurls, ?_⟩
      rw [hledger]
      exact hurls'
    · cases h
  · cases h

theorem url_mem_of_conclude {d : Disk} {plan : BuildPlan} {summary : Summary}
    (h : (d.conclude plan b).result = some (.ok summary)) :
    b.outcome = some (.ok summary.index) ∧ ∀ f ∈ b.sent, ∃ u,
      plan.project.url f.path = .ok u ∧ (u ∈ summary.sources ∨ u ∈ summary.dependencies) := by
  obtain ⟨houtcome, -, hsources, hdependencies⟩ := urls_of_conclude h
  have hlisted : ∀ {us : List Text} {fs : List File},
      us.map .ok = fs.map (fun f => plan.project.url f.path) →
      ∀ f ∈ fs, ∃ u ∈ us, plan.project.url f.path = .ok u := by
    intro us fs hus f hf
    have hurl := List.mem_map_of_mem (f := fun f : File => plan.project.url f.path) hf
    rw [← hus] at hurl
    obtain ⟨u, hu, heq⟩ := List.mem_map.1 hurl
    exact ⟨u, hu, heq.symm⟩
  refine ⟨houtcome, fun f hf => ?_⟩
  rcases List.mem_append.1 hf with hf | hf
  · obtain ⟨u, hu, hurl⟩ := hlisted hsources f hf
    exact ⟨u, hurl, .inl hu⟩
  · obtain ⟨u, hu, hurl⟩ := hlisted hdependencies f hf
    exact ⟨u, hurl, .inr hu⟩

/-- **Closure.**  If a fed run on the files of a project leads to a summary, then every URL that the
index gives as a dependency of a fragment leads to a file that is registered and is listed in the
summary, among the sources or among the dependencies. -/
theorem Fed.covers_of_result {d : Disk} {plan : BuildPlan} {l : Layout} {cwd : Path} {homes : Homes}
    {gated : Bool} {summary : Summary} (hd : d.WellFormed) (hcwd : cwd.isAbsolute)
    (hproject : l.anchor m cwd homes = .ok plan.project)
    (hstart : (initial importer plan.project).start { d.setup plan with gated } = (b₀, none))
    (hrun : Fed { d.setup plan with gated } b₀ (d.arrivals plan.project) b rest)
    (hresult : (d.conclude plan b).result = some (.ok summary)) :
    ∀ x ∈ summary.index.deps, ∀ u ∈ x.2.imports ++ x.2.scripts ++ x.2.styles,
      ∃ v w, Url.parse u = .ok v ∧ plan.project.url (plan.project.path v.path) = .ok w ∧
        b.files.has w ∧ (w ∈ summary.sources ∨ w ∈ summary.dependencies) := by
  have hp : plan.project.Rooted := Project.rooted_of_anchor hcwd hproject
  have horigin : ∀ q, Origin { d.setup plan with gated } q → plan.project.Regular q :=
    fun q hq => Disk.regular_of_origin hp hd hq
  have hitems : ∀ f, .file f ∈ d.arrivals plan.project → plan.project.Regular f.path :=
    fun f hf => (Disk.inside_of_mem_arrivals hp hd hf).regular hp
  obtain ⟨horderly, -⟩ := hrun.orderly hp horigin hstart hitems
  obtain ⟨houtcome, hurls⟩ := url_mem_of_conclude hresult
  intro x hx u hu
  obtain ⟨v, w, hv, hw, hfile, f, hf, hurl⟩ := horderly.closed _ houtcome x hx u hu
  obtain ⟨w', hurl', hlisted⟩ := hurls f hf
  obtain rfl := Except.ok.inj (hurl.symm.trans hurl')
  exact ⟨v, w, hv, hw, hfile, hlisted⟩

/-- A document and the script it needs. -/
def pageDisk : Disk where
  files := [([("app" : Text), "a.js"], []),
    (["app", "index.html"], Text.encode "<script src='a.js'></script>")]
  dirs := []

/-- A build of that document. -/
def pagePlan : BuildPlan where
  project := ⟨⟨"/app", "/app/index.html", none, [], [], []⟩, "/", Glob.accepts⟩
  timeout := none
  selector := none
  out := none
  limit := 100

def pageStart : Build importer :=
  ((initial importer pagePlan.project).start (pageDisk.setup pagePlan)).1

def pageEnd : Build importer :=
  ((pageStart.arrive (.file ⟨"/app/index.html", Text.encode "<script src='a.js'></script>"⟩)).arrive
    .finish).settle (pageDisk.setup pagePlan) pagePlan.limit

theorem wellFormed_page : pageDisk.WellFormed := by
  unfold Disk.WellFormed
  decide

theorem arrivals_page : pageDisk.arrivals pagePlan.project =
    [.file ⟨"/app/index.html", Text.encode "<script src='a.js'></script>"⟩, .finish] := by
  have hroot : pagePlan.project.root = "/app" := rfl
  have hpatterns : pagePlan.project.sourcePatterns = .ok [("index.html" : Text)] := rfl
  have hbelow : pageDisk.below "/app" = [[("a.js" : Text)], ["index.html"]] :=
    (List.mergeSort_of_pairwise (by decide +kernel)).trans (by decide +kernel)
  rw [Disk.arrivals, hpatterns]
  dsimp only
  rw [Disk.matching, hroot, hbelow]
  decide +kernel

theorem anchor_page : Layout.anchor Glob.accepts "/" ⟨none, [], []⟩ ⟨"app", "index.html", none, [], [], []⟩ =
    .ok pagePlan.project := rfl

theorem fed_page :
    Fed (pageDisk.setup pagePlan) pageStart (pageDisk.arrivals pagePlan.project) pageEnd [] := by
  rw [arrivals_page]
  exact Fed.start.arrive.arrive.settle _

theorem result_page : (pageDisk.conclude pagePlan pageEnd).result =
    some (.ok ⟨["index.html"], ["a.js"], ⟨[], [("/app/index.html", [])],
      [("/app/index.html", ⟨[], ["a.js"], []⟩)]⟩⟩) := by
  decide +kernel

theorem covers_page : ∃ summary : Summary,
    Fed (pageDisk.setup pagePlan) pageStart (pageDisk.arrivals pagePlan.project) pageEnd [] ∧
      (pageDisk.conclude pagePlan pageEnd).result = some (.ok summary) ∧
      summary.index.deps = [(("/app/index.html" : Text), (⟨[], ["a.js"], []⟩ : Deps))] ∧
      ∃ v w, Url.parse "a.js" = .ok v ∧
        pagePlan.project.url (pagePlan.project.path v.path) = .ok w ∧
        pageEnd.files.has w ∧ (w ∈ summary.sources ∨ w ∈ summary.dependencies) := by
  refine ⟨_, fed_page, result_page, rfl, ?_⟩
  exact Fed.covers_of_result wellFormed_page (by decide) anchor_page rfl fed_page result_page _
    List.mem_cons_self "a.js" (by decide)

end Build
end HtmlDeps
