import HtmlDeps.Command.Run
import HtmlDeps.Proofs.Build.Closure
import HtmlDeps.Proofs.Json.Return

/-!
# The printed index

The index that a build has computed is printed as JSON, from which it is read back
(`Command.index_printed_iff`).  There is one exception: texts with stray bytes have no JSON form, and the URLs of
an index may hold some, for they come out of documents (`Command.not_index_printed_stray`).

This is the command `deps`, which prints by `_echo_json`.
-/

namespace HtmlDeps

namespace Index

/-- No text of an index holds a stray byte. -/
structure Clean (i : Index) : Prop where
  importers : ∀ x ∈ i.importers, x.1.Clean ∧ ∀ f ∈ x.2, f.Clean
  imports : ∀ x ∈ i.imports, x.1.Clean ∧ ∀ u ∈ x.2, u.Clean
  deps : ∀ x ∈ i.deps, x.1.Clean ∧ ∀ u ∈ x.2.imports ++ x.2.scripts ++ x.2.styles, u.Clean

end Index

namespace Json

variable {l : Layout}

theorem returns_texts (hl : l.Spaced) (ts : List Text) : Returns l (.list (ts.map .text)) (∀ t ∈ ts, t.Clean) :=
  returns_list hl fun t _ => returns_text l t

theorem Returns.congr {v : Value} {clean clean' : Prop} (h : Returns l v clean) (heq : clean ↔ clean') :
    Returns l v clean' := by
  intro d
  rw [← heq]
  exact h d

theorem returns_deps (hl : l.Spaced) (d : Deps) :
    Returns l d.value (∀ u ∈ d.imports ++ d.scripts ++ d.styles, u.Clean) := by
  have hfields : ∀ x ∈ [(("imports" : Text), d.imports), ("scripts", d.scripts), ("styles", d.styles)],
      Returns l (.list (x.2.map .text)) (∀ t ∈ x.2, t.Clean) := fun x _ => returns_texts hl x.2
  refine (returns_record hl hfields Prod.fst).congr ?_
  simp [Text.clean_ofString, or_imp, forall_and]

/-- An index is written and read back if it is clean. -/
theorem returns_index (hl : l.Spaced) (i : Index) : Returns l i.value i.Clean := by
  have himporters := returns_record hl (fun x (_ : x ∈ i.importers) => returns_texts hl x.2) Prod.fst
  have himports := returns_record hl (fun x (_ : x ∈ i.imports) => returns_texts hl x.2) Prod.fst
  have hdeps := returns_record hl (fun x (_ : x ∈ i.deps) => returns_deps hl x.2) Prod.fst
  have hparts : ∀ x ∈ [(("deps_to_fragments" : Text), _, _), ("fragment_to_deps", _, _), ("fragment_to_full_deps", _, _)],
      Returns l x.2.1 x.2.2 :=
    List.forall_mem_cons.2 ⟨himporters, List.forall_mem_cons.2 ⟨himports, List.forall_mem_singleton.2 hdeps⟩⟩
  refine (returns_record hl hparts Prod.fst).congr ?_
  simp only [List.forall_mem_cons, Text.clean_ofString, true_and]
  exact ⟨fun h => ⟨h.1, h.2.1, h.2.2.1⟩, fun h => ⟨h.importers, h.imports, h.deps, List.forall_mem_nil _⟩⟩

end Json

namespace Command

variable {s : Setting} {r : Request} {p : Prepared} {summary : Summary}

theorem run_of_deps (hp : prepare s r = .ok p) (hr : r.action = .deps)
    (hb : (p.buildOnce s.disk s.limit false none).1 = .ok summary) :
    (run s r).ending = Report.ending (.index summary.index) := by
  have haction : r.action ≠ .build := by simp [hr]
  rw [run, hp]
  simp only [haction, if_false, decide_false, Bool.false_and]
  rw [hb]

/-- **The index that a build has computed is printed**, and read back from what is printed, exactly if no text in
it holds a stray byte.  Else the run ends with a fault that escapes. -/
theorem index_printed_iff (hp : prepare s r = .ok p) (hr : r.action = .deps)
    (hb : (p.buildOnce s.disk s.limit false none).1 = .ok summary) :
    (((run s r).ending.exitCode = 0 ∧ ∃ report, (run s r).ending = .reported report ∧ ∀ milliseconds, ∃ t,
        Json.printIndented (report.value milliseconds) = .ok t ∧ Json.read? t = some summary.index.value) ↔
      summary.index.Clean) ∧
    (¬ summary.index.Clean → (run s r).ending = .escaped (.json .strayByte)) := by
  have hvalue : ∀ milliseconds, (Report.index summary.index).value milliseconds = summary.index.value := fun _ => rfl
  rw [run_of_deps hp hr hb, Report.ending, hvalue]
  rcases Json.read?_print (Json.returns_index Json.spaced_indented summary.index) with
    ⟨hclean, herror⟩ | ⟨hclean, t, hok, hread⟩
  · rw [herror]
    exact ⟨iff_of_false (fun h => nomatch h.1) hclean, fun _ => rfl⟩
  · rw [hok]
    exact ⟨iff_of_true ⟨rfl, _, rfl, fun _ => ⟨t, hok, hread⟩⟩ hclean, fun h => absurd hclean h⟩

/-- A page with a script of a name, and a file for it. -/
def pageWith (reference : Bytes) : Setting where
  environment := .usual "/app" [] "/" []
  disk := ⟨[([("app" : Text), "a.js"], []),
    (["app", "index.html"], Text.encode "<script src='" ++ reference ++ Text.encode "'></script>")], []⟩
  limit := 100

/-- What asks for the index. -/
def asksDeps : Request := ⟨.deps, none, none, none, none⟩

def pageProject : Project := ⟨⟨"/app", "/app/index.html", none, [], ["src/**/*"], []⟩, "/app", Glob.accepts⟩

def pagePrepared : Prepared := ⟨pageProject, Settings.default, 20⟩

theorem prepare_pageWith (reference : Bytes) : prepare (pageWith reference) asksDeps = .ok pagePrepared := by
  rfl

theorem matching_pageWith (reference : Bytes) :
    (pageWith reference).disk.matching Glob.accepts "/app" ["src/**/*", "index.html"] = .ok ["/app/index.html"] := by
  have hbelow : (pageWith reference).disk.below "/app" = [[("a.js" : Text)], ["index.html"]] := by
    have hsorted : [[("a.js" : Text)], ["index.html"]].mergeSort Path.partsLe = [[("a.js" : Text)], ["index.html"]] :=
      List.mergeSort_of_pairwise (by decide +kernel)
    exact hsorted
  rw [Disk.matching, hbelow]
  decide +kernel

/-- How the page is built. -/
def pagePlan : BuildPlan := ⟨pageProject, none, none, none, 100⟩

/-- The build of the page at its end. -/
def pageEnd (reference : Bytes) : Build importer :=
  let d := (pageWith reference).disk
  let setup := d.setup pagePlan
  ((((Build.initial importer pageProject).start setup).1.note setup.context .debug
    ("Matched " ++ Text.ofNat 1 ++ " files under " ++ Path.toText "/app")).arrive
      (d.arrival pageProject "/app/index.html")).arrive .finish |>.settle setup 100

theorem supply_pageWith {C : Crawler} (reference : Bytes) (b : Build C) :
    (pageWith reference).disk.supply ((pageWith reference).disk.setup pagePlan) ["src/**/*", "index.html"] b =
      (b.note ((pageWith reference).disk.setup pagePlan).context .debug
        ("Matched " ++ Text.ofNat 1 ++ " files under " ++ Path.toText "/app") |>.arrive
        ((pageWith reference).disk.arrival pageProject "/app/index.html")).arrive .finish := by
  have hmatching := matching_pageWith reference
  rw [Disk.supply]
  have hroot : ((pageWith reference).disk.setup pagePlan).project.root = ("/app" : Path) := rfl
  have hmatcher : ((pageWith reference).disk.setup pagePlan).project.matcher = Glob.accepts := rfl
  rw [hroot, hmatcher, hmatching]
  rfl

theorem build_pageWith (reference : Bytes) : (pageWith reference).disk.build pagePlan =
    (pageWith reference).disk.conclude pagePlan (pageEnd reference) := by
  let d := (pageWith reference).disk
  let b := ((Build.initial importer pageProject).start (d.setup pagePlan)).1
  have hbuild : d.build pagePlan =
      d.conclude pagePlan ((d.supply (d.setup pagePlan) ["src/**/*", "index.html"] b).settle (d.setup pagePlan) 100) := rfl
  rw [hbuild, supply_pageWith]
  rfl

/-- What is known of the page once it is built: its one script. -/
def pageSummary (script : Text) : Summary :=
  ⟨["index.html"], ["a.js"], ⟨[], [("/app/index.html", [])], [("/app/index.html", ⟨[], [script], []⟩)]⟩⟩

theorem buildOnce_pageWith {reference : Bytes} {summary : Summary}
    (h : ((pageWith reference).disk.conclude pagePlan (pageEnd reference)).result = some (.ok summary)) :
    (pagePrepared.buildOnce (pageWith reference).disk (pageWith reference).limit false none).1 = .ok summary := by
  have hbuild : ((pageWith reference).disk.build
      ⟨pagePrepared.project, pagePrepared.settings.loadTimeout, none, none, (pageWith reference).limit⟩).result =
        some (.ok summary) := by
    rw [← h, ← build_pageWith]
    rfl
  simp only [Prepared.buildOnce, Bool.false_eq_true, if_false, hbuild]

theorem buildOnce_plain : (pagePrepared.buildOnce (pageWith (Text.encode "a.js")).disk
    (pageWith (Text.encode "a.js")).limit false none).1 = .ok (pageSummary "a.js") :=
  buildOnce_pageWith (by decide +kernel)

theorem index_printed_plain : (run (pageWith (Text.encode "a.js")) asksDeps).ending.exitCode = 0 ∧
    ∃ report, (run (pageWith (Text.encode "a.js")) asksDeps).ending = .reported report ∧ ∀ milliseconds, ∃ t,
      Json.printIndented (report.value milliseconds) = .ok t ∧ Json.read? t = some (pageSummary "a.js").index.value := by
  refine (index_printed_iff (prepare_pageWith _) rfl buildOnce_plain).1.2 ⟨?_, ?_, ?_⟩
  · simp [pageSummary]
  · simp [pageSummary, Text.clean_ofString]
  · simp [pageSummary, Text.clean_ofString]

/-- A script that is found, although its name holds a stray byte. -/
def strayReference : Bytes := 0xff :: Text.encode "/%2e%2e/a.js"

theorem not_index_printed_stray : ∃ summary, prepare (pageWith strayReference) asksDeps = .ok pagePrepared ∧
    (pagePrepared.buildOnce (pageWith strayReference).disk (pageWith strayReference).limit false none).1 = .ok summary ∧
    ¬ (run (pageWith strayReference) asksDeps).ending.exitCode = 0 := by
  have hb : (pagePrepared.buildOnce (pageWith strayReference).disk (pageWith strayReference).limit false none).1 =
      .ok (pageSummary (.stray 0xff :: "/%2e%2e/a.js")) := buildOnce_pageWith (by decide +kernel)
  refine ⟨_, prepare_pageWith _, hb, ?_⟩
  have hrun := run_of_deps (prepare_pageWith _) rfl hb
  have hunprinted : Report.ending (.index (pageSummary (.stray 0xff :: "/%2e%2e/a.js")).index) =
      .escaped (.json .strayByte) := by
    rfl
  rw [hrun, hunprinted]
  decide

end Command
end HtmlDeps
