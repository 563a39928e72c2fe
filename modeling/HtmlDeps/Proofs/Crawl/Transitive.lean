import HtmlDeps.Proofs.Crawl.DepthFirst
import HtmlDeps.Proofs.Crawl.Firsts
import HtmlDeps.Proofs.Crawl.Legible
import HtmlDeps.Proofs.Crawl.Scans
import HtmlDeps.Proofs.Document.References

/-!
# Reports are complete

In whatever order the texts arrive, a crawl surveys every document once that can be reached, reports every URL
once to which one of them refers, and all their warnings (`Complete`).  For this it is enough, and necessary,
that the URLs of the references can be read (`reported_complete_iff`), and they can if there is no tab or line
end in the first URL.

The full specification promises “the transitive set, pre-order, first-seen deduplicated” of
`HtmlDocumentParser.analyze`.
-/

namespace HtmlDeps.Imports

open Relation

variable {load : Text → Except Fault Text} {url p u v : Text} {i j : Nat} {picked : Text → Nat → Prop}
  {seen : List Text} {r : Reference} {rs out : List Reference}

/-! ### What trees list -/

theorem Lists.subset (h : Lists load picked p i rs out) : rs ⊆ out := by
  induction h with
  | nil => exact List.Subset.refl []
  | leaf _ _ ih => exact List.cons_subset_cons _ ih
  | branch _ _ _ _ ih => exact List.cons_subset_cons _ (List.Subset.trans ih (List.subset_append_right _ _))

/-- A tree lists nothing but references of documents that can be reached. -/
theorem Lists.sound (hspanning : Spanning load url picked) (h : Lists load picked p i rs out)
    (hp : Reaches load url p) (hrs : (references load p).drop i = rs) :
    ∀ r ∈ out, ∃ u, Reaches load url u ∧ r ∈ references load u := by
  induction h with
  | nil => exact nofun
  | @leaf p i r rs out _ _ ih =>
    obtain ⟨hr, hrest⟩ := drop_eq_cons hrs
    rw [List.forall_mem_cons]
    exact ⟨⟨p, hp, List.mem_of_getElem? hr⟩, ih hp hrest⟩
  | @branch p i r rs below out hi _ _ ihunder ihrest =>
    obtain ⟨hr, hrest⟩ := drop_eq_cons hrs
    obtain ⟨-, v, himport, -⟩ := hspanning.imports p i hi
    have hunder : Reaches load url r.url := by
      obtain ⟨r', hr', henters, -⟩ := himport
      obtain rfl := Option.some.inj (hr.symm.trans hr')
      exact hp.tail ⟨r, List.mem_of_getElem? hr, henters, rfl⟩
    rw [List.forall_mem_cons, List.forall_mem_append]
    exact ⟨⟨p, hp, List.mem_of_getElem? hr⟩, ihunder hunder List.drop_zero, ihrest hp hrest⟩

/-- Behind a picked import, a tree lists what the imported document lists. -/
theorem Lists.exists_under (h : Lists load picked p i rs out) (hr : rs[j]? = some r) (hj : picked p (i + j)) :
    ∃ below, Lists load picked r.url 0 (references load r.url) below ∧ below ⊆ out := by
  induction h generalizing j with
  | nil => cases hr
  | leaf hleaf _ ih =>
    cases j with
    | zero => exact absurd hj hleaf
    | succ j =>
      obtain ⟨below, hlists, hsubset⟩ := ih hr (by rwa [Nat.add_assoc, Nat.add_comm 1])
      exact ⟨below, hlists, List.subset_cons_of_subset _ hsubset⟩
  | @branch p i r' rs under out _ hunder _ _ ih =>
    cases j with
    | zero =>
      obtain rfl := Option.some.inj hr
      exact ⟨under, hunder, List.subset_cons_of_subset _ (List.subset_append_left _ _)⟩
    | succ j =>
      obtain ⟨below, hlists, hsubset⟩ := ih hr (by rwa [Nat.add_assoc, Nat.add_comm 1])
      have hsubset := List.Subset.trans hsubset (List.subset_append_right under _)
      exact ⟨below, hlists, List.subset_cons_of_subset _ hsubset⟩

/-- A tree that spans all documents lists all their references. -/
theorem Lists.complete (hspanning : Spanning load url picked)
    (h : Lists load picked url 0 (references load url) out) (hu : Reaches load url u) :
    references load u ⊆ out := by
  have hway : ∃ below, Lists load picked u 0 (references load u) below ∧ below ⊆ out := by
    have hway := hspanning.reaches u hu
    clear hu
    induction hway with
    | refl => exact ⟨out, h, List.Subset.refl out⟩
    | tail _ htwig ih =>
      obtain ⟨below, hlists, hsubset⟩ := ih
      obtain ⟨i, hi, r, hr, -, rfl⟩ := htwig
      obtain ⟨under, hunder, hsubset'⟩ := hlists.exists_under hr (by rwa [Nat.zero_add])
      exact ⟨under, hunder, List.Subset.trans hsubset' hsubset⟩
  obtain ⟨below, hlists, hsubset⟩ := hway
  exact List.Subset.trans hlists.subset hsubset

/-! ### References below a plain URL -/

theorem mem_survey_of_mem_references (h : r ∈ references load u) :
    ∃ contents, r ∈ (Survey.of u contents).1.references := by
  unfold references at h
  split at h
  · rename_i contents _
    split at h
    · exact ⟨contents, h⟩
    · cases h
  · cases h

/-- Below a URL without tabs and line ends, every URL can be read. -/
theorem legible_of_plain (hurl : ∀ g ∈ url, g ∉ Url.breaks) : Legible load url := by
  have hplain : ∀ u, Reaches load url u → ∀ g ∈ u, g ∉ Url.breaks := by
    intro u hu
    induction hu with
    | refl => exact hurl
    | tail _ himported ih =>
      obtain ⟨r, hr, henters, rfl⟩ := himported
      obtain ⟨contents, hr⟩ := mem_survey_of_mem_references hr
      obtain ⟨href, hresolve⟩ := Survey.resolved_of_mem hr
      exact (Url.exists_external ih hresolve).2 henters.2
  intro u hu r hr
  obtain ⟨contents, hr⟩ := mem_survey_of_mem_references hr
  obtain ⟨href, hresolve⟩ := Survey.resolved_of_mem hr
  exact (Url.exists_external (hplain u hu) hresolve).1

/-! ### Complete reports -/

/-- A report tells every URL once to which the documents refer that can be reached, each of which was scanned
once, and all their warnings. -/
structure Complete (load : Text → Except Fault Text) (url : Text) (report : Report) (scanned : List Text) :
    Prop where
  once : (report.references.map (·.url)).Nodup
  urls : ∀ v, v ∈ report.references.map (·.url) ↔ ∃ u, Reaches load url u ∧ ∃ r ∈ references load u, r.url = v
  scanned_once : scanned.Nodup
  scanned_iff : ∀ u, u ∈ scanned ↔ Reaches load url u
  warnings : report.warnings = scanned.flatMap (Imports.warnings load)

namespace Queue

variable {q : Queue} {scanned : List Text}

theorem Scans.complete (h : Scans load url q scanned) (hreadable : Readable load url) (hended : q.Ended) :
    ∃ report, q.report = some (.ok report) ∧ Complete load url report scanned := by
  have horderly := h.orderly hreadable
  obtain ⟨hsearched, hspanning, ws, out, hreport, hlists⟩ := horderly.report h.run hreadable hended
  refine ⟨_, hreport, nodup_urls_firsts, fun v => ?_, hsearched.nodup, fun u => ?_, ?_⟩
  · rw [mem_urls_firsts_iff, List.mem_map]
    constructor
    · rintro ⟨⟨r, hr, rfl⟩, -⟩
      obtain ⟨u, hu, hmem⟩ := hlists.sound hspanning .refl List.drop_zero r hr
      exact ⟨u, hu, r, hmem, rfl⟩
    · rintro ⟨u, hu, r, hr, rfl⟩
      exact ⟨⟨r, hlists.complete hspanning hu hr, rfl⟩, List.not_mem_nil⟩
  · exact ⟨hsearched.reaches u, fun hu => horderly.complete h.run hended hu⟩
  · rw [h.run.warnings_reported hreadable hreport, h.warnings_eq hreadable]

theorem exists_step (h : ¬ q.Ended) : ∃ q', Step load q q' := by
  cases hready : q.ready with
  | cons t rest => exact ⟨_, .turn false hready⟩
  | nil =>
    cases hwaiting : q.waiting with
    | nil => exact absurd ⟨hready, hwaiting⟩ h
    | cons t others => exact ⟨_, .arrive (.of_eq hwaiting)⟩

/-- If a crawl reports at its end, the URLs can be read. -/
theorem legible_of_reports (hsurveyable : Surveyable load url) (hfinite : {u | Reaches load url u}.Finite)
    (h : ∀ q scanned, Scans load url q scanned → q.Ended → ∃ report, q.report = some (.ok report)) :
    Legible load url := by
  obtain ⟨q, hrun, hended, -⟩ := exists_ended (P := fun _ => True) hfinite trivial
    fun q _ _ hmore => (exists_step hmore).imp fun _ hstep => ⟨hstep, trivial⟩
  obtain ⟨scanned, hscans⟩ := hrun.exists_scans
  obtain ⟨report, hreport⟩ := h q scanned hscans hended
  obtain ⟨c, hcrawl, hcarries⟩ := hrun.exists_crawl
  exact hcrawl.legible hsurveyable (hcarries.report.trans hreport)

end Queue

/-- **Reports are complete.**  A crawl of finitely many sound documents comes to its end.  Its reports are
complete in every order of arrival exactly if the URLs can be read to which the documents refer, as they can
below a URL without tabs and line ends. -/
theorem reported_complete_iff (hsurveyable : Surveyable load url) (hfinite : {u | Reaches load url u}.Finite) :
    (¬ ∃ f : Nat → Queue, f 0 = .start url ∧ ∀ k, Queue.Step load (f k) (f (k + 1))) ∧
    (Legible load url ↔ ∀ q scanned, Queue.Scans load url q scanned → q.Ended →
      ∃ report, q.report = some (.ok report) ∧ Complete load url report scanned) ∧
    ((∀ g ∈ url, g ∉ Url.breaks) → Legible load url) := by
  refine ⟨Queue.not_endless hfinite, ⟨?_, ?_⟩, legible_of_plain⟩
  · intro hlegible q scanned hscans hended
    exact hscans.complete (hsurveyable.readable hlegible) hended
  · intro hall
    apply Queue.legible_of_reports hsurveyable hfinite
    intro q scanned hscans hended
    obtain ⟨report, hreport, -⟩ := hall q scanned hscans hended
    exact ⟨report, hreport⟩

/-- Pages that import each other, with something wrong in both. -/
def mutualPages : List (Text × Text) :=
  [("index.html", "<link rel=\"import\" href=\"lib/a.html\"><script src=\"\"></script>"),
    ("lib/a.html", "<link rel=\"import\" href=\"../index.html\"><script src=\"main.js\">")]

theorem selfContained_mutual : SelfContained mutualPages ["index.html", "lib/a.html", "lib/main.js"] := by
  unfold mutualPages
  repeat rw [Text.ofString_ofList]
  decide

theorem reported_complete_mutual : Surveyable (pages mutualPages) "index.html" ∧
    {u | Reaches (pages mutualPages) "index.html" u}.Finite ∧
    ∀ q scanned, Queue.Scans (pages mutualPages) "index.html" q scanned → q.Ended →
      ∃ report, q.report = some (.ok report) ∧ Complete (pages mutualPages) "index.html" report scanned := by
  have hreadable := SelfContained.readable selfContained_mutual List.mem_cons_self
  have hfinite := SelfContained.finite selfContained_mutual List.mem_cons_self
  have hsurveyable : Surveyable (pages mutualPages) "index.html" := ⟨hreadable.texts, hreadable.surveyed⟩
  obtain ⟨-, hiff, hplain⟩ := reported_complete_iff hsurveyable hfinite
  exact ⟨hsurveyable, hfinite, hiff.1 (hplain (by decide))⟩

/-- A page with tabs in its URL. -/
def tabbedPages : List (Text × Text) := [("\t/\t/[/index.html", "<script src=\"c.js\"></script>")]

theorem references_tabbed : (Survey.of "\t/\t/[/index.html" "<script src=\"c.js\"></script>").2 = none ∧
    (references (pages tabbedPages) "\t/\t/[/index.html").map (fun r => (r.url, r.kind)) =
      [(("\t/\t/[/c.js" : Text), Kind.script)] := by
  decide

/-- Without its tabs, the URL of the script names a host that is not one. -/
theorem not_reported_complete : Surveyable (pages tabbedPages) "\t/\t/[/index.html" ∧
    {u | Reaches (pages tabbedPages) "\t/\t/[/index.html" u}.Finite ∧
    ¬ ∀ q scanned, Queue.Scans (pages tabbedPages) "\t/\t/[/index.html" q scanned → q.Ended →
      ∃ report, q.report = some (.ok report) ∧
        Complete (pages tabbedPages) "\t/\t/[/index.html" report scanned := by
  obtain ⟨hsound, hrefs⟩ := references_tabbed
  have hscript : ∀ r ∈ references (pages tabbedPages) "\t/\t/[/index.html",
      r.url = "\t/\t/[/c.js" ∧ r.kind = .script := by
    intro r hr
    have hmem := List.mem_map_of_mem (f := fun r : Reference => (r.url, r.kind)) hr
    rw [hrefs, List.mem_singleton] at hmem
    exact Prod.mk.inj hmem
  have halone : ∀ u, Reaches (pages tabbedPages) "\t/\t/[/index.html" u → u = "\t/\t/[/index.html" := by
    intro u hu
    induction hu with
    | refl => rfl
    | tail _ himported ih =>
      obtain ⟨r, hr, henters, -⟩ := himported
      subst ih
      cases (hscript r hr).2.symm.trans henters.1
  have hsurveyable : Surveyable (pages tabbedPages) "\t/\t/[/index.html" := by
    refine ⟨fun u _ => ⟨_, rfl⟩, fun u contents hu hload => ?_⟩
    obtain rfl := halone u hu
    obtain rfl := Except.ok.inj hload
    exact hsound
  have hfinite : {u | Reaches (pages tabbedPages) "\t/\t/[/index.html" u}.Finite :=
    (Set.finite_singleton _).subset halone
  refine ⟨hsurveyable, hfinite, fun hall => ?_⟩
  have hlegible := Queue.legible_of_reports hsurveyable hfinite fun q scanned hscans hended => by
    obtain ⟨report, hreport, -⟩ := hall q scanned hscans hended
    exact ⟨report, hreport⟩
  obtain ⟨r, hr⟩ : ∃ r, r ∈ references (pages tabbedPages) "\t/\t/[/index.html" := by
    apply List.exists_mem_of_ne_nil
    intro hnil
    rw [hnil] at hrefs
    cases hrefs
  obtain ⟨external, hexternal⟩ := hlegible _ .refl r hr
  rw [(hscript r hr).1] at hexternal
  have hfault : Url.isExternal "\t/\t/[/c.js" = .error (.host .brackets) := by decide
  cases hfault.symm.trans hexternal

end HtmlDeps.Imports
