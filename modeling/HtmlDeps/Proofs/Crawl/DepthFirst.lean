import HtmlDeps.Proofs.Crawl.Preorder
import HtmlDeps.Proofs.Crawl.Searches

/-!
# Reports in depth-first order

A crawl reports the references that the tree of its surveys lists.  Whether they are in depth-first order is up
to the order of the surveys, if documents are shared.

The docstring of `HtmlDocumentParser` promises the whole reference tree in pre-order with duplicates
removed, yet `_follow` leaves a shared document to whoever comes first.
-/

namespace HtmlDeps.Imports

open Relation

variable {load : Text → Except Fault Text} {url p v : Text} {i : Nat}

/-! ### The order of arrival -/

/-- What is behind the references of a document, depth first. -/
def DepthFirst (load : Text → Except Fault Text) (url : Text) (rs : List Reference) : Prop :=
  ∃ seen, Preorder load [url] (references load url) rs seen

/-- References by their URLs and kinds. -/
def named (rs : List Reference) : List (Text × Kind) := rs.map fun r => (r.url, r.kind)

/-- **Reports in depth-first order.**  A crawl of finitely many readable documents comes to its end with a
report, in whatever order the texts arrive.  There is one depth-first order of their references.  The report has
its URLs and kinds in every order of arrival exactly if the trees of all orders of surveys list the same ones;
if no document is shared, it always is the depth-first order. -/
theorem reported_depth_first_iff (hreadable : Readable load url) (hfinite : {u | Reaches load url u}.Finite) :
    (¬ ∃ f : Nat → Queue, f 0 = .start url ∧ ∀ k, Queue.Step load (f k) (f (k + 1))) ∧
    (∀ q, Queue.Run load url q → q.Ended → ∃ ws rs, q.report = some (.ok ⟨ws, rs⟩)) ∧
    ∃ pre, (∀ rs, DepthFirst load url rs ↔ rs = pre) ∧
      ((∀ q ws rs, Queue.Run load url q → q.Ended → q.report = some (.ok ⟨ws, rs⟩) →
          named rs = named (firsts [] pre)) ↔
        ∀ order out, Searched load url order → (∀ v, Reaches load url v → v ∈ order) →
          Lists load (Claims load url order) url 0 (references load url) out →
            named (firsts [] out) = named (firsts [] pre)) ∧
      (Unshared load url → ∀ q, Queue.Run load url q → q.Ended →
        ∃ ws, q.report = some (.ok ⟨ws, firsts [] pre⟩)) := by
  have hurls : ∀ {u}, u ∈ hfinite.toFinset ↔ Reaches load url u := hfinite.mem_toFinset
  obtain ⟨pre, seen', hpre⟩ := exists_preorder
    (fun u hu v himported => hurls.2 ((hurls.1 hu).tail himported)) [url] (references load url)
    fun r hr henters => hurls.2 (.single ⟨r, hr, henters, rfl⟩)
  have hreported := Queue.reported_iff hreadable hfinite
  refine ⟨Queue.not_endless hfinite, fun q hrun hended => ?_, pre, fun rs => ⟨?_, ?_⟩, ⟨?_, ?_⟩, ?_⟩
  · obtain ⟨ws, out, hreport, -⟩ := (hrun.over hreadable hended).report
    exact ⟨ws, _, hreport⟩
  · rintro ⟨seen'', h⟩
    exact (h.unique hpre).1
  · rintro rfl
    exact ⟨seen', hpre⟩
  · intro hall order out hsearched hcomplete hlists
    obtain ⟨q, ws, hrun, hended, hreport⟩ := (hreported _).2 ⟨order, out, hsearched, hcomplete, hlists, rfl⟩
    exact hall q ws _ hrun hended hreport
  · intro hall q ws rs hrun hended hreport
    obtain ⟨order, out, hsearched, hcomplete, hlists, rfl⟩ := (hreported rs).1 ⟨q, ws, hrun, hended, hreport⟩
    exact hall order out hsearched hcomplete hlists
  · intro hunshared q hrun hended
    have hover := hrun.over hreadable hended
    obtain ⟨ws, out, hreport, hlists⟩ := hover.report
    have hspanning := hover.spanning
    have habove : ∀ x, ReflTransGen (Twig load (Crawl.Picked q.memory)) x url → x ∈ [url] := fun x hx => by
      rcases reflTransGen_iff_eq_or_transGen.1 hx with heq | hway
      · exact heq ▸ List.mem_singleton_self x
      · obtain ⟨a, -, hlast⟩ := TransGen.tail'_iff.1 hway
        exact absurd hlast hspanning.not_twig_top
    have hahead : ∀ u ∈ [url], references load u ≠ [] → ¬ Ahead load (Crawl.Picked q.memory) url 0 u :=
      fun u hu _ hbehind => by
        obtain rfl := List.mem_singleton.1 hu
        exact hspanning.acyclic .refl hbehind.below
    obtain ⟨seen'', hout, -⟩ := hlists.preorder hspanning hunshared .refl List.drop_zero [url] habove hahead
    exact ⟨ws, (hout.unique hpre).1 ▸ hreport⟩

/-! ### Pages -/

/-- The text behind each URL of a list, and an empty one behind every other. -/
def pages (texts : List (Text × Text)) (u : Text) : Except Fault Text := .ok ((texts.lookup u).getD [])

/-- The pages at these URLs are sound and refer to none but each other. -/
def SelfContained (texts : List (Text × Text)) (urls : List Text) : Prop :=
  ∀ u ∈ urls, (Survey.of u ((texts.lookup u).getD [])).2 = none ∧
    ∀ r ∈ references (pages texts) u, Url.isExternal r.url = .ok false ∧ r.url ∈ urls

instance {texts : List (Text × Text)} {urls : List Text} : Decidable (SelfContained texts urls) :=
  inferInstanceAs (Decidable (∀ u ∈ urls, _ ∧ ∀ r ∈ references (pages texts) u, _))

section

variable {texts : List (Text × Text)} {urls : List Text} (h : SelfContained texts urls) (hurl : url ∈ urls)

include h hurl

theorem SelfContained.mem_of_reaches (hp : Reaches (pages texts) url p) : p ∈ urls :=
  wanted_of_closed hurl (fun u hu r hr _ => ((h u hu).2 r hr).2) (.inl hp)

theorem SelfContained.finite : {u | Reaches (pages texts) url u}.Finite :=
  Set.Finite.subset (List.finite_toSet urls) fun _ => h.mem_of_reaches hurl

theorem SelfContained.readable : Readable (pages texts) url where
  texts _ _ := ⟨_, rfl⟩
  surveyed u contents hu hload := by
    obtain rfl := Except.ok.inj hload
    exact (h u (h.mem_of_reaches hurl hu)).1
  urls u hu r hr := ⟨false, ((h u (h.mem_of_reaches hurl hu)).2 r hr).1⟩

end

/-- These are the surveys of the pages. -/
def Surveyed (texts : List (Text × Text)) (table : List (Text × Survey)) : Prop :=
  ∀ x ∈ table, Survey.of x.1 ((texts.lookup x.1).getD []) = (x.2, none)

instance {texts : List (Text × Text)} {table : List (Text × Survey)} : Decidable (Surveyed texts table) :=
  inferInstanceAs (Decidable (∀ x ∈ table, _ = _))

section

variable {texts : List (Text × Text)} {table : List (Text × Survey)} (h : Surveyed texts table)

include h

theorem Surveyed.references {u : Text} {survey : Survey} (hmem : (u, survey) ∈ table) :
    references (pages texts) u = survey.references := by
  have hsurvey := h (u, survey) hmem
  dsimp only at hsurvey
  unfold Imports.references pages
  dsimp only
  rw [hsurvey]
  rfl

theorem Surveyed.selfContained
    (hlocal : ∀ x ∈ table, ∀ r ∈ x.2.references, Url.isExternal r.url = .ok false ∧ r.url ∈ table.map (·.1)) :
    SelfContained texts (table.map (·.1)) := by
  intro u hu
  obtain ⟨⟨u, survey⟩, hmem, rfl⟩ := List.mem_map.1 hu
  rw [h.references hmem]
  exact ⟨congrArg (·.2) (h (u, survey) hmem), hlocal (u, survey) hmem⟩

end

/-- Pages that import one another in a chain, the last of them an earlier one. -/
def chainPages : List (Text × Text) :=
  [("index.html", "<link rel=\"import\" href=\"a.html\"><script src=\"main.js\"></script>"),
    ("a.html", "<link rel=\"import\" href=\"lib/b.html\">"),
    ("lib/b.html", "<link rel=\"stylesheet\" href=\"../style.css\"><link rel=\"import\" href=\"../a.html\">")]

/-- The survey of a page that has nothing wrong. -/
def clear (u : Text) (rs : List Reference) : Text × Survey := (u, ⟨u, rs, [], [], none⟩)

/-- What the chain refers to, and where. -/
def chainSurveys : List (Text × Survey) :=
  [clear "index.html" [⟨"a.html", .document, ⟨"index.html", 1, 0⟩⟩, ⟨"main.js", .script, ⟨"index.html", 1, 33⟩⟩],
    clear "a.html" [⟨"lib/b.html", .document, ⟨"a.html", 1, 0⟩⟩],
    clear "lib/b.html" [⟨"style.css", .style, ⟨"lib/b.html", 1, 0⟩⟩, ⟨"a.html", .document, ⟨"lib/b.html", 1, 43⟩⟩],
    clear "style.css" [], clear "main.js" []]

theorem surveyed_chain : Surveyed chainPages chainSurveys := by
  unfold chainPages
  repeat rw [Text.ofString_ofList]
  decide

theorem selfContained_chain :
    SelfContained chainPages ["index.html", "a.html", "lib/b.html", "style.css", "main.js"] :=
  Surveyed.selfContained surveyed_chain (by decide)

/-- The imports of the chain, with their places. -/
theorem mem_of_import_chain (hp : Reaches (pages chainPages) "index.html" p)
    (h : ImportAt (pages chainPages) p i v) :
    (p, i, v) ∈ [(("index.html" : Text), 0, ("a.html" : Text)), ("a.html", 0, "lib/b.html"),
      ("lib/b.html", 1, "a.html")] := by
  have hall : ∀ x ∈ chainSurveys, ∀ y ∈ x.2.references.zipIdx, Enters y.1 →
      (x.1, y.2, y.1.url) ∈ [(("index.html" : Text), 0, ("a.html" : Text)), ("a.html", 0, "lib/b.html"),
        ("lib/b.html", 1, "a.html")] := by decide
  obtain ⟨r, hr, henters, rfl⟩ := h
  have hpage : p ∈ chainSurveys.map (·.1) := SelfContained.mem_of_reaches selfContained_chain List.mem_cons_self hp
  obtain ⟨⟨p, survey⟩, hmem, rfl⟩ := List.mem_map.1 hpage
  rw [Surveyed.references surveyed_chain hmem] at hr
  exact hall (p, survey) hmem (r, i) (List.mem_zipIdx_iff_getElem?.2 hr) henters

theorem unshared_chain : Unshared (pages chainPages) "index.html" := by
  -- nothing but the first page can be reached without the one that two others import
  have hfirst : ∀ {p}, ReachesWithout (pages chainPages) "a.html" "index.html" p → p = "index.html" := by
    intro p hp
    induction hp with
    | refl => rfl
    | tail _ hstep ih =>
      obtain ⟨⟨r, hr, henters, rfl⟩, hne⟩ := hstep
      subst ih
      obtain ⟨j, hj⟩ := List.mem_iff_getElem?.1 hr
      have hplace := mem_of_import_chain .refl ⟨r, hj, henters, rfl⟩
      simp only [List.mem_cons, Prod.mk.injEq, List.not_mem_nil, or_false] at hplace
      rcases hplace with ⟨-, -, hurl⟩ | ⟨hpage, -⟩ | ⟨hpage, -⟩
      · exact absurd hurl hne
      · exact absurd hpage (by decide)
      · exact absurd hpage (by decide)
  intro v _ _ p i q j hp hq hwithout hwithout'
  have hplace := mem_of_import_chain (hwithout.lift id fun _ _ => And.left) hp
  have hplace' := mem_of_import_chain (hwithout'.lift id fun _ _ => And.left) hq
  simp only [List.mem_cons, Prod.mk.injEq, List.not_mem_nil, or_false] at hplace hplace'
  rcases hplace with ⟨rfl, rfl, rfl⟩ | ⟨rfl, rfl, rfl⟩ | ⟨rfl, rfl, rfl⟩
  · rcases hplace' with ⟨rfl, rfl, -⟩ | ⟨-, -, hv⟩ | ⟨rfl, -⟩
    · exact ⟨rfl, rfl⟩
    · exact absurd hv (by decide)
    · exact absurd (hfirst hwithout') (by decide)
  · rcases hplace' with ⟨-, -, hv⟩ | ⟨rfl, rfl, -⟩ | ⟨-, -, hv⟩
    · exact absurd hv (by decide)
    · exact ⟨rfl, rfl⟩
    · exact absurd hv (by decide)
  · exact absurd (hfirst hwithout) (by decide)

/-- The chain in depth-first order. -/
theorem exists_depthFirst_chain : ∃ pre, DepthFirst (pages chainPages) "index.html" pre ∧
    (firsts [] pre).map (·.url) = [("a.html" : Text), "lib/b.html", "style.css", "main.js"] := by
  have hindex := Surveyed.references surveyed_chain (.head _)
  have hpage := Surveyed.references surveyed_chain (.tail _ (.head _))
  have hlast := Surveyed.references surveyed_chain (.tail _ (.tail _ (.head _)))
  apply Exists.intro
  apply And.intro
  · apply Exists.intro
    rw [hindex]
    apply Preorder.branch (by decide) (by decide)
    · rw [hpage]
      apply Preorder.branch (by decide) (by decide)
      · rw [hlast]
        exact .leaf (by decide) (.leaf (by decide) .nil)
      · exact .nil
    · exact .leaf (by decide) .nil
  · decide

/-- What the chain refers to is reported in depth-first order. -/
theorem reported_depth_first_chain : Readable (pages chainPages) "index.html" ∧
    {u | Reaches (pages chainPages) "index.html" u}.Finite ∧
    ∀ q, Queue.Run (pages chainPages) "index.html" q → q.Ended →
      ∃ ws rs, q.report = some (.ok ⟨ws, rs⟩) ∧
        rs.map (·.url) = [("a.html" : Text), "lib/b.html", "style.css", "main.js"] := by
  have hreadable := SelfContained.readable selfContained_chain List.mem_cons_self
  have hfinite := SelfContained.finite selfContained_chain List.mem_cons_self
  obtain ⟨rs, hrs, hurls⟩ := exists_depthFirst_chain
  obtain ⟨-, -, pre, hpre, -, hreports⟩ := reported_depth_first_iff hreadable hfinite
  obtain rfl := (hpre rs).1 hrs
  refine ⟨hreadable, hfinite, fun q hrun hended => ?_⟩
  obtain ⟨ws, hreport⟩ := hreports unshared_chain q hrun hended
  exact ⟨ws, _, hreport, hurls⟩

/-- Pages of which two import the same one. -/
def sharedPages : List (Text × Text) :=
  [("index.html", "<link rel=\"import\" href=\"a.html\"><link rel=\"import\" href=\"b.html\">" ++
      "<link rel=\"import\" href=\"c.html\">"),
    ("a.html", "<link rel=\"import\" href=\"c.html\">"), ("c.html", "<link rel=\"import\" href=\"d.html\">")]

/-- What these pages refer to, and where. -/
def sharedSurveys : List (Text × Survey) :=
  [clear "index.html" [⟨"a.html", .document, ⟨"index.html", 1, 0⟩⟩, ⟨"b.html", .document, ⟨"index.html", 1, 33⟩⟩,
      ⟨"c.html", .document, ⟨"index.html", 1, 66⟩⟩],
    clear "a.html" [⟨"c.html", .document, ⟨"a.html", 1, 0⟩⟩], clear "b.html" [],
    clear "c.html" [⟨"d.html", .document, ⟨"c.html", 1, 0⟩⟩], clear "d.html" []]

theorem surveyed_shared : Surveyed sharedPages sharedSurveys := by
  unfold sharedPages
  repeat rw [Text.ofString_ofList]
  decide

theorem selfContained_shared :
    SelfContained sharedPages ["index.html", "a.html", "b.html", "c.html", "d.html"] :=
  Surveyed.selfContained surveyed_shared (by decide)

/-- The pages in depth-first order. -/
theorem exists_depthFirst_shared : ∃ pre, DepthFirst (pages sharedPages) "index.html" pre ∧
    (firsts [] pre).map (·.url) = [("a.html" : Text), "c.html", "d.html", "b.html"] := by
  have hindex := Surveyed.references surveyed_shared (.head _)
  have hfirst := Surveyed.references surveyed_shared (.tail _ (.head _))
  have hsecond := Surveyed.references surveyed_shared (.tail _ (.tail _ (.head _)))
  have hthird := Surveyed.references surveyed_shared (.tail _ (.tail _ (.tail _ (.head _))))
  have hlast := Surveyed.references surveyed_shared (.tail _ (.tail _ (.tail _ (.tail _ (.head _)))))
  apply Exists.intro
  apply And.intro
  · apply Exists.intro
    rw [hindex]
    apply Preorder.branch (by decide) (by decide)
    · rw [hfirst]
      apply Preorder.branch (by decide) (by decide)
      · rw [hthird]
        apply Preorder.branch (by decide) (by decide)
        · rw [hlast]
          exact .nil
        · exact .nil
      · exact .nil
    · apply Preorder.branch (by decide) (by decide)
      · rw [hsecond]
        exact .nil
      · exact .leaf (by decide) .nil
  · decide

/-- What a page refers to that two others import may be reported in another order. -/
theorem not_reported_depth_first : Readable (pages sharedPages) "index.html" ∧
    {u | Reaches (pages sharedPages) "index.html" u}.Finite ∧
    ∃ q ws rs pre, Queue.Run (pages sharedPages) "index.html" q ∧ q.Ended ∧
      q.report = some (.ok ⟨ws, rs⟩) ∧ DepthFirst (pages sharedPages) "index.html" pre ∧
      rs.map (·.url) = [("a.html" : Text), "c.html", "b.html", "d.html"] ∧
      (firsts [] pre).map (·.url) = [("a.html" : Text), "c.html", "d.html", "b.html"] := by
  have hreadable := SelfContained.readable selfContained_shared List.mem_cons_self
  have hsession : ((Session.start : Queue.ImportSession).crawl (pages sharedPages) 60 "index.html").2.1.map
      (·.map fun report => report.references.map (·.url)) =
        some (.ok [("a.html" : Text), "c.html", "b.html", "d.html"]) := by
    unfold sharedPages
    repeat rw [Text.ofString_ofList]
    decide
  refine ⟨hreadable, SelfContained.finite selfContained_shared List.mem_cons_self, ?_⟩
  obtain ⟨pre, hpre, hurls⟩ := exists_depthFirst_shared
  obtain ⟨outcome, houtcome, hreferences⟩ := Option.map_eq_some_iff.1 hsession
  obtain ⟨q, hrun, hreport, -⟩ := Queue.run_of_crawl houtcome
  cases outcome with
  | error f => cases hreferences
  | ok report =>
    have hended : q.ready ++ q.waiting = [] := by
      rcases (hrun.smooth hreadable).report with ⟨hnone, -⟩ | ⟨hended, -⟩
      · cases hnone.symm.trans hreport
      · exact hended
    exact ⟨q, report.warnings, report.references, pre, hrun, List.append_eq_nil_iff.1 hended, hreport,
      hpre, Except.ok.inj hreferences, hurls⟩

end HtmlDeps.Imports
