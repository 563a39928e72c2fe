import HtmlDeps.Proofs.Build.Loaded
import HtmlDeps.Proofs.Crawl.Ending
import HtmlDeps.Proofs.Url.Relative

/-!
# Scanning registered files

A request is answered from the registered files if they tell what stands behind its URL (`answer?`), and
then nobody waits (`load_of_answer`).  Where this is so for all that a crawl asks for, the crawl ends exactly
if it can reach finitely many documents (`scan_ends_iff`).

Finitely many files do not make finitely many documents, as a file can be reached under many URLs.  A page
that imports itself from the directory above stands for the same page under each of the URLs `climbing k`.

The full specification calls the scanning of imports “cycle-safe”: `_follow` keeps the URLs that it has
visited, but a URL is not a document.
-/

namespace HtmlDeps

namespace Build

open Imports

variable {C C' : Crawler} {s : Setup} {b : Build C} {b' : Build C'} {u url : Text}
  {answer : Except Fault Text}

/-! ### What the registered files tell -/

/-- What is behind a URL, if it does not take a file that is still to be registered. -/
def answer? (s : Setup) (b : Build C) (u : Text) : Option (Except Fault Text) :=
  match Url.isExternal u, Url.parse u with
  | .error f, _ => some (.error (.document (.url f)))
  | .ok true, _ => some (.ok [])
  | .ok false, .error f => some (.error (.document (.url f)))
  | .ok false, .ok v =>
    match b.fileAt s (s.project.path v.path) with
    | .error e => some (.error (.outside e))
    | .ok file => file.map (.ok ·.text)

/-- The texts behind the URLs, as far as the registered files tell. -/
def texts (s : Setup) (b : Build C) (u : Text) : Except Fault Text := (b.answer? s u).getD (.ok [])

theorem texts_of_answer (h : b.answer? s u = some answer) : b.texts s u = answer := by rw [texts, h]; rfl

theorem answer?_congr (h : b'.files = b.files) : b'.answer? s u = b.answer? s u := by
  have hfile : ∀ v, b'.file? v = b.file? v := fun v => by
    unfold file?
    rw [h]
  have hfiles : ∀ p, b'.fileAt s p = b.fileAt s p := fun p => by
    rw [fileAt, fileAt, funext hfile]
  unfold answer?
  simp only [hfiles]

/-- A request that the registered files answer is answered at once: but for the log, nothing happens to the
build except that the caller goes on. -/
theorem load_of_answer (h : b.answer? s u = some answer) (caller : Caller C) : b.load s u caller =
    (b.note (b.contextOf s caller) .debug ("loading: " ++ u)).goOn (caller.resume answer) := by
  unfold answer? at h
  unfold load
  dsimp only
  -- The note is all that comes before the file is looked up.
  have hfiles : ∀ ctx level message p, (b.note ctx level message).fileAt s p = b.fileAt s p := fun _ _ _ _ => rfl
  split
  · rename_i hexternal
    rw [hexternal] at h
    obtain rfl := Option.some.inj h
    rfl
  · rename_i hexternal
    rw [hexternal] at h
    obtain rfl := Option.some.inj h
    rfl
  · rename_i hexternal hparse
    rw [hexternal, hparse] at h
    obtain rfl := Option.some.inj h
    rfl
  · rename_i v hexternal hparse
    rw [hexternal, hparse] at h
    dsimp only at h
    rw [hfiles]
    split
    · rename_i e he
      rw [he] at h
      obtain rfl := Option.some.inj h
      rfl
    · rename_i f hf
      rw [hf] at h
      obtain rfl := Option.some.inj h
      rfl
    · rename_i hnone
      rw [hnone] at h
      cases h

/-- **The scan of the imports of registered files.**  If the registered files tell what is behind all URLs
that are asked for, then no request waits.  The scan may go on for ever exactly if infinitely many documents
can be reached, and not if all are registered under the URLs by which they are reached.  No document is
scanned twice, or without being reached, or left out when the scan has come to its end with a report. -/
theorem scan_ends_iff (htold : ∀ u, Wanted (b.texts s) url u → (b.answer? s u).isSome) :
    (∀ u, Wanted (b.texts s) url u → ∀ b' : Build C, b'.files = b.files → ∀ caller,
      b'.load s u caller = (b'.note (b'.contextOf s caller) .debug ("loading: " ++ u)).goOn
        (caller.resume (b.texts s u))) ∧
    (¬ Crawl.Endless (b.texts s) url ↔ {u | Reaches (b.texts s) url u}.Finite) ∧
    ((∀ u, Reaches (b.texts s) url u → u ∈ b.files.keys) → ¬ Crawl.Endless (b.texts s) url ∧
      ∀ c, Crawl.Run (b.texts s) url c → c.memory.visited.length ≤ b.files.length) ∧
    ∀ c, Crawl.Run (b.texts s) url c →
      c.memory.visited.Nodup ∧ (∀ u ∈ c.memory.visited, Reaches (b.texts s) url u) ∧
      (∀ u ∈ c.asked, Wanted (b.texts s) url u) ∧
      (c.threads = [] → c.report.isSome ∧ ∀ u, Reaches (b.texts s) url u → u ∈ c.memory.visited) := by
  refine ⟨fun u hu b' hfiles caller => ?_, ?_, fun hkeys => ⟨fun hendless => ?_, fun c hrun => ?_⟩,
    fun c hrun => ⟨hrun.grounded.nodup, fun u => hrun.grounded.reaches_of_visited,
      hrun.grounded.asked, fun hended => ⟨hrun.reported hended, fun u => hrun.visited_of_reaches hended⟩⟩⟩
  · obtain ⟨answer, hanswer⟩ := Option.isSome_iff_exists.1 (htold u hu)
    rw [texts_of_answer hanswer]
    exact load_of_answer ((answer?_congr hfiles).trans hanswer) caller
  · rw [Crawl.endless_iff, Set.not_infinite]
  · refine Crawl.endless_iff.1 hendless (Set.Finite.subset (List.finite_toSet b.files.keys) hkeys)
  · exact (hrun.length_visited_le hkeys).trans_eq (List.length_map _)

/-- Two pages that import each other. -/
def mutualBuild : Build importer :=
  ((((initial importer pagePlan.project).register (pageDisk.setup pagePlan)
    ⟨"/app/index.html", Text.encode "<link rel=\"import\" href=\"a.html\">"⟩).1).register
      (pageDisk.setup pagePlan) ⟨"/app/a.html", Text.encode "<link rel=\"import\" href=\"index.html\">"⟩).1

/-- Their scan ends after two scans. -/
theorem scan_ends_mutual :
    (∀ u, Wanted (mutualBuild.texts (pageDisk.setup pagePlan)) "index.html" u →
      (mutualBuild.answer? (pageDisk.setup pagePlan) u).isSome) ∧
    ¬ Crawl.Endless (mutualBuild.texts (pageDisk.setup pagePlan)) "index.html" ∧
    ∀ c, Crawl.Run (mutualBuild.texts (pageDisk.setup pagePlan)) "index.html" c →
      c.memory.visited.length ≤ 2 := by
  have hwanted : ∀ u, Wanted (mutualBuild.texts (pageDisk.setup pagePlan)) "index.html" u →
      u ∈ [("index.html" : Text), "a.html"] := fun u =>
    wanted_of_closed (by decide) (by decide)
  have htold : ∀ u ∈ [("index.html" : Text), "a.html"],
      (mutualBuild.answer? (pageDisk.setup pagePlan) u).isSome ∧ u ∈ mutualBuild.files.keys := by
    decide
  have hanswers : ∀ u, Wanted (mutualBuild.texts (pageDisk.setup pagePlan)) "index.html" u →
      (mutualBuild.answer? (pageDisk.setup pagePlan) u).isSome := fun u hu => (htold u (hwanted u hu)).1
  obtain ⟨-, -, hends, -⟩ := scan_ends_iff hanswers
  exact ⟨hanswers, hends fun u hu => (htold u (hwanted u (.inl hu))).2⟩

/-! ### A page that climbs -/

/-- A page that imports itself from the directory above. -/
def climbingPage : Text := "<link rel=\"import\" href=\"../index.html\">"

/-- The URL of a page so many directories further up. -/
def climbing (k : Nat) : Text := Text.join "/" (List.replicate k Path.dotDot ++ [("index.html" : Text)])

theorem name_index : ∀ n ∈ [("index.html" : Text)], Path.Name n := fun n hn => by
  rw [List.mem_singleton.1 hn]
  exact ⟨by decide, by decide, by decide⟩

theorem part_index : ∀ n ∈ [("index.html" : Text)], Path.Part n := fun n hn => by
  rw [List.mem_singleton.1 hn]
  exact ⟨by decide, by decide, by decide⟩

theorem literal_climbing (k : Nat) : Url.Literal (climbing k) := by
  have hglyphs : ∀ g ∈ ("../index.html" : Text),
      32 < g.code ∧ g ∉ ([.char ':', .char '?', .char '#', .char '%'] : Text) := by decide
  refine Url.literal_of_glyphs fun g hg => hglyphs g ?_
  rcases Text.mem_of_mem_join hg with hg | ⟨n, hn, hg⟩
  · exact (by decide : ∀ g ∈ ("/" : Text), g ∈ ("../index.html" : Text)) g hg
  · rcases List.mem_append.1 hn with hn | hn
    · rw [List.eq_of_mem_replicate hn] at hg
      exact (by decide : ∀ g ∈ Path.dotDot, g ∈ ("../index.html" : Text)) g hg
    · rw [List.mem_singleton.1 hn] at hg
      exact (by decide : ∀ g ∈ ("index.html" : Text), g ∈ ("../index.html" : Text)) g hg

theorem climbing_injective : Function.Injective climbing := by
  intro j k h
  have hparts : ∀ k, Path.partsOf (climbing k) = List.replicate k Path.dotDot ++ [("index.html" : Text)] := fun k =>
    Path.partsOf_join (Path.part_climb part_index)
  have hlength := congrArg List.length ((hparts j).symm.trans ((congrArg Path.partsOf h).trans (hparts k)))
  simpa using hlength

theorem resolve_climbing (k : Nat) :
    Url.resolve (climbing k) "../index.html" = .ok (some (climbing (k + 1))) := by
  have hhref : Text.join "/" [Path.dotDot, ("index.html" : Text)] = ("../index.html" : Text) := by decide
  have hparts : ∀ n ∈ [Path.dotDot, ("index.html" : Text)], Path.Part n := Path.part_climb (k := 1) part_index
  have hliteral : Url.Literal (Text.join "/" [Path.dotDot, ("index.html" : Text)]) := literal_climbing 1
  have happend : List.replicate k Path.dotDot ++ [Path.dotDot, ("index.html" : Text)] =
      List.replicate (k + 1) Path.dotDot ++ [("index.html" : Text)] := by
    rw [List.replicate_succ', List.append_assoc]
    rfl
  rw [← hhref, climbing, Url.resolve_join (by decide) hparts (List.cons_ne_nil _ _) hliteral (by decide),
    happend, Url.settle_join name_index part_index (List.cons_ne_nil _ _)]
  rfl

theorem survey_climbing (k : Nat) : Survey.of (climbing k) climbingPage =
    (⟨climbing k, [⟨climbing (k + 1), .document, ⟨climbing k, 1, 0⟩⟩], [], [], none⟩, none) := by
  -- The page does not depend on `k`, so scanning it is a computation; only its URL climbs.
  have htokens : ((Scanner.start .resolved).feedAll [climbingPage]).tokens = [⟨⟨0, 1, 0⟩, ⟨climbingPage,
      .opened ⟨"link", [("rel", "import"), ("href", "../index.html")], false⟩⟩⟩] := by decide
  have houtcome : ((Scanner.start .resolved).feedAll [climbingPage]).outcome.isOk := by decide
  have hopened : (Survey.start (climbing k)).opened ⟨0, 1, 0⟩
      ⟨"link", [("rel", "import"), ("href", "../index.html")], false⟩ =
      (Survey.start (climbing k)).note ⟨0, 1, 0⟩ (some "../index.html") .document "missing-href"
        "HTML import has no href" := by
    unfold Survey.opened
    rfl
  have hnote : (Survey.start (climbing k)).note ⟨0, 1, 0⟩ (some "../index.html") .document "missing-href"
        "HTML import has no href" =
      .ok ⟨climbing k, [⟨climbing (k + 1), .document, ⟨climbing k, 1, 0⟩⟩], [], [], none⟩ := by
    have hresolve : Url.resolve (Survey.start (climbing k)).document "../index.html" = _ := resolve_climbing k
    unfold Survey.note
    dsimp only [Option.getD_some]
    rw [if_neg (by decide), hresolve]
    rfl
  unfold Survey.of Survey.ofPieces
  dsimp only
  rw [htokens, Survey.run, Survey.step]
  dsimp only
  rw [hopened, hnote]
  dsimp only [Survey.run]
  split
  · rename_i f hf
    rw [hf] at houtcome
    cases houtcome
  · rfl

/-- A build in which nothing but the page is registered. -/
def climbingBuild : Build importer :=
  ((initial importer pagePlan.project).register (pageDisk.setup pagePlan)
    ⟨"/app/index.html", Text.encode climbingPage⟩).1

theorem answer_climbing (k : Nat) :
    climbingBuild.answer? (pageDisk.setup pagePlan) (climbing k) = some (.ok climbingPage) := by
  have hslash := Path.join_ne_slash (Path.part_climb (k := k) part_index)
  have hliteral := literal_climbing k
  have hpath : (pageDisk.setup pagePlan).project.path (climbing k) = "/app/index.html" :=
    (Url.ofUrl_climb name_index part_index hliteral.unescaped).trans (by decide)
  unfold answer?
  rw [Url.isExternal_of_literal hliteral hslash, Url.parse_of_literal hliteral hslash]
  dsimp only
  rw [hpath]
  have hfile : climbingBuild.fileAt (pageDisk.setup pagePlan) "/app/index.html" =
      .ok (some ⟨"/app/index.html", Text.encode climbingPage⟩) := by decide
  have htext : (⟨"/app/index.html", Text.encode climbingPage⟩ : File).text = climbingPage := by decide
  rw [hfile]
  dsimp only [Option.map]
  rw [htext]

/-- The references of the page, so many directories further up. -/
theorem references_climbing (k : Nat) :
    references (climbingBuild.texts (pageDisk.setup pagePlan)) (climbing k) =
      [⟨climbing (k + 1), .document, ⟨climbing k, 1, 0⟩⟩] := by
  have hsurvey := survey_climbing k
  rw [references_of_survey (texts_of_answer (answer_climbing k)) (by rw [hsurvey]), hsurvey]

theorem reaches_climbing_iff {u : Text} :
    Reaches (climbingBuild.texts (pageDisk.setup pagePlan)) "index.html" u ↔ ∃ k, climbing k = u := by
  constructor
  · intro h
    induction h with
    | refl => exact ⟨0, rfl⟩
    | tail _ himported ih =>
      obtain ⟨k, rfl⟩ := ih
      obtain ⟨r, hr, -, rfl⟩ := himported
      rw [references_climbing, List.mem_singleton] at hr
      exact ⟨k + 1, by rw [hr]⟩
  · rintro ⟨k, rfl⟩
    induction k with
    | zero => exact .refl
    | succ k ih =>
      have hlocal := Url.isExternal_of_literal (literal_climbing (k + 1))
        (Path.join_ne_slash (Path.part_climb part_index))
      refine ih.tail ⟨⟨climbing (k + 1), .document, ⟨climbing k, 1, 0⟩⟩, ?_, ⟨rfl, hlocal⟩, rfl⟩
      rw [references_climbing]
      exact List.mem_cons_self

/-- One page is registered, all requests are answered with it, and the scan may go on for ever. -/
theorem not_scan_ends : climbingBuild.files.keys = ["index.html"] ∧
    (∀ u, Wanted (climbingBuild.texts (pageDisk.setup pagePlan)) "index.html" u →
      climbingBuild.answer? (pageDisk.setup pagePlan) u = some (.ok climbingPage)) ∧
    Crawl.Endless (climbingBuild.texts (pageDisk.setup pagePlan)) "index.html" := by
  refine ⟨by decide, fun u hu => ?_, Crawl.endless_of_infinite ?_⟩
  · rcases hu with hu | ⟨v, hv, r, hr, -, rfl⟩
    · obtain ⟨k, rfl⟩ := reaches_climbing_iff.1 hu
      exact answer_climbing k
    · obtain ⟨k, rfl⟩ := reaches_climbing_iff.1 hv
      rw [references_climbing, List.mem_singleton] at hr
      rw [hr]
      exact answer_climbing (k + 1)
  · exact Set.infinite_of_injective_forall_mem climbing_injective fun k =>
      reaches_climbing_iff.2 ⟨k, rfl⟩

end Build
end HtmlDeps
