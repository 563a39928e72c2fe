import HtmlDeps.Proofs.Build.Closure
import HtmlDeps.Proofs.Build.Fetched
import HtmlDeps.Proofs.Path.Order

/-!
# Sources and dependencies

What the source pump takes is what the scan of the disk has found, in that order, and the stream of
sources ends properly only when all of it was sent (`Account.Drawn`).  What the dependency pump takes was
no source when it was put on the queue.  So the two lists of a summary have nothing in common
(`Fed.partition_of_result`).

The sources are those of `iter_source_files`, and `push_dependency` leaves out what matches their globs.
-/

namespace HtmlDeps

/-- The files that arrive. -/
def Arrival.file? : Arrival → Option File
  | .file f => some f
  | _ => none

namespace Account

variable {s : Setup} {a a' : Account} {items rest taken : List Arrival}

/-- These arrivals were taken without a fault, and their files were sent. -/
structure Supplied (o : Outlet Failure) (taken : List Arrival) : Prop where
  sent : o.sent = taken.filterMap Arrival.file?
  faultless : ∀ f, .fault f ∉ taken

/-- What was taken is the beginning of `items`, and what has arrived since and is still to come is the
rest. -/
structure Drawn (items rest : List Arrival) (a : Account) : Prop where
  taken : ∃ taken, items = taken ++ (a.incoming ++ rest) ∧ (a.exhausted = true → .finish ∈ taken) ∧
    (a.status ≠ .failed → Supplied a.sources taken)
  closing : a.closing = true → a.exhausted = true
  close : .close ∈ a.duties → a.exhausted = true
  ended : a.sources.ending = some .complete →
    ∃ taken, taken <+: items ∧ .finish ∈ taken ∧ Supplied a.sources taken

theorem Drawn.same (h : Drawn items rest a) (hincoming : a'.incoming = a.incoming)
    (hexhausted : a'.exhausted = a.exhausted) (hstatus : a'.status = a.status)
    (hsources : a'.sources = a.sources) (hclosing : a'.closing = true → a'.exhausted = true)
    (hclose : .close ∈ a'.duties → .close ∈ a.duties) : Drawn items rest a' := by
  refine ⟨?_, hclosing, fun hmem => ?_, ?_⟩
  · rw [hincoming, hexhausted, hstatus, hsources]
    exact h.taken
  · rw [hexhausted]
    exact h.close (hclose hmem)
  · rw [hsources]
    exact h.ended

theorem Drawn.cancel (h : Drawn items rest a) : Drawn items rest a.cancel :=
  h.same rfl rfl rfl rfl nofun nofun

theorem Drawn.claim (h : Drawn items rest a) (p : Path) : Drawn items rest (a.claim p) := by
  unfold Account.claim
  split
  · exact h.same rfl rfl rfl rfl h.closing id
  · exact h

theorem Drawn.fail (h : Drawn items rest a) (f : Failure) : Drawn items rest (a.fail f) := by
  obtain ⟨taken, hitems, hfinish, -⟩ := h.taken
  refine Drawn.cancel ⟨⟨taken, hitems, hfinish, fun hopen => absurd rfl hopen⟩, h.closing, h.close, ?_⟩
  intro hcomplete
  have hsame := Outlet.eq_of_close_failed hcomplete
  dsimp only at hcomplete ⊢
  rw [hsame] at hcomplete ⊢
  exact h.ended hcomplete

theorem Drawn.succeed (h : Drawn items rest a) (hrunning : a.status = .running) :
    Drawn items rest a.succeed := by
  obtain ⟨taken, hitems, hfinish, hsupplied⟩ := h.taken
  refine ⟨⟨taken, hitems, hfinish, fun _ => hsupplied (by rw [hrunning]; nofun)⟩, nofun, fun hmem => ?_,
    h.ended⟩
  unfold Account.succeed at hmem
  dsimp only at hmem
  split at hmem
  · exact h.closing ‹_›
  · exact h.close hmem

/-- An arrival is taken off. -/
theorem Drawn.next (h : Drawn items rest a) {item : Arrival} {incoming : List Arrival}
    {o : Outlet Failure} (hincoming : a.incoming = item :: incoming)
    (hsupplied : ∀ taken, a.status ≠ .failed → Supplied a.sources taken → Supplied o (taken ++ [item]))
    (hended : o.ending = some .complete → o = a.sources) :
    Drawn items rest { a with incoming := incoming, sources := o } := by
  obtain ⟨taken, hitems, hfinish, htaken⟩ := h.taken
  refine ⟨⟨taken ++ [item], ?_, fun hexhausted => ?_, fun hopen => ?_⟩, h.closing, h.close, fun hcomplete => ?_⟩
  · rw [hitems, hincoming, List.append_assoc]
    rfl
  · exact List.mem_append_left _ (hfinish hexhausted)
  · exact hsupplied taken hopen (htaken hopen)
  · have hsame := hended hcomplete
    dsimp only at hcomplete ⊢
    rw [hsame] at hcomplete ⊢
    exact h.ended hcomplete

theorem Supplied.append {o o' : Outlet Failure} (h : Supplied o taken) {item : Arrival}
    (hsent : o'.sent = o.sent ++ item.file?.toList) (hitem : ∀ f, item ≠ .fault f) :
    Supplied o' (taken ++ [item]) := by
  refine ⟨?_, fun f hf => ?_⟩
  · rw [hsent, h.sent, List.filterMap_append]
    cases item <;> rfl
  · rcases List.mem_append.1 hf with hf | hf
    · exact h.faultless f hf
    · exact hitem f (List.mem_singleton.1 hf).symm

theorem Drawn.step (h : Drawn items rest a) (hstep : Step s a a') : Drawn items rest a' := by
  cases hstep with
  | claim p => exact h.claim p
  | @last p d i _ _ hrunning =>
    have henter : Drawn items rest (a.enter p i) := h.same rfl rfl rfl rfl h.closing id
    exact henter.succeed hrunning
  | @lastFails p d i _ _ _ f =>
    have henter : Drawn items rest (a.enter p i) := h.same rfl rfl rfl rfl h.closing id
    exact henter.fail f
  | fail _ f => exact h.fail f
  | cancel => exact h.cancel
  | @take f incoming o hincoming _ hsend =>
    refine h.next hincoming (fun taken _ hsupplied => ?_) fun hcomplete => ?_
    · exact hsupplied.append (Outlet.sent_of_send hsend) nofun
    · rw [Outlet.ending_of_send hsend, (Outlet.send_eq_ok hsend).1] at hcomplete
      cases hcomplete
  -- A build that failed takes no more sources, and promises nothing about those that are left.
  | @skip item incoming hincoming hstatus =>
    exact h.next hincoming (fun _ hopen => absurd hstatus hopen) fun _ => rfl
  | @exhaust incoming hincoming =>
    obtain ⟨taken, hitems, -, hsupplied⟩ := h.taken
    refine ⟨⟨taken ++ [.finish], ?_, fun _ => ?_, fun hopen => ?_⟩, fun _ => rfl, fun _ => rfl, h.ended⟩
    · rw [hitems, hincoming, List.append_assoc]
      rfl
    · exact List.mem_append_right _ List.mem_cons_self
    · exact (hsupplied hopen).append (List.append_nil _).symm nofun
  | rest hexhausted => exact h.same rfl rfl rfl rfl (fun _ => hexhausted) id
  | leave => exact h.same rfl rfl rfl rfl nofun id
  | endSources hend hstatus =>
    -- The sources end only once the supply has, so all that was supplied was sent.
    have hexhausted : a.exhausted = true := hend.elim id h.close
    obtain ⟨taken, hitems, hfinish, hsupplied⟩ := h.taken
    have hsent : (a.sources.close .complete).sent = a.sources.sent := Outlet.sent_close _ _
    have hclosed : Supplied (a.sources.close .complete) taken := by
      have hopen := hsupplied (by rw [hstatus]; nofun)
      exact ⟨hsent.trans hopen.sent, hopen.faultless⟩
    refine ⟨⟨taken, hitems, hfinish, fun _ => hclosed⟩, h.closing, h.close, fun _ => ?_⟩
    exact ⟨taken, ⟨_, hitems.symm⟩, hfinish hexhausted, hclosed⟩
  | read | letThrough => exact h.same rfl rfl rfl rfl h.closing (by simp)
  | send hduties => exact h.same rfl rfl rfl rfl h.closing (by simp [hduties])
  | settle hsub => exact h.same rfl rfl rfl rfl h.closing fun hmem => hsub.subset hmem
  | _ => exact h.same rfl rfl rfl rfl h.closing id

theorem Drawn.arrive {item : Arrival} (h : Drawn items (item :: rest) a) :
    Drawn items rest { a with incoming := a.incoming ++ [item] } := by
  obtain ⟨taken, hitems, hfinish, hsupplied⟩ := h.taken
  refine ⟨⟨taken, ?_, hfinish, hsupplied⟩, h.closing, h.close, h.ended⟩
  rw [hitems, List.append_assoc]
  rfl

end Account

/-! ### The files of a project -/

namespace Disk

variable {d : Disk} {p : Project}

theorem nodup_below (hkeys : d.files.keys.Nodup) (root : Path) : (d.below root).Nodup := by
  have hbelow : (d.below root).Perm (d.files.keys.filterMap fun f =>
      if root.parts.isPrefixOf f && root.parts != f then some (f.drop root.parts.length) else none) := by
    refine (List.mergeSort_perm _ _).trans ?_
    unfold Table.keys
    rw [List.filterMap_map]
    exact .refl _
  rw [hbelow.nodup_iff]
  refine hkeys.filterMap fun f g n hf hg => ?_
  have hparts : ∀ f : List Text, n ∈ (if root.parts.isPrefixOf f && root.parts != f then
      some (f.drop root.parts.length) else none) → root.parts ++ n = f := by
    intro f hf
    split at hf
    · rename_i hprefix
      rw [Bool.and_eq_true, List.isPrefixOf_iff_prefix] at hprefix
      obtain ⟨rest, rfl⟩ := hprefix.1
      rw [List.drop_left] at hf
      rw [Option.mem_some.1 hf]
    · cases hf
  exact (hparts f hf).symm.trans (hparts g hg)

theorem pairwise_below (d : Disk) (root : Path) :
    (d.below root).Pairwise fun m n => Path.partsLe m n = true := by
  unfold below
  refine List.pairwise_mergeSort ?_ ?_ _
  · exact fun _ _ _ => Path.partsLe_trans
  · exact Path.partsLe_total

theorem file?_arrival {q : Path} (h : ∀ f, d.arrival p q ≠ .fault f) :
    ((d.arrival p q).file?).map (·.path) = some q := by
  unfold arrival at h ⊢
  split
  · rfl
  · rename_i e he
    rw [he] at h
    exact absurd rfl (h _)

/-- If everything up to the end was taken, then all files that the scan has found. -/
theorem paths_of_taken {taken : List Arrival} (htaken : taken <+: d.arrivals p)
    (hfinish : .finish ∈ taken) (hfaultless : ∀ f, .fault f ∉ taken) :
    ∃ patterns paths, p.sourcePatterns = .ok patterns ∧
      d.matching p.matcher p.root patterns = .ok paths ∧
      (taken.filterMap Arrival.file?).map (·.path) = paths := by
  unfold arrivals at htaken
  split at htaken
  · cases List.mem_singleton.1 (htaken.subset hfinish)
  · rename_i patterns hpatterns
    split at htaken
    · cases List.mem_singleton.1 (htaken.subset hfinish)
    · rename_i paths hpaths
      refine ⟨patterns, paths, hpatterns, hpaths, ?_⟩
      rcases List.prefix_concat_iff.1 htaken with rfl | htaken
      · have hfile : ∀ q ∈ paths, ((d.arrival p q).file?).map (·.path) = some q := by
          intro q hq
          refine file?_arrival fun f hf => hfaultless f (List.mem_append_left _ ?_)
          exact hf ▸ List.mem_map_of_mem hq
        rw [List.filterMap_append, List.filterMap_map, List.map_append, List.map_filterMap]
        calc paths.filterMap (fun q => ((d.arrival p q).file?).map (·.path)) ++ []
          _ = paths.filterMap fun q => ((d.arrival p q).file?).map (·.path) := List.append_nil _
          _ = paths.filterMap some := List.filterMap_congr hfile
          _ = paths := List.filterMap_some
      · obtain ⟨q, -, harrival⟩ := List.mem_map.1 (htaken.subset hfinish)
        unfold arrival at harrival
        split at harrival <;> cases harrival

end Disk

/-! ### The URLs of a project -/

namespace Project

variable {p : Project} {names : List (List Text)}

/-- The URLs of files below the root are their names, joined. -/
theorem urls_eq_of_paths_eq {urls : List Text} {fs : List File} (hp : p.Rooted)
    (hnames : ∀ n ∈ names, p.root.normal = p.root ∧ ∀ m ∈ n, Path.Name m)
    (hpaths : fs.map (·.path) = names.map p.root.extend)
    (hurls : urls.map .ok = fs.map fun f => p.url f.path) : urls = names.map (Text.join "/") := by
  have hurl : ∀ n ∈ names, p.url (p.root.extend n) = .ok (Text.join "/" n) := by
    intro n hn
    rw [← url_extend hp (hnames n hn).2, (hnames n hn).1]
  have hmapped : urls.map (.ok : Text → Except OutsideRoot Text) =
      (names.map (Text.join "/")).map .ok :=
    calc urls.map .ok
      _ = fs.map fun f => p.url f.path := hurls
      _ = (fs.map (·.path)).map p.url := List.map_map.symm
      _ = (names.map p.root.extend).map p.url := by rw [hpaths]
      _ = names.map fun n => p.url (p.root.extend n) := List.map_map
      _ = names.map fun n => .ok (Text.join "/" n) := List.map_congr_left hurl
      _ = (names.map (Text.join "/")).map .ok := List.map_map.symm
  exact List.map_injective_iff.2 (fun _ _ => Except.ok.inj) hmapped

theorem nodup_urls (h : names.Nodup) (hnames : ∀ n ∈ names, ∀ m ∈ n, Path.Name m) :
    (names.map (Text.join "/")).Nodup := by
  have hparts : ∀ n ∈ names, ∀ m ∈ n, m ≠ [] ∧ .char '/' ∉ m :=
    fun n hn m hm => ⟨(hnames n hn m hm).ne_nil, (hnames n hn m hm).slash⟩
  exact h.map_on fun m hm n hn heq => Text.join_injective (hparts m hm) (hparts n hn) heq

theorem selects_of_isSource {patterns : List Text} {q : Path} {u : Text} {k : Bool}
    (hpatterns : p.sourcePatterns = .ok patterns) (hurl : p.url q = .ok u)
    (h : p.isSource q = .ok k) : Glob.selects p.matcher u patterns = .ok k := by
  unfold isSource Project.selects at h
  rw [hpatterns, hurl] at h
  dsimp only at h
  cases hselects : Glob.selects p.matcher u patterns with
  | error e =>
    rw [hselects] at h
    cases h
  | ok k' =>
    rw [hselects] at h
    rw [Except.ok.inj h]

end Project

namespace Build

variable {m : Glob.Matcher} {b b₀ : Build importer} {rest : List Arrival}

theorem drawn_initial (p : Project) (items : List Arrival) : (initial importer p).account.Drawn items items :=
  ⟨⟨[], rfl, nofun, fun _ => ⟨rfl, nofun⟩⟩, nofun, nofun, nofun⟩

theorem Steps.of_start {s : Setup} (hstart : (initial importer s.project).start s = (b₀, none)) :
    Account.Steps s (initial importer s.project).account b₀.account := by
  have hsteps := steps_start (s := s) (b := initial importer s.project)
    fun hnone => absurd hnone (allFragments_ne_nil s.project)
  rwa [hstart] at hsteps

theorem drawn_start {s : Setup} (items : List Arrival)
    (hstart : (initial importer s.project).start s = (b₀, none)) : b₀.account.Drawn items items :=
  (Steps.of_start hstart).preserve (fun _ _ ha hstep => ha.step hstep) (drawn_initial s.project items)

theorem Fed.drawn {s : Setup} {items : List Arrival}
    (hstart : (initial importer s.project).start s = (b₀, none)) (h : Fed s b₀ items b rest) :
    b.account.Drawn items rest := by
  refine h.preserve (drawn_start items hstart) (fun _ _ _ ha hstep => ha.step hstep) ?_
  intro item rest a ha
  obtain ⟨taken, hitems, hfinish, hsupplied⟩ := ha.taken
  refine ⟨⟨taken, ?_, hfinish, hsupplied⟩, ha.closing, ha.close, ha.ended⟩
  rw [hitems, List.append_assoc]
  rfl

/-- What was sent as a dependency is no source. -/
theorem Fed.isSource_of_sent {s : Setup} {items : List Arrival}
    (hstart : (initial importer s.project).start s = (b₀, none)) (h : Fed s b₀ items b rest) {f : File}
    (hf : f ∈ b.dependencies.sent) : s.project.isSource f.path = .ok false := by
  have hmoves : Moves s (initial importer s.project) b₀ := by
    have hmoves := Moves.start (s := s) (initial importer s.project)
    rwa [hstart] at hmoves
  obtain ⟨past, htrace⟩ := h.trace
  have hreached : Reached s b := htrace.reached (.single hmoves)
  obtain ⟨u, hsource, -⟩ := hreached.booked.leads_of_sent hf
  exact hsource

/-- **Sources and dependencies.**  If a fed run on the files of a project leads to a summary, then its
sources are the files below the root that the source patterns select, each once and in the order of their
paths, and none of its dependencies is selected.  So the two lists have nothing in common. -/
theorem Fed.partition_of_result {d : Disk} {plan : BuildPlan} {l : Layout} {cwd : Path} {homes : Homes}
    {gated : Bool} {summary : Summary} (hd : d.WellFormed) (hkeys : d.files.keys.Nodup)
    (hcwd : cwd.isAbsolute) (hproject : l.anchor m cwd homes = .ok plan.project)
    (hstart : (initial importer plan.project).start { d.setup plan with gated } = (b₀, none))
    (hrun : Fed { d.setup plan with gated } b₀ (d.arrivals plan.project) b rest)
    (hresult : (d.conclude plan b).result = some (.ok summary)) :
    ∃ (patterns : List Text) (names : List (List Text)),
      plan.project.sourcePatterns = .ok patterns ∧
      summary.sources = names.map (Text.join "/") ∧
      names.Pairwise (fun m n => Path.partsLe m n = true) ∧ summary.sources.Nodup ∧
      (∀ n, n ∈ names ↔ d.Holds plan.project.root n ∧
        Glob.selects plan.project.matcher (Text.join "/" n) patterns = .ok true) ∧
      (∀ u ∈ summary.dependencies, Glob.selects plan.project.matcher u patterns = .ok false) ∧
      summary.sources.Disjoint summary.dependencies := by
  have hp : plan.project.Rooted := Project.rooted_of_anchor hcwd hproject
  have horigin : ∀ q, Origin { d.setup plan with gated } q → plan.project.Regular q :=
    fun q hq => Disk.regular_of_origin hp hd hq
  have hitems : ∀ f, .file f ∈ d.arrivals plan.project → plan.project.Regular f.path :=
    fun f hf => (Disk.inside_of_mem_arrivals hp hd hf).regular hp
  obtain ⟨horderly, -⟩ := hrun.orderly hp horigin hstart hitems
  obtain ⟨-, hending, hsources, hdependencies⟩ := urls_of_conclude hresult
  -- the stream of sources has ended properly, so all that the scan has found was sent
  obtain ⟨taken, htaken, hfinish, hsupplied⟩ := (hrun.drawn hstart).ended hending
  obtain ⟨patterns, paths, hpatterns, hpaths, hsent⟩ :=
    Disk.paths_of_taken htaken hfinish hsupplied.faultless
  obtain ⟨names, rfl, hsublist, hmem⟩ := Disk.exists_of_matching hpaths
  have hnames : ∀ n ∈ names, plan.project.root.normal = plan.project.root ∧ ∀ m ∈ n, Path.Name m :=
    fun n hn => ((hmem n).1 hn).1.names hp hd
  have hlisted : summary.sources = names.map (Text.join "/") := by
    refine Project.urls_eq_of_paths_eq hp hnames ?_ hsources
    rw [show b.sources.sent = _ from hsupplied.sent]
    exact hsent
  have hunselected : ∀ u ∈ summary.dependencies,
      Glob.selects plan.project.matcher u patterns = .ok false := by
    intro u hu
    have hsent := List.mem_map_of_mem (f := (.ok : Text → Except OutsideRoot Text)) hu
    rw [hdependencies] at hsent
    obtain ⟨f, hf, hurl⟩ := List.mem_map.1 hsent
    exact Project.selects_of_isSource hpatterns hurl (hrun.isSource_of_sent hstart hf)
  refine ⟨patterns, names, hpatterns, hlisted, (Disk.pairwise_below d _).sublist hsublist, ?_, hmem,
    hunselected, fun u hu hu' => ?_⟩
  · rw [hlisted]
    exact Project.nodup_urls ((Disk.nodup_below hkeys _).sublist hsublist) fun n hn => (hnames n hn).2
  · rw [hlisted] at hu
    obtain ⟨n, hn, rfl⟩ := List.mem_map.1 hu
    have hselected := ((hmem n).1 hn).2
    rw [hunselected _ hu'] at hselected
    exact absurd (Except.ok.inj hselected) nofun

/-- The document is the only source, and the script the only dependency. -/
theorem partition_page : ∃ summary : Summary,
    (pageDisk.conclude pagePlan pageEnd).result = some (.ok summary) ∧
      summary.sources = ["index.html"] ∧ summary.dependencies = ["a.js"] ∧
      ∃ (patterns : List Text) (names : List (List Text)),
        pagePlan.project.sourcePatterns = .ok patterns ∧ summary.sources = names.map (Text.join "/") ∧
        (∀ n, n ∈ names ↔ pageDisk.Holds "/app" n ∧
          Glob.selects Glob.accepts (Text.join "/" n) patterns = .ok true) ∧
        Glob.selects Glob.accepts "a.js" patterns = .ok false := by
  obtain ⟨patterns, names, hpatterns, hsources, -, -, hmem, hdependencies, -⟩ :=
    Fed.partition_of_result wellFormed_page (by decide) (by decide) anchor_page rfl fed_page result_page
  exact ⟨_, result_page, rfl, rfl, patterns, names, hpatterns, hsources, hmem,
    hdependencies "a.js" List.mem_cons_self⟩

end Build

end HtmlDeps
