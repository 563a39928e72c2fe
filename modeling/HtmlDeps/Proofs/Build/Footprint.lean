import HtmlDeps.Proofs.Build.Delivered
import HtmlDeps.Proofs.Build.Partition
import HtmlDeps.Proofs.Path.Seen

/-!
# What a build changes on disk

A build sends only what it has read, sources and dependencies alike (`Build.Fed.read_of_sent`).  Unless the root of
the project is a file, such a file lies strictly below it, and so does its copy below the output directory.
Nothing else on the disk changes (`Disk.grows_build`).
-/

namespace HtmlDeps

/-! ### What is sent was read -/

namespace Account

variable {s : Setup} {a a' : Account} {items rest : List Arrival}

/-- One arrival at most is sent in a step. -/
theorem sent_of_step (h : Step s a a') : a'.sources.sent = a.sources.sent ∨
    ∃ f rest, a.incoming = .file f :: rest ∧ a'.sources.sent = a.sources.sent ++ [f] := by
  cases h with
  | claim p =>
    unfold claim
    split <;> exact .inl rfl
  | lastFails | fail | endSources => exact .inl (Outlet.sent_close _ _)
  | take hincoming _ hsend => exact .inr ⟨_, _, hincoming, Outlet.sent_of_send hsend⟩
  | _ => exact .inl rfl

/-- The sources that were sent are among those that arrive. -/
structure Stemming (items rest : List Arrival) (a : Account) : Prop where
  drawn : a.Drawn items rest
  sent : ∀ f ∈ a.sources.sent, .file f ∈ items

theorem Stemming.step (h : Stemming items rest a) (hstep : Step s a a') : Stemming items rest a' := by
  refine ⟨h.drawn.step hstep, ?_⟩
  rcases sent_of_step hstep with hsame | ⟨f, more, hincoming, hsent⟩
  · rw [hsame]
    exact h.sent
  · obtain ⟨taken, hitems, -⟩ := h.drawn.taken
    have hf : .file f ∈ items := by
      rw [hitems, hincoming]
      simp
    rw [hsent]
    exact List.forall_mem_append.2 ⟨h.sent, List.forall_mem_singleton.2 hf⟩

end Account

namespace Disk

variable {d : Disk} {p : Project} {f : File}

/-- What arrives was read. -/
theorem read_of_mem_arrivals (h : .file f ∈ d.arrivals p) : d.read p.cwd f.path = .ok f.contents := by
  unfold arrivals at h
  split at h
  · cases List.mem_singleton.1 h
  · split at h
    · cases List.mem_singleton.1 h
    · rcases List.mem_append.1 h with h | h
      · obtain ⟨q, -, harrival⟩ := List.mem_map.1 h
        unfold arrival at harrival
        split at harrival
        · rename_i hread
          rw [← Arrival.file.inj harrival]
          exact hread
        · cases harrival
      · cases List.mem_singleton.1 h

end Disk

namespace Build

variable {b b₀ : Build importer} {rest : List Arrival} {items : List Arrival} {s : Setup}

theorem Fed.stemming (hstart : (initial importer s.project).start s = (b₀, none)) (h : Fed s b₀ items b rest) :
    b.account.Stemming items rest := by
  have hstart : b₀.account.Stemming items items :=
    (Steps.of_start hstart).preserve (fun _ _ ha hstep => ha.step hstep) ⟨drawn_initial s.project items, nofun⟩
  exact h.preserve hstart (fun _ _ _ ha hstep => ha.step hstep) fun _ _ _ ha => ⟨ha.drawn.arrive, ha.sent⟩

theorem Fed.launched (hstart : (initial importer s.project).start s = (b₀, none)) (h : Fed s b₀ items b rest) :
    Launched s b := by
  have hfirst : Launched s b₀ := by
    have hlaunched : Launched s ((initial importer s.project).start s).1 := .start .refl rfl rfl
    rwa [hstart] at hlaunched
  induction h with
  | start => exact hfirst
  | works _ hstep ih => exact ih.next (.step (.inl hstep))
  | arrive _ ih => exact ih.next (.step (.inr (.arrive _ _)))
  | note _ ctx l m ih => exact ih.next (.step (.inr (.note _ ctx l m)))

/-- **What is sent was read**, be it a source or a dependency. -/
theorem Fed.read_of_sent {d : Disk} {plan : BuildPlan} {gated : Bool}
    (hstart : (initial importer plan.project).start { d.setup plan with gated } = (b₀, none))
    (h : Fed { d.setup plan with gated } b₀ (d.arrivals plan.project) b rest) :
    ∀ f ∈ b.sent, d.read plan.project.cwd f.path = .ok f.contents := by
  intro f hf
  rcases List.mem_append.1 hf with hf | hf
  · exact Disk.read_of_mem_arrivals ((h.stemming hstart).sent f hf)
  · exact (h.launched hstart).carries.2.texts f hf

/-- The arrivals from a disk are fed to a build one by one. -/
theorem Fed.foldl {paths : List Path} {arrival : Path → Arrival}
    (h : Fed s b₀ items b (paths.map arrival ++ rest)) :
    Fed s b₀ items (paths.foldl (fun b q => b.arrive (arrival q)) b) rest := by
  induction paths generalizing b with
  | nil => exact h
  | cons q paths ih => exact ih h.arrive

theorem Fed.supply (b₀ : Build importer) {d : Disk} {plan : BuildPlan} {patterns : List Text}
    (hpatterns : plan.project.sourcePatterns = .ok patterns) :
    Fed (d.setup plan) b₀ (d.arrivals plan.project) (d.supply (d.setup plan) patterns b₀) [] := by
  have hproject : (d.setup plan).project = plan.project := rfl
  unfold Disk.arrivals Disk.supply
  rw [hpatterns, hproject]
  dsimp only
  split
  · exact Fed.start.arrive
  · exact (Fed.start.note _ _ _).foldl.arrive

end Build

/-! ### What is written -/

namespace Disk

variable {d d' d'' : Disk} {dir cwd q : Path} {c : Bytes} {names at_ ps : List Text}

theorem get?_of_walk {place ps parts : List Text} (hps : Path.dotDot ∉ ps) (h : d.walk place ps = .file parts c) :
    d.files.get? (place ++ ps) = some c := by
  induction ps generalizing place with
  | nil => cases h
  | cons n ps ih =>
    rw [List.mem_cons, not_or] at hps
    rw [walk, if_neg (Ne.symm hps.1)] at h
    dsimp only at h
    split at h
    · rename_i hfile
      cases h
      exact hfile
    · cases h
    · split at h
      · have hrest := ih hps.2 h
        rwa [List.append_assoc] at hrest
      · cases h

/-- What is read at a plain path is a file of the disk. -/
theorem get?_of_read {cwd : Path} (hq : q.Plain) (h : d.read cwd q = .ok c) : d.files.get? q.parts = some c := by
  unfold read at h
  rw [Path.join, if_pos hq.absolute] at h
  split at h
  · rename_i hfind
    cases h
    unfold find at hfind
    split at hfind
    · cases hfind
    · exact get?_of_walk hq.settled hfind
  · cases h
  · cases h

/-! ### One file -/

/-- The directories that are wanted where parts lead on from a directory. -/
def ways (at_ : List Text) : List Text → List (List Text)
  | [] => []
  | n :: ns => if n = Path.dotDot then ways at_.dropLast ns else (at_ ++ [n]) :: ways (at_ ++ [n]) ns

/-- Where parts lead from a directory. -/
def goal (at_ : List Text) : List Text → List Text
  | [] => at_
  | n :: ns => if n = Path.dotDot then goal at_.dropLast ns else goal (at_ ++ [n]) ns

/-- The directories that are wanted on a way can be there. -/
structure Clear (d : Disk) (at_ ps : List Text) : Prop where
  named : ∀ n ∈ ps, Path.nul ∉ n
  free : ∀ w ∈ ways at_ ps, d.files.has w = false

theorem goal_eq (hat : Path.dotDot ∉ at_) : goal at_ ps = Path.resolveParts true (at_ ++ ps) := by
  induction ps generalizing at_ with
  | nil => rw [List.append_nil, Path.resolveParts_eq_self true hat, goal]
  | cons n ps ih =>
    unfold goal
    split
    · rename_i hn
      rw [ih fun hmem => hat (List.dropLast_subset _ hmem), hn]
      rcases List.eq_nil_or_concat at_ with rfl | ⟨above, x, rfl⟩
      · rfl
      · have hx : x ≠ Path.dotDot := fun heq => hat (by simp [heq])
        rw [List.concat_eq_append, List.dropLast_concat, Path.resolveParts, Path.resolveParts]
        simp [Path.push, Path.climb, hx]
    · rename_i hn
      rw [ih]
      · rw [List.append_assoc, List.singleton_append]
      · rw [List.mem_append, List.mem_singleton]
        exact fun hmem => hmem.elim hat fun heq => hn heq.symm

theorem files_makeDirs (d : Disk) (a : Anchor) (gone at_ ps : List Text) :
    (d.makeDirs a gone at_ ps).1.files = d.files := by
  induction ps generalizing d gone at_ with
  | nil => rfl
  | cons n ps ih =>
    unfold makeDirs
    split
    · rfl
    · split
      · exact ih d _ _
      · dsimp only
        split
        · split <;> rfl
        · exact ih _ _ _

theorem clear_of_makeDirs {a : Anchor} {gone above : List Text}
    (h : (d.makeDirs a gone at_ ps).2 = .ok above) : d.Clear at_ ps := by
  induction ps generalizing d gone at_ with
  | nil => exact ⟨List.forall_mem_nil _, List.forall_mem_nil _⟩
  | cons n ps ih =>
    unfold makeDirs at h
    split at h
    · cases h
    · rename_i hnul
      have hname : Path.nul ∉ n := fun hmem => hnul (List.contains_iff_mem.2 hmem)
      split at h
      · rename_i hdots
        have hrest := ih h
        refine ⟨List.forall_mem_cons.2 ⟨hname, hrest.named⟩, ?_⟩
        rw [ways, if_pos hdots]
        exact hrest.free
      · rename_i hdots
        dsimp only at h
        split at h
        · split at h <;> cases h
        · rename_i hfile
          have hrest := ih h
          refine ⟨List.forall_mem_cons.2 ⟨hname, hrest.named⟩, ?_⟩
          rw [ways, if_neg hdots]
          exact List.forall_mem_cons.2 ⟨Bool.eq_false_iff.2 hfile, hrest.free⟩

theorem isDir_of_prefix {above place : List Text} (hle : above <+: place) (h : d.isDir place) : d.isDir above := by
  unfold isDir at h ⊢
  simp only [Bool.or_eq_true, List.any_eq_true, List.isPrefixOf_iff_prefix, Bool.and_eq_true, bne_iff_ne,
    List.isEmpty_iff] at h ⊢
  rcases h with (rfl | ⟨x, hx, hplace⟩) | ⟨x, hx, hplace, hne⟩
  · exact .inl (.inl (List.prefix_nil.1 hle))
  · exact .inl (.inr ⟨x, hx, hle.trans hplace⟩)
  · refine .inr ⟨x, hx, hle.trans hplace, ?_⟩
    rintro rfl
    exact hne (hplace.eq_of_length_le hle.length_le)

/-- Along a clear way directories are made, and no others. -/
theorem makeDirs_of_clear (h : d.Clear at_ ps) (a : Anchor) (gone : List Text) :
    (d.makeDirs a gone at_ ps).2 = .ok (goal at_ ps) ∧
      ∀ place, (d.makeDirs a gone at_ ps).1.isDir place ↔ d.isDir place ∨ ∃ w ∈ ways at_ ps, place <+: w := by
  induction ps generalizing d gone at_ with
  | nil => exact ⟨rfl, fun place => by simp [makeDirs, ways]⟩
  | cons n ps ih =>
    obtain ⟨hnames, hfree⟩ := h
    rw [List.forall_mem_cons] at hnames
    unfold makeDirs goal
    rw [if_neg (mt List.contains_iff_mem.1 hnames.1)]
    unfold ways at hfree ⊢
    by_cases hdots : n = Path.dotDot
    · rw [if_pos hdots] at hfree
      simp only [if_pos hdots]
      exact ih ⟨hnames.2, hfree⟩ _
    · rw [if_neg hdots, List.forall_mem_cons] at hfree
      simp only [if_neg hdots, hfree.1, Bool.false_eq_true, if_false]
      have hclear : Clear { d with dirs := if d.isDir (at_ ++ [n]) then d.dirs else d.dirs ++ [at_ ++ [n]] }
          (at_ ++ [n]) ps := ⟨hnames.2, hfree.2⟩
      refine (ih hclear _).imp_right fun hdirs place => ?_
      rw [hdirs place, List.exists_mem_cons_iff, ← or_assoc]
      refine or_congr_left ?_
      split
      · rename_i hthere
        exact (or_iff_left_of_imp fun hprefix => isDir_of_prefix hprefix hthere).symm
      · simp only [isDir, List.any_append, List.any_cons, List.any_nil, Bool.or_false, Bool.or_eq_true,
          List.isPrefixOf_iff_prefix]
        constructor
        · rintro ((h | h | h) | h)
          exacts [.inl (.inl (.inl h)), .inl (.inl (.inr h)), .inr h, .inl (.inr h)]
        · rintro (((h | h) | h) | h)
          exacts [.inl (.inl h), .inl (.inr (.inl h)), .inr h, .inl (.inr (.inr h))]

/-- Where the way to a file that is written starts. -/
def start (cwd q : Path) : List Text := if q.isAbsolute then [] else cwd.normal.parts

/-- The disk takes a file at a path: there can be directories on the way to it, it has a name of its own, and no
directory has its place, nor will have it once those on the way are made. -/
structure Takes (d : Disk) (cwd q : Path) : Prop where
  clear : d.Clear (start cwd q) q.parent.parts
  named : Path.nul ∉ q.name
  proper : q.parts ≠ [] ∧ q.name ≠ Path.dotDot
  free : ¬ d.isDir (cwd.join q).normal.parts
  beside : ∀ w ∈ ways (start cwd q) q.parent.parts, ¬ (cwd.join q).normal.parts <+: w

/-- The way to a file leads to its place. -/
theorem goal_start (hq : (cwd.join q).isAbsolute) (hne : q.parts ≠ []) (hname : q.name ≠ Path.dotDot) :
    goal (start cwd q) q.parent.parts ++ [q.name] = (cwd.join q).normal.parts := by
  have hparts : q.parts = q.parent.parts ++ [q.name] := by
    rw [Path.parent, Path.name, List.getLast?_eq_some_getLast hne]
    exact (List.dropLast_append_getLast hne).symm
  rw [Path.normal, hq]
  dsimp only
  unfold start
  by_cases habsolute : q.isAbsolute
  · rw [if_pos habsolute, goal_eq List.not_mem_nil, Path.join, if_pos habsolute, hparts,
      Path.resolveParts_concat true _ hname, List.nil_append]
  · have hcwd : cwd.isAbsolute := by
      rw [Path.join, if_neg habsolute] at hq
      exact hq
    have hdots : Path.dotDot ∉ cwd.normal.parts := (Path.plain_normal hcwd).settled
    have hnormal : cwd.normal.parts = Path.resolveParts true cwd.parts := by
      rw [Path.normal, hcwd]
    rw [if_neg habsolute, goal_eq hdots, hnormal, Path.resolveParts_resolveParts_append, Path.join,
      if_neg habsolute, hparts, ← List.append_assoc, Path.resolveParts_concat true _ hname]

/-- A file is written at its place if the disk takes it, and else nothing is. -/
theorem write_cases (d : Disk) (hq : (cwd.join q).isAbsolute) (c : Bytes) :
    (¬ d.Takes cwd q ∧ ∃ d' e, d.write cwd q c = (d', some e) ∧ d'.files = d.files) ∨
      (d.Takes cwd q ∧ ∃ d', d.write cwd q c = (d', none) ∧
        d'.files = d.files.put (cwd.join q).normal.parts c) := by
  unfold Disk.write
  dsimp only
  have hstart : (if q.isAbsolute then [] else cwd.normal.parts) = start cwd q := rfl
  have hfiles := d.files_makeDirs q.anchor [] (start cwd q) q.parent.parts
  rw [hstart]
  cases hmake : d.makeDirs q.anchor [] (start cwd q) q.parent.parts with
  | mk d₁ r =>
    rw [hmake] at hfiles
    cases r with
    | error e =>
      refine .inl ⟨fun htakes => ?_, d₁, e, rfl, hfiles⟩
      have hgoal := (makeDirs_of_clear htakes.clear q.anchor []).1
      rw [hmake] at hgoal
      cases hgoal
    | ok above =>
      have hclear : d.Clear (start cwd q) q.parent.parts := clear_of_makeDirs (congrArg Prod.snd hmake)
      obtain ⟨hgoal, hdirs⟩ := makeDirs_of_clear hclear q.anchor []
      rw [hmake] at hgoal hdirs
      obtain rfl := Except.ok.inj hgoal
      dsimp only at hdirs ⊢
      split
      · rename_i hnul
        exact .inl ⟨fun htakes => htakes.named (List.contains_iff_mem.1 hnul), d₁, _, rfl, hfiles⟩
      · rename_i hnul
        split
        · rename_i hplace
          refine .inl ⟨fun htakes => ?_, d₁, _, rfl, hfiles⟩
          rw [goal_start hq htakes.proper.1 htakes.proper.2] at hplace
          simp only [htakes.proper, decide_false, Bool.false_or] at hplace
          rcases (hdirs _).1 hplace with hdir | ⟨w, hw, hprefix⟩
          · exact htakes.free hdir
          · exact htakes.beside w hw hprefix
        · rename_i hplace
          simp only [Bool.or_eq_true, decide_eq_true_eq, not_or] at hplace
          obtain ⟨⟨hne, hname⟩, hplace⟩ := hplace
          rw [goal_start hq hne hname] at hplace ⊢
          refine .inr ⟨⟨hclear, mt List.contains_iff_mem.2 hnul, ⟨hne, hname⟩, ?_, ?_⟩, _, rfl, ?_⟩
          · exact fun hdir => hplace ((hdirs _).2 (.inl hdir))
          · exact fun w hw hprefix => hplace ((hdirs _).2 (.inr ⟨w, hw, hprefix⟩))
          · exact congrArg (Table.put · (cwd.join q).normal.parts c) hfiles

/-- What is new on a disk lies below a directory, and nothing has gone. -/
structure Grows (dir : Path) (d d' : Disk) : Prop where
  come : ∀ x ∈ d'.files, x ∈ d.files ∨
    ∃ names, names ≠ [] ∧ (∀ n ∈ names, Path.Name n) ∧ x.1 = (dir.extend names).normal.parts
  stay : ∀ k, d.files.has k → d'.files.has k

theorem Grows.refl (dir : Path) (d : Disk) : d.Grows dir d := ⟨fun _ hx => .inl hx, fun _ hk => hk⟩

theorem Grows.trans (h : d.Grows dir d') (h' : d'.Grows dir d'') : d.Grows dir d'' :=
  ⟨fun x hx => (h'.come x hx).elim (h.come x) .inr, fun k hk => h'.stay k (h.stay k hk)⟩

theorem Grows.write (d : Disk) (hdir : dir.isAbsolute) (hne : names ≠ []) (hnames : ∀ n ∈ names, Path.Name n)
    (cwd : Path) (c : Bytes) : d.Grows dir (d.write cwd (dir.extend names) c).1 := by
  have habsolute : (dir.extend names).isAbsolute := hdir
  have hjoin : cwd.join (dir.extend names) = dir.extend names := if_pos habsolute
  rcases d.write_cases (hjoin ▸ habsolute) c with ⟨-, d', e, hwrite, hfiles⟩ | ⟨-, d', hwrite, hfiles⟩
  · rw [hwrite]
    refine ⟨fun x hx => .inl ?_, fun k hk => ?_⟩
    · exact hfiles ▸ hx
    · exact hfiles.symm ▸ hk
  · rw [hjoin] at hfiles
    rw [hwrite]
    refine ⟨fun x hx => ?_, fun k hk => ?_⟩
    · rw [show d'.files = _ from hfiles] at hx
      rcases Table.mem_of_mem_put hx with hx | rfl
      · exact .inl hx
      · exact .inr ⟨names, hne, hnames, rfl⟩
    · rw [hfiles]
      exact Table.has_put_of_has c hk

end Disk

/-- A path that lies strictly below the root, if it has a URL at all. -/
def Project.Strict (p : Project) (q : Path) : Prop :=
  ∀ u, p.url q = .ok u → ∃ names, names ≠ [] ∧ (∀ n ∈ names, Path.Name n) ∧ u = Text.join "/" names

theorem Path.inOutput_join {dir : Path} {names : List Text} (hne : names ≠ []) (hnames : ∀ n ∈ names, Path.Name n) :
    dir.inOutput (Text.join "/" names) = dir.extend names := by
  have hsplit : Text.split (.char '/') (Text.join [.char '/'] names) = names :=
    Text.split_join hne fun n hn => (hnames n hn).slash
  have hfilter : names.filter (· ≠ []) = names :=
    List.filter_eq_self.2 fun n hn => by simpa using (hnames n hn).ne_nil
  exact congrArg dir.extend ((congrArg _ hsplit).trans hfilter)

/-- What comes out of a stream comes in the order in which it was sent, and nothing stays cut. -/
theorem Outlet.paths_drained {o : Outlet Failure} (selector : Option Selector) :
    (o.drained selector Ledger.empty).files.map (·.path) <+: o.sent.map (·.path) ∧
      (o.drained selector Ledger.empty).ledger = Ledger.empty := by
  cases selector with
  | none => exact ⟨List.prefix_rfl, rfl⟩
  | some sel => exact Stage.paths_passAll sel o.sent

namespace Disk

variable {m : Glob.Matcher} {d : Disk} {p : Project} {plan : BuildPlan} {dir : Path} {fs : List File} {l : Layout}
  {cwd : Path} {homes : Homes}

theorem grows_writeAll (hdir : dir.isAbsolute) (hfs : ∀ q ∈ fs.map (·.path), p.Strict q) :
    d.Grows dir (d.writeAll p (some dir) fs).1 := by
  induction fs generalizing d with
  | nil => exact .refl dir d
  | cons f fs ih =>
    rw [List.map_cons, List.forall_mem_cons] at hfs
    unfold writeAll
    split
    · exact .refl dir d
    · rename_i u hurl
      obtain ⟨names, hne, hnames, rfl⟩ := hfs.1 u hurl
      have hgrows := Grows.write d hdir hne hnames p.cwd f.contents
      simp only [Option.elim, Path.inOutput_join hne hnames]
      split
      · rename_i hwrite
        rw [hwrite] at hgrows
        exact hgrows
      · rename_i hwrite
        rw [hwrite] at hgrows
        exact hgrows.trans (ih hfs.2)

theorem grows_conclude {C : Crawler} {b : Build C} (hdir : dir.isAbsolute) (hout : plan.out = some dir)
    (hsent : ∀ f ∈ b.sent, f.path.Plain ∧ plan.project.Strict f.path) : d.Grows dir (d.conclude plan b).disk := by
  have hstream : ∀ {o : Outlet Failure}, (∀ f ∈ o.sent, f.path.Plain ∧ plan.project.Strict f.path) →
      (o.drained plan.selector Ledger.empty).ledger = Ledger.empty ∧
        ∀ d : Disk, d.Grows dir (d.writeAll plan.project (some dir) (o.drained plan.selector Ledger.empty).files).1 := by
    intro o ho
    obtain ⟨hpaths, hledger⟩ := Outlet.paths_drained (o := o) plan.selector
    refine ⟨hledger, fun d => grows_writeAll hdir fun q hq => ?_⟩
    obtain ⟨f, hf, rfl⟩ := List.mem_map.1 (hpaths.subset hq)
    exact (ho f hf).2
  obtain ⟨hledger, hsources⟩ := hstream (o := b.sources) fun f hf => hsent f (List.mem_append_left _ hf)
  obtain ⟨-, hdependencies⟩ := hstream (o := b.dependencies) fun f hf => hsent f (List.mem_append_right _ hf)
  unfold conclude
  rw [hout]
  dsimp only
  rw [hledger]
  exact (hsources d).trans (hdependencies _)

/-- A file that is read below a root that is none itself has a name there. -/
theorem strict_of_read {q : Path} {c : Bytes} (hp : p.Rooted) (hroot : d.files.has p.root.normal.parts = false)
    (hq : p.Regular q) (hread : d.read p.cwd q = .ok c) : p.Strict q := by
  intro u hu
  obtain ⟨names, rfl, hnames⟩ := hq.inside u hu
  refine ⟨names, ?_, hnames, Except.ok.inj (hu.symm.trans (Project.url_extend hp hnames))⟩
  rintro rfl
  have hfile : d.files.get? (p.root.normal.parts ++ []) = some c := get?_of_read hq.plain hread
  rw [List.append_nil] at hfile
  rw [Table.has, hfile] at hroot
  cases hroot

/-- **All that a build changes on disk** lies below its output directory, as long as the root of the project is no
file. -/
theorem grows_build (hd : d.WellFormed) (hroot : d.files.has plan.project.root.normal.parts = false)
    (hcwd : cwd.isAbsolute) (hproject : l.anchor m cwd homes = .ok plan.project) (hdir : dir.isAbsolute)
    (hout : plan.out = some dir) : d.Grows dir (d.build plan).disk := by
  have hp : plan.project.Rooted := Project.rooted_of_anchor hcwd hproject
  have horigin : ∀ q, Build.Origin (d.setup plan) q → plan.project.Regular q :=
    fun q (hq : Build.Origin { d.setup plan with gated := false } q) => regular_of_origin hp hd hq
  have hitems : ∀ f, .file f ∈ d.arrivals plan.project → plan.project.Regular f.path :=
    fun f hf => (inside_of_mem_arrivals hp hd hf).regular hp
  unfold build
  dsimp only
  split
  · exact .refl dir d
  · exact .refl dir d
  · rename_i b₀ patterns hstart hpatterns
    have hrun := (Build.Fed.supply (d := d) b₀ hpatterns).settle plan.limit
    obtain ⟨horderly, -⟩ := hrun.orderly hp horigin hstart hitems
    refine grows_conclude hdir hout fun f hf => ?_
    have hregular := horderly.placed.sent f hf
    exact ⟨hregular.plain, strict_of_read hp hroot hregular (Build.Fed.read_of_sent hstart hrun f hf)⟩

end Disk
end HtmlDeps
