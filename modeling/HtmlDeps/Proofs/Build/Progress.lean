import HtmlDeps.Proofs.Build.Closure
import HtmlDeps.Proofs.Build.Tally
import HtmlDeps.Proofs.Build.Waking

/-!
# A build does not get stuck

When all sources have arrived and nothing can be done any more, a build has ended, or everybody who
waits is waiting for a path whose URL leads elsewhere (`Fed.ended_or_twisted`).  Such a path is that of
a URL with a percent sign that was itself encoded: what is fetched for it is another file, and nobody
tells those that wait.

The parts of a running build are in good hands in all states of a fed run (`Tended`); a state in which
nothing can be done leaves no other reason to wait.

The loads are those of `StreamLoader.load`, the pumps `_pump_sources` and `_pump_dependencies`.
-/

namespace HtmlDeps

/-- The supply of sources has an end. -/
theorem Disk.exists_end (d : Disk) (p : Project) :
    ∃ item ∈ d.arrivals p, ∀ f, item ≠ .file f := by
  unfold arrivals
  split
  · exact ⟨_, List.mem_cons_self, nofun⟩
  · split
    · exact ⟨_, List.mem_cons_self, nofun⟩
    · exact ⟨.finish, List.mem_append_right _ List.mem_cons_self, nofun⟩

namespace Build

open Imports

section

variable {s : Setup} {b b' b₀ : Build importer} {items rest : List Arrival} {a : Nat}

/-- Nothing can be done any more. -/
def Quiescent (s : Setup) (b : Build importer) : Prop := ∀ b', ¬ Works s b b'

theorem quiescent_iff : Quiescent s b ↔ b.ready = [] ∧
    (∀ r ∈ b.reads, r.delivery ≠ .pending) ∧ (s.timeout.isSome → b.waiting = []) := by
  constructor
  · intro h
    refine ⟨?_, fun r hr hpending => ?_, fun htimeout => ?_⟩
    · by_contra hready
      exact h _ (works_step hready)
    · obtain ⟨before, after, hreads⟩ := List.append_of_mem hr
      exact h _ (.deliver hpending hreads)
    · cases hwaiting : b.waiting with
      | nil => rfl
      | cons w ws =>
        have hwaiting : b.waiting = [] ++ w :: ws := hwaiting
        exact absurd (.expire htimeout hwaiting) (h _)
  · rintro ⟨hready, hreads, hwaiting⟩ b' hworks
    cases hworks with  -- Each kind of work needs something to work on, and that is ruled out.
    | job h =>
      rw [hready] at h
      exact absurd h.symm (by simp)
    | delay h =>
      rw [hready] at h
      cases h
    | @deliver before after r hpending h =>
      refine hreads r ?_ hpending
      rw [h]
      exact List.mem_append_right _ List.mem_cons_self
    | expire htimeout h =>
      rw [hwaiting htimeout] at h
      exact absurd h.symm (by simp)

/-! ### Fed runs -/

/-- All parts of a running build are in good hands. -/
structure Tended (s : Setup) (b : Build importer) (rest : List Arrival) : Prop where
  sourcing : Sourcing b rest
  fetching : Fetching b
  tally : Tally b
  waked : Waked s b fun _ => Doomed b

/-- The jobs may be put in another order. -/
theorem Tended.rearrange (h : Tended s b rest) {js : List (Nat × Job importer)}
    (hwoven : Woven s b) (hjobs : (js.map (·.2)).Perm (b.ready.map (·.2))) :
    Tended s { b with ready := js } rest := by
  have hkept : ∀ (n : Nat) (j : Job importer), (n, j) ∈ b.ready → ∃ n, (n, j) ∈ js :=
    fun n j hn => exists_job_of_perm hjobs hn
  have hdoomed := (weaves_rearrange (s := s) hjobs).doomed hwoven
  refine ⟨h.sourcing.keep rfl rfl rfl fun n hn => hkept n _ hn,
    h.fetching.keep rfl rfl rfl hkept, h.tally.same rfl rfl rfl rfl, ?_⟩
  refine (h.waked.mono fun _ => hdoomed).keep rfl (fun _ hw => hw) rfl (fun _ hu => hu) rfl
    fun p hp => hp.imp_right fun hp => ?_
  exact hp.keep rfl fun n hn => hkept n _ hn

theorem Tended.job (hp : s.project.Rooted) (h : Tended s b rest) (horderly : Orderly s b)
    {before after : List (Nat × Job importer)} {n : Nat} {j : Job importer}
    (hready : b.ready = before ++ (n, j) :: after) (hold : b.status = .running)
    (hrunning : ({ b with ready := before ++ after }.run s j).status = .running) :
    Tended s ({ b with ready := before ++ after }.run s j) rest := by
  have hjobs : (((0, j) :: (before ++ after) : List (Nat × Job importer)).map (·.2)).Perm
      (b.ready.map (·.2)) := hready ▸ perm_in_hand n
  -- the job that runs is first in the list, so that its work is in hand meanwhile
  have hhand : Tended s (Build.goOn { b with ready := before ++ after } j) rest :=
    h.rearrange (horderly.woven hold) hjobs
  have hwoven : Woven s (Build.goOn { b with ready := before ++ after } j) :=
    (horderly.woven hold).rearrange hjobs
  have hqueue : none ∉ b.queue := horderly.sound.queue hold
  have hclose : j ≠ .closeSources :=
    horderly.sound.ready hold (n, j) (hready ▸ List.mem_append_right _ List.mem_cons_self)
  have hplaced : Placed s (Build.goOn { b with ready := before ++ after } j) := by
    have hold := horderly.placed
    refine ⟨hold.sent, hold.incoming, hold.queue, hold.reads, fun k p hk => ?_⟩
    obtain ⟨k', hk'⟩ := exists_job_of_perm hjobs.symm hk
    exact hold.ready k' p hk'
  have htally : Tally { b with ready := before ++ after } := h.tally.same rfl rfl rfl rfl
  exact ⟨hhand.sourcing.run hwoven hqueue hclose hrunning,
    hhand.fetching.run hwoven hqueue hclose hrunning, htally.run hwoven hqueue hrunning,
    hhand.waked.run hp hwoven hplaced hqueue hold hrunning⟩

/-- A read that ends goes on as a job. -/
theorem Arriving.delivered {before after : List Read} {r : Read}
    (hreads : b.reads = before ++ r :: after) {p : Path} (h : b.Arriving p) :
    (Build.schedule { b with reads := before ++ { r with delivery := .delivered } :: after } 0
      (.deliver r.path)).Arriving p := by
  rcases h with ⟨x, hx, hpath, hpending⟩ | ⟨n, hn⟩
  · rw [hreads] at hx
    rcases List.mem_append.1 hx with hx | hx
    · exact .inl ⟨x, List.mem_append_left _ hx, hpath, hpending⟩
    · rcases List.mem_cons.1 hx with rfl | hx
      · exact .inr ⟨0, List.mem_append_right _ (hpath ▸ List.mem_cons_self)⟩
      · exact .inl ⟨x, List.mem_append_right _ (List.mem_cons_of_mem _ hx), hpath, hpending⟩
  · exact .inr ⟨n, List.mem_append_left _ hn⟩

theorem Tended.works (hp : s.project.Rooted) (h : Tended s b rest) (horderly : Orderly s b)
    (hold : b.status = .running) (hworks : Works s b b') (hrunning : b'.status = .running) :
    Tended s b' rest := by
  have hwoven := horderly.woven hold
  -- Work does not undo a fault, so what is excused by one stays excused.
  have hdoomed := (weaves_works hp (horderly.sound.queue hold) hworks hrunning).doomed hwoven
  have hwaked := h.waked.mono fun _ => hdoomed
  cases hworks with
  | job hready => exact h.job hp horderly hready hold hrunning
  | delay hready =>
    refine h.rearrange hwoven ?_
    rw [hready, List.map_append]
    exact List.perm_append_singleton _ _
  | deliver hpending hreads =>
    refine ⟨h.sourcing.keep rfl rfl rfl fun n hn => ⟨n, List.mem_append_left _ hn⟩, ?_,
      h.tally.same rfl rfl rfl rfl, ?_⟩
    · refine h.fetching.imp id (Or.imp ?_ ?_)
      · exact And.imp_right fun ⟨n, hn⟩ => ⟨n, List.mem_append_left _ hn⟩
      · rintro ⟨hpump, p, hp⟩
        exact ⟨hpump, p, hp.delivered hreads⟩
    · exact hwaked.keep rfl (fun _ hw => hw) rfl (fun _ hu => hu) rfl
        fun p hp => hp.imp_right fun hp => hp.delivered hreads
  | @expire before after w htimeout hwaiting =>
    refine ⟨h.sourcing.keep rfl rfl rfl fun n hn => ⟨n, List.mem_append_left _ hn⟩,
      h.fetching.keep rfl rfl rfl fun n _ hn => ⟨n, List.mem_append_left _ hn⟩,
      h.tally.same rfl rfl rfl rfl, ?_⟩
    refine hwaked.keep rfl (fun w' hw' => ?_) rfl (fun _ hu => hu) rfl fun p hp =>
      hp.keep rfl rfl fun y hy => List.mem_append_left _ hy
    rw [hwaiting]
    exact (List.mem_append.1 hw').elim (List.mem_append_left _)
      fun h => List.mem_append_right _ (List.mem_cons_of_mem w h)

theorem Sourcing.arrive {item : Arrival} (h : Sourcing b (item :: rest)) :
    Sourcing (b.arrive item) rest := by
  have hsupply : b.exhausted = true ∨
      ∃ x ∈ (b.incoming ++ [item]) ++ rest, ∀ f, x ≠ .file f := by
    rw [List.append_assoc]
    exact h.supply
  unfold Build.arrive
  dsimp only
  split
  · exact ⟨.inr (.inl ⟨rfl, 0, List.mem_append_right _ List.mem_cons_self⟩), hsupply⟩
  · rename_i hidle
    refine ⟨?_, hsupply⟩
    rcases h.pump with ⟨hpump, -⟩ | hworking | hclosing
    · exact absurd hpump hidle
    · exact .inr (.inl hworking)
    · exact .inr (.inr hclosing)

theorem Tended.arrive {item : Arrival} (h : Tended s b (item :: rest)) (hwoven : Woven s b) :
    Tended s (b.arrive item) rest := by
  have hwaked := h.waked.mono fun _ => (weaves_arrive (s := s) item).doomed hwoven
  have hsourcing := h.sourcing.arrive
  unfold Build.arrive at hwaked hsourcing ⊢
  dsimp only at hwaked hsourcing ⊢
  split at hsourcing
  · rename_i hidle
    rw [if_pos hidle] at hwaked ⊢
    refine ⟨hsourcing, h.fetching.keep rfl rfl rfl fun n _ hn => ⟨n, List.mem_append_left _ hn⟩,
      h.tally.same rfl rfl rfl rfl, ?_⟩
    exact hwaked.keep rfl (fun _ hw => hw) rfl (fun _ hu => hu) rfl fun p hp =>
      hp.keep rfl rfl fun y hy => List.mem_append_left _ hy
  · rename_i hidle
    rw [if_neg hidle] at hwaked ⊢
    exact ⟨hsourcing, h.fetching.keep rfl rfl rfl fun n j hn => ⟨n, hn⟩,
      h.tally.same rfl rfl rfl rfl,
      hwaked.keep rfl (fun _ hw => hw) rfl (fun _ hu => hu) rfl fun _ hp => hp⟩

theorem Tended.note (h : Tended s b rest) (ctx : Log.Fields) (l : Log.Level) (m : Text) :
    Tended s (b.note ctx l m) rest :=
  ⟨h.sourcing.keep rfl rfl rfl fun n hn => ⟨n, hn⟩, h.fetching.keep rfl rfl rfl fun n _ hn => ⟨n, hn⟩,
    h.tally.same rfl rfl rfl rfl, h.waked.note ctx l m⟩

theorem Waked.enqueueExtras {excused : Path → Prop} {ps : List Path} (h : Waked s b excused)
    (hps : ∀ p ∈ ps, s.project.Regular p) {b₁ : Build importer}
    (henqueue : b.enqueueExtras s ps = (b₁, none)) : Waked s b₁ excused := by
  induction ps generalizing b with
  | nil =>
    obtain ⟨rfl, -⟩ := Prod.mk.inj henqueue
    exact h
  | cons p ps ih =>
    have hrest : ∀ q ∈ ps, s.project.Regular q := fun q hq => hps q (List.mem_cons_of_mem p hq)
    unfold Build.enqueueExtras at henqueue
    split at henqueue
    · cases henqueue
    · exact ih (h.note _ _ _) hrest henqueue
    · cases henqueue
    · rename_i u _ hurl
      exact ih (h.enqueueUrl s.context (hps p List.mem_cons_self) (.inl hurl)) hrest henqueue

theorem tended_start (horigin : ∀ p, Origin s p → s.project.Regular p)
    (hitems : ∃ item ∈ items, ∀ f, item ≠ .file f)
    (hstart : (initial importer s.project).start s = (b₀, none)) : Tended s b₀ items := by
  have htally := tally_start hstart
  obtain ⟨ps, b₁, hextras, henqueue, rfl⟩ := start_eq hstart
  have hcalm := calm_enqueueExtras { initial importer s.project with started := true }
    fun q hq => (.inr ⟨ps, hextras, hq⟩ : Origin s q)
  rw [henqueue] at hcalm
  have hinitial : Waked s { initial importer s.project with started := true } fun _ => Doomed
      ((b₁.schedule 0 .pumpSources).schedule 0 .pumpDependencies) :=
    ⟨(ticketed_initial s).keep rfl fun _ hw => hw, nofun, nofun⟩
  have hwaked := hinitial.enqueueExtras (fun q hq => horigin q (.inr ⟨ps, hextras, hq⟩)) henqueue
  have hsources : (0, .pumpSources) ∈ b₁.ready ++ [(0, .pumpSources)] :=
    List.mem_append_right _ List.mem_cons_self
  have hidle : b₁.dependencyPump = .working := by
    rcases hcalm.pump with ⟨hpump, -⟩ | ⟨hidle, -⟩
    · exact hpump
    · cases hidle
  refine ⟨⟨.inr (.inl ⟨hcalm.sourcePump, 0, List.mem_append_left _ hsources⟩), .inr ?_⟩,
    .inr (.inl ⟨hidle, 0, List.mem_append_right _ List.mem_cons_self⟩), htally,
    (hwaked.schedule 0 _).schedule 0 _⟩
  obtain ⟨item, hitem, hend⟩ := hitems
  exact ⟨item, List.mem_append_right _ hitem, hend⟩

theorem Fed.tended (hp : s.project.Rooted) (horigin : ∀ p, Origin s p → s.project.Regular p)
    (hstart : (initial importer s.project).start s = (b₀, none))
    (hitems : ∀ f, .file f ∈ items → s.project.Regular f.path)
    (hend : ∃ item ∈ items, ∀ f, item ≠ .file f) (h : Fed s b₀ items b rest) :
    b.status = .running → Tended s b rest := by
  induction h with
  | start => exact fun _ => tended_start horigin hend hstart
  | works hfed hstep ih =>
    intro hrunning
    obtain ⟨horderly, -⟩ := hfed.orderly hp horigin hstart hitems
    have hold := (horderly.sound.works hstep).verdict.running hrunning
    exact (ih hold).works hp horderly hold hstep hrunning
  | @arrive b item rest hfed ih =>
    intro hrunning
    obtain ⟨horderly, -⟩ := hfed.orderly hp horigin hstart hitems
    have hquiet := horderly.sound.touches (s := s) (.arrive b item)
    have hold : b.status = .running := (congrArg Verdict.status hquiet.verdict).symm.trans hrunning
    exact (ih hold).arrive (horderly.woven hold)
  | note _ ctx l m ih => exact fun hrunning => (ih hrunning).note ctx l m

/-! ### States in which nothing can be done -/

theorem Quiescent.flight (h : Quiescent s b) (a : Nat) :
    b.flight a = b.waiting.filterMap fun w => w.caller.errand? a := by
  rw [Build.flight, (quiescent_iff.1 h).1]
  rfl

/-- Who waits brings no fault. -/
theorem Quiescent.not_faulty (h : Quiescent s b) (hwoven : Woven s b) :
    ∀ t ∈ b.flight a, ¬ t.Faulty := by
  intro t ht
  rw [h.flight] at ht
  obtain ⟨⟨n, p, c⟩, hw, ht⟩ := List.mem_filterMap.1 ht
  have hsteady := hwoven.waiting _ hw
  cases c with
  | thread k next =>
    simp only [Caller.errand?] at ht
    split at ht
    · obtain rfl := Option.some.inj ht
      exact mt faulty_emptied_iff.1 hsteady.sound
    · cases ht
  | client k => exact hsteady.elim

/-- A fault that nobody brings any further would have ended its crawl. -/
theorem Quiescent.not_doomed (h : Quiescent s b) (hwoven : Woven s b) : ¬ Doomed b := by
  rintro ⟨a, x, url, m, hx, hcrawl, houtcome, hbroken⟩
  have hsound : ∀ t ∈ b.flight a, ¬ t.Faulty := h.not_faulty hwoven
  have hcrawling := hwoven.crawls a x hx
  rw [hcrawl, houtcome] at hcrawling
  cases hcrawling with
  | active htidy htop =>
    rcases hbroken with ⟨n, d, hd, hfailed⟩ | ⟨t, ht, hfaulty⟩
    · -- faults have come up to the top, but the work there can only go on without one
      obtain ⟨e, he, hefailed⟩ := htidy.top_failed hsound hd hfailed
      have hopen : ∀ d', m.nodes[0]? = some d' → d'.failed ≠ false := by
        rintro d' hd' hfalse
        obtain rfl : e = d' := Option.some.inj (he.symm.trans hd')
        rw [hefailed] at hfalse
        cases hfalse
      rcases htop with hplace | ⟨d', hd', hfalse, -⟩
      · obtain ⟨t, ht, hplace⟩ := List.mem_map.1 hplace
        have hfit := htidy.fits t ht
        cases t with
        | scan k | scanned k answer =>
          obtain rfl := Place.document.inj hplace
          obtain ⟨d', hd', -, hfalse⟩ := hfit
          exact hopen d' hd' (by tauto)
        | rise k fault =>
          obtain rfl := Place.document.inj hplace
          cases fault with
          | none =>
            obtain ⟨d', hd', hfalse, -⟩ := hfit
            exact hopen d' hd' hfalse
          | some f => exact hsound _ ht trivial
        | follow | loaded | collect => cases hplace
      · exact hopen d' hd' hfalse
    · exact hsound t ht hfaulty

/-- An analysis without an outcome has somebody waiting. -/
theorem Quiescent.exists_waiter (h : Quiescent s b) (hwoven : Woven s b) {x : Analysis importer}
    (hx : b.analyses[a]? = some x) (houtcome : x.outcome = none) : b.waiting ≠ [] := by
  have hcrawling := hwoven.crawls a x hx
  rw [houtcome] at hcrawling
  obtain ⟨t, ht⟩ : ∃ t, t ∈ b.flight a := by
    generalize hcrawl : x.crawl = crawl at hcrawling
    generalize hts : b.flight a = ts at hcrawling
    cases hcrawling with
    | fresh => exact ⟨_, List.mem_cons_self⟩
    | active htidy htop => exact htidy.exists_thread htop
  rw [h.flight] at ht
  obtain ⟨w, hw, -⟩ := List.mem_filterMap.1 ht
  exact List.ne_nil_of_mem hw

/-- A running build in which nothing can be done has somebody waiting, and everybody is waiting for a
path whose URL leads elsewhere. -/
theorem Tended.twisted (h : Tended s b []) (hwoven : Woven s b) (hquiescent : Quiescent s b) :
    b.waiting ≠ [] ∧ ∀ w ∈ b.waiting, s.project.Twisted w.path := by
  obtain ⟨hready, hreads, -⟩ := quiescent_iff.1 hquiescent
  have hjob : ∀ y, y ∉ b.ready := fun y hy => by
    rw [hready] at hy
    cases hy
  -- Nothing is ready and no read is pending, so neither pump has anything to go on with.
  have harriving : ∀ p, ¬ b.Arriving p := by
    rintro p (⟨r, hr, -, hpending⟩ | ⟨n, hn⟩)
    · exact hreads r hr hpending
    · exact hjob _ hn
  have hexhausted : b.exhausted = true := by
    rcases h.sourcing.pump with ⟨-, hincoming⟩ | ⟨-, n, hn⟩ | ⟨-, hexhausted⟩
    · rcases h.sourcing.supply with hexhausted | ⟨item, hitem, -⟩
      · exact hexhausted
      · rw [hincoming] at hitem
        cases hitem
    · exact absurd hn (hjob _)
    · exact hexhausted
  have hqueue : b.queue = [] := by
    rcases h.fetching with ⟨-, hqueue⟩ | ⟨-, n, hn⟩ | ⟨-, p, hp⟩
    · exact hqueue
    · exact absurd hn (hjob _)
    · exact absurd hp (harriving p)
  constructor
  · obtain ⟨p, hp⟩ := List.exists_mem_of_ne_nil _ h.tally.left
    have hclaimed := h.tally.missing hexhausted p hp
    rw [h.tally.claimed] at hclaimed
    obtain ⟨⟨_, outcome⟩, hroll, rfl⟩ := List.mem_map.1 hclaimed
    have hnone := (h.tally.outcome _ hroll).2 hp
    obtain ⟨x, hx, hxroll⟩ := List.mem_map.1 hroll
    obtain ⟨a, ha⟩ := List.getElem?_of_mem hx
    exact hquiescent.exists_waiter hwoven ha ((Prod.mk.inj hxroll).2.trans hnone)
  · intro w hw
    obtain ⟨hcurrent, hopen⟩ := h.waked.waiting w hw
    rcases h.waked.covered _ _ hcurrent hopen with (hcomes | ⟨-, hmore⟩ | htwisted) | hdoomed
    · rcases hcomes with hmem | hcomes
      · rw [hqueue] at hmem
        cases hmem
      · exact absurd hcomes (harriving _)
    · rw [hexhausted] at hmore
      cases hmore
    · exact htwisted
    · exact absurd hdoomed (hquiescent.not_doomed hwoven)

end

/-! ### Builds on disk -/

/-- **Progress.**  If a fed run on the files of a project leads to a build for which all sources have
arrived and nothing can be done any more, then the build has ended, or somebody waits, and everybody
who waits is waiting for a path whose URL leads elsewhere. -/
theorem Fed.ended_or_twisted {d : Disk} {plan : BuildPlan} {l : Layout} {cwd : Path} {homes : Homes}
    {gated : Bool} {b b₀ : Build importer} (hd : d.WellFormed) (hcwd : cwd.isAbsolute)
    (hproject : l.anchor m cwd homes = .ok plan.project)
    (hstart : (initial importer plan.project).start { d.setup plan with gated } = (b₀, none))
    (hrun : Fed { d.setup plan with gated } b₀ (d.arrivals plan.project) b [])
    (hquiescent : Quiescent { d.setup plan with gated } b) :
    (b.status = .succeeded ∨ b.status = .failed) ∨
      b.waiting ≠ [] ∧ ∀ w ∈ b.waiting, plan.project.Twisted w.path := by
  have hp : plan.project.Rooted := Project.rooted_of_anchor hcwd hproject
  have horigin : ∀ q, Origin { d.setup plan with gated } q → plan.project.Regular q :=
    fun q hq => Disk.regular_of_origin hp hd hq
  have hitems : ∀ f, .file f ∈ d.arrivals plan.project → plan.project.Regular f.path :=
    fun f hf => (Disk.inside_of_mem_arrivals hp hd hf).regular hp
  cases hstatus : b.status with
  | succeeded => exact .inl (.inl rfl)
  | failed => exact .inl (.inr rfl)
  | running =>
    have htended := hrun.tended hp horigin hstart hitems (Disk.exists_end d _) hstatus
    obtain ⟨horderly, -⟩ := hrun.orderly hp horigin hstart hitems
    exact .inr (htended.twisted (horderly.woven hstatus) hquiescent)

/-- The build of a page and its script comes to its end. -/
theorem ended_page : Quiescent (pageDisk.setup pagePlan) pageEnd ∧
    (pageEnd.status = .succeeded ∨ pageEnd.status = .failed) := by
  have hstate : pageEnd.ready.isEmpty ∧ pageEnd.waiting.isEmpty ∧
      pageEnd.reads.all (·.delivery ≠ .pending) := by decide +kernel
  obtain ⟨hready, hwaiting, hreads⟩ := hstate
  have hwaiting : pageEnd.waiting = [] := List.isEmpty_iff.1 hwaiting
  have hquiescent : Quiescent (pageDisk.setup pagePlan) pageEnd :=
    quiescent_iff.2 ⟨List.isEmpty_iff.1 hready,
      fun r hr => by simpa using List.all_eq_true.1 hreads r hr, fun _ => hwaiting⟩
  have hproject : Layout.anchor Glob.accepts "/" ⟨none, [], []⟩
      ⟨"app", "index.html", none, [], [], []⟩ = .ok pagePlan.project := rfl
  have hrun : Fed (pageDisk.setup pagePlan) pageStart (pageDisk.arrivals pagePlan.project) pageEnd
      [] := by
    rw [arrivals_page]
    exact Fed.start.arrive.arrive.settle _
  refine ⟨hquiescent, ?_⟩
  rcases Fed.ended_or_twisted wellFormed_page (by decide) hproject rfl hrun hquiescent with
    hended | ⟨hwaits, -⟩
  · exact hended
  · exact absurd hwaiting hwaits

/-- A document that needs the script `a%41.js`, and another script `aA.js`. -/
def twistedDisk : Disk where
  files := [([("app" : Text), "a%41.js"], []), (["app", "aA.js"], []),
    (["app", "index.html"], Text.encode "<script src='a%2541.js'></script>")]
  dirs := []

def twistedStart : Build importer :=
  ((initial importer pagePlan.project).start (twistedDisk.setup pagePlan)).1

def twistedEnd : Build importer :=
  ((twistedStart.arrive (.file ⟨"/app/index.html",
    Text.encode "<script src='a%2541.js'></script>"⟩)).arrive .finish).settle
      (twistedDisk.setup pagePlan) pagePlan.limit

theorem arrivals_twisted : twistedDisk.arrivals pagePlan.project =
    [.file ⟨"/app/index.html", Text.encode "<script src='a%2541.js'></script>"⟩, .finish] := by
  have hroot : pagePlan.project.root = "/app" := rfl
  have hpatterns : pagePlan.project.sourcePatterns = .ok [("index.html" : Text)] := rfl
  have hbelow : twistedDisk.below "/app" =
      [[("a%41.js" : Text)], ["aA.js"], ["index.html"]] :=
    (List.mergeSort_of_pairwise (by decide +kernel)).trans (by decide +kernel)
  rw [Disk.arrivals, hpatterns]
  dsimp only
  rw [Disk.matching, hroot, hbelow]
  decide +kernel

/-- The URL of the script is decoded twice: the other script is fetched, and the build of the document
waits for ever. -/
theorem stuck_of_twisted : twistedDisk.WellFormed ∧
    Fed (twistedDisk.setup pagePlan) twistedStart (twistedDisk.arrivals pagePlan.project) twistedEnd
      [] ∧ Quiescent (twistedDisk.setup pagePlan) twistedEnd ∧
    twistedEnd.queue = [] ∧ twistedEnd.status = .running := by
  have hnames : ∀ x ∈ twistedDisk.files, ∀ n ∈ x.1,
      n ≠ [] ∧ n ≠ Path.dotDot ∧ .char '/' ∉ n := by decide
  have hstate : twistedEnd.ready.isEmpty ∧ twistedEnd.queue = [] ∧
      twistedEnd.reads.all (·.delivery ≠ .pending) ∧ twistedEnd.status = .running := by
    decide +kernel
  obtain ⟨hready, hqueue, hreads, hrunning⟩ := hstate
  refine ⟨fun x hx n hn => ?_, ?_, ?_, hqueue, hrunning⟩
  · obtain ⟨hne, hdots, hslash⟩ := hnames x hx n hn
    exact ⟨hne, hdots, hslash⟩
  · rw [arrivals_twisted]
    exact Fed.start.arrive.arrive.settle _
  · refine quiescent_iff.2 ⟨List.isEmpty_iff.1 hready, fun r hr => ?_, nofun⟩
    simpa using List.all_eq_true.1 hreads r hr

end Build
end HtmlDeps
