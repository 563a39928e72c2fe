import HtmlDeps.Proofs.Build.Calm
import HtmlDeps.Proofs.Build.Step
import HtmlDeps.Proofs.Build.Verdict

/-!
# Whether all see the same end of a build

Every step of a build changes its verdict in one of the four ways, and keeps it sound: a pump that is
gone has left a closed stream behind, and the index that was given out is complete (`Sound`).  So
once both pumps are gone, the readers of the streams and those who wait for the index agree exactly
if no fault struck after the success, while a stream was open (`agrees_iff_not_late`).

The full specification asks for it under `_fail`, which “fails both streams and the analysis future with the
same exception”; but `_fail` comes too late for a future that `_done` has set.
-/

namespace HtmlDeps.Build

variable {C : Crawler} {s : Setup} {b b' : Build C}

/-- What holds of the end of a build in all its states. -/
structure Sound (b : Build C) : Prop where
  failed : b.status = .failed → b.sources.ending.isSome ∧ b.dependencies.ending.isSome
  sourcePump : b.sourcePump = .gone → b.sources.ending.isSome
  dependencyPump : b.dependencyPump = .gone → b.dependencies.ending.isSome
  queue : b.status = .running → none ∉ b.queue
  ready : b.status = .running → ∀ x ∈ b.ready, x.2 ≠ .closeSources
  index : ∀ i, b.outcome = some (.ok i) → i = b.index ∧ b.worklist = []

/-- From a sound state `b'` comes about with the same verdict. -/
structure Quiet (b b' : Build C) : Prop where
  verdict : b'.verdict = b.verdict
  sound : Sound b'

/-- From a sound state `b'` comes about with a step of the verdict. -/
structure Course (b b' : Build C) : Prop where
  verdict : Verdict.Step b.verdict b'.verdict
  sound : Sound b'

theorem Quiet.course (h : Quiet b b') : Course b b' :=
  ⟨h.verdict ▸ .stay _, h.sound⟩

theorem Quiet.trans {b₁ b₂ b₃ : Build C} (h : Quiet b₁ b₂) (h' : Quiet b₂ b₃) : Quiet b₁ b₃ :=
  ⟨h'.verdict.trans h.verdict, h'.sound⟩

theorem Quiet.trans_course {b₁ b₂ b₃ : Build C} (h : Quiet b₁ b₂) (h' : Course b₂ b₃) :
    Course b₁ b₃ := ⟨h.verdict ▸ h'.verdict, h'.sound⟩

theorem Course.trans_quiet {b₁ b₂ b₃ : Build C} (h : Course b₁ b₂) (h' : Quiet b₂ b₃) :
    Course b₁ b₃ := ⟨h'.verdict ▸ h.verdict, h'.sound⟩

theorem Sound.quiet (h : Sound b) : Quiet b b := ⟨rfl, h⟩

/-! ### Operations that leave the verdict alone -/

theorem Calm.verdict (h : Calm s b b') : b'.verdict = b.verdict := (congrArg Build.verdict h.core :)

theorem Sound.calm (h : Sound b) (hcalm : Calm s b b') : Quiet b b' := by
  refine ⟨hcalm.verdict, ?_, ?_, ?_, ?_, ?_, ?_⟩
  · rw [hcalm.status, hcalm.sources, hcalm.dependencies]
    exact h.failed
  · rw [hcalm.sources, hcalm.sourcePump]
    exact h.sourcePump
  · intro hgone
    rw [hcalm.dependencies]
    rcases hcalm.pump with ⟨hpump, -⟩ | ⟨-, hworking, -⟩
    · exact h.dependencyPump (hpump ▸ hgone)
    · rw [hworking] at hgone
      cases hgone
  · intro hrunning
    obtain ⟨ps, hps, -⟩ := hcalm.queue
    rw [hps, List.mem_append, not_or]
    exact ⟨h.queue (hcalm.status ▸ hrunning), by simp⟩
  · intro hrunning x hx hclose
    rcases hcalm.ready x hx with hx | hfollows
    · exact h.ready (hcalm.status ▸ hrunning) x hx hclose
    · rw [hclose] at hfollows
      exact hfollows
  · rw [hcalm.outcome, hcalm.index, hcalm.worklist]
    exact h.index

theorem Sound.register (h : Sound b) (f : File) : Quiet b (b.register s f).1 := by
  rcases register_cases (s := s) b f with hcalm | hnone
  · exact h.calm hcalm
  · obtain ⟨u, -, hcalm⟩ := register_eq (Prod.ext rfl hnone : b.register s f = (_, none))
    have hfiles : Sound { b with files := b.files.put u f } :=
      ⟨h.failed, h.sourcePump, h.dependencyPump, h.queue, h.ready, h.index⟩
    have hquiet := hfiles.calm hcalm
    exact ⟨hquiet.verdict, hquiet.sound⟩

theorem Sound.schedule (h : Sound b) {n : Nat} {j : Job C} (hj : j ≠ .closeSources) :
    Quiet b (b.schedule n j) := by
  refine ⟨rfl, h.failed, h.sourcePump, h.dependencyPump, h.queue, fun hrunning x hx => ?_, h.index⟩
  rcases List.mem_append.1 hx with hx | hx
  · exact h.ready hrunning x hx
  · rw [List.mem_singleton] at hx
    exact hx ▸ hj

theorem Sound.scheduleAll (h : Sound b) {js : List (Job C)} (hjs : ∀ j ∈ js, j ≠ .closeSources) :
    Quiet b (b.scheduleAll js) := by
  refine ⟨rfl, h.failed, h.sourcePump, h.dependencyPump, h.queue, fun hrunning x hx => ?_, h.index⟩
  rcases List.mem_append.1 hx with hx | hx
  · exact h.ready hrunning x hx
  · obtain ⟨j, hj, rfl⟩ := List.mem_map.1 hx
    exact hjs j hj

theorem Sound.goOn (h : Sound b) {j : Job C} (hj : j ≠ .closeSources) : Quiet b (b.goOn j) := by
  refine ⟨rfl, h.failed, h.sourcePump, h.dependencyPump, h.queue, fun hrunning x hx => ?_, h.index⟩
  rcases List.mem_cons.1 hx with rfl | hx
  · exact hj
  · exact h.ready hrunning x hx

theorem Sound.analyze (h : Sound b) (p : Path) (client : Bool) : Quiet b (b.analyze p client) := by
  have hfresh : Sound { b with analyses := b.analyses ++ [⟨p, client, none, none⟩] } :=
    ⟨h.failed, h.sourcePump, h.dependencyPump, h.queue, h.ready, h.index⟩
  have hbegin : (.begin b.analyses.length : Job C) ≠ .closeSources := nofun
  have hquiet := hfresh.schedule (n := 0) hbegin
  exact ⟨hquiet.verdict, hquiet.sound⟩

theorem Sound.claim (h : Sound b) (f : File) : Quiet b (b.claim f) := by
  unfold Build.claim
  dsimp only
  split
  · have hclaimed : Sound { b with claimed := b.claimed ++ [f.path.normal] } :=
      ⟨h.failed, h.sourcePump, h.dependencyPump, h.queue, h.ready, h.index⟩
    have hquiet := hclaimed.analyze f.path.normal false
    exact ⟨hquiet.verdict, hquiet.sound⟩
  · exact h.quiet

theorem Sound.takeSource (h : Sound b) (f : File) : Quiet b (b.takeSource s f).1 := by
  have hregister := h.register (s := s) f
  unfold Build.takeSource
  split
  · rename_i heq
    rwa [heq] at hregister
  · rename_i heq
    rw [heq] at hregister
    have hclaim := hregister.trans (hregister.sound.claim f)
    dsimp only
    split
    · exact hclaim
    · rename_i o hsend
      have hending := Outlet.ending_of_send hsend
      obtain ⟨hverdict, hfailed, hsource, hdependency, hqueue, hready, hindex⟩ := hclaim
      refine ⟨?_, ?_, ?_, hdependency, hqueue, hready, hindex⟩
      · rw [← hverdict]
        simp only [verdict, hending]
      · simpa only [hending] using hfailed
      · simpa only [hending] using hsource

theorem Sound.takeDependency (h : Sound b) (f : File) : Quiet b (b.takeDependency s f).1 := by
  have hregister := h.register (s := s) f
  unfold Build.takeDependency
  split
  · rename_i heq
    rwa [heq] at hregister
  · rename_i heq
    rw [heq] at hregister
    have hclaim := hregister.trans (hregister.sound.claim f)
    dsimp only
    split
    · exact hclaim
    · rename_i o hsend
      have hending := Outlet.ending_of_send hsend
      obtain ⟨hverdict, hfailed, hsource, hdependency, hqueue, hready, hindex⟩ := hclaim
      refine ⟨?_, ?_, hsource, ?_, hqueue, hready, hindex⟩
      · rw [← hverdict]
        simp only [verdict, hending]
      · simpa only [hending] using hfailed
      · simpa only [hending] using hdependency

theorem Sound.enter (h : Sound b) {p : Path} {d : Deps} (henter : b.enter p d = .ok b') :
    Quiet b b' := by
  unfold Build.enter at henter
  split at henter
  · cases henter
  · rename_i hmem
    split at henter
    · cases henter
    · obtain rfl := Except.ok.inj henter
      refine ⟨rfl, h.failed, h.sourcePump, h.dependencyPump, h.queue, h.ready, fun i hi => ?_⟩
      rw [(h.index i hi).2] at hmem  -- an index that was given out leaves nothing to be entered
      exact absurd List.not_mem_nil hmem

/-! ### How a build ends -/

theorem Sound.of_failed (hstatus : b.status = .failed)
    (hclosed : b.sources.ending.isSome ∧ b.dependencies.ending.isSome)
    (hindex : ∀ i, b.outcome = some (.ok i) → i = b.index ∧ b.worklist = []) : Sound b :=
  ⟨fun _ => hclosed, fun _ => hclosed.1, fun _ => hclosed.2,
    fun hrunning => absurd (hstatus.symm.trans hrunning) (by simp),
    fun hrunning => absurd (hstatus.symm.trans hrunning) (by simp), hindex⟩

theorem ending_close (o : Outlet Failure) (e : Ending Failure) :
    (o.close e).ending = some (o.ending.getD e) := by
  unfold Outlet.close Outlet.closed
  cases h : o.ending <;> simp [h]

/-- Failing closes what is open; of the pumps nothing need be known. -/
theorem course_fail (b : Build C) (current : Option Nat) (f : Failure)
    (hfailed : b.status = .failed → b.sources.ending.isSome ∧ b.dependencies.ending.isSome)
    (hindex : ∀ i, b.outcome = some (.ok i) → i = b.index ∧ b.worklist = []) :
    Course b (b.fail s current f) := by
  unfold fail
  split
  · rename_i hstatus
    exact ⟨.stay _, .of_failed hstatus (hfailed hstatus) hindex⟩
  · rename_i hstatus
    refine ⟨?_, .of_failed rfl ?_ ?_⟩
    · have hstep : Verdict.Step b.verdict _ := .fail f hstatus
      simpa only [verdict, cancel, note, noteWith, ending_close] using hstep
    · simp only [cancel, note, noteWith, ending_close]
      exact ⟨rfl, rfl⟩
    · intro i hi
      refine hindex i ?_
      simp only [cancel, note, noteWith] at hi
      cases houtcome : b.outcome with
      | none => simp [houtcome] at hi
      | some o => simpa [houtcome] using hi

theorem course_crash (b : Build C) (current : Option Nat) (f : Fault)
    (hfailed : b.status = .failed → b.sources.ending.isSome ∧ b.dependencies.ending.isSome)
    (hindex : ∀ i, b.outcome = some (.ok i) → i = b.index ∧ b.worklist = []) :
    Course b (b.crash s current f) := by
  have hfail := course_fail (s := s)
    (b.note s.context .error ("Build task failed: " ++ f.message)) current (.fault f) hfailed hindex
  exact ⟨hfail.verdict, hfail.sound⟩

/-- A pump that meets a fault is gone, and the build fails. -/
theorem Sound.fail_without_sources (h : Sound b) (f : Failure) :
    Course b ({ b with sourcePump := .gone }.fail s none f) := by
  have hfail := course_fail (s := s) { b with sourcePump := .gone } none f h.failed h.index
  exact ⟨hfail.verdict, hfail.sound⟩

theorem Sound.crash_without_sources (h : Sound b) (f : Fault) :
    Course b ({ b with sourcePump := .gone }.crash s none f) := by
  have hcrash := course_crash (s := s) { b with sourcePump := .gone } none f h.failed h.index
  exact ⟨hcrash.verdict, hcrash.sound⟩

theorem Sound.fail_without_dependencies (h : Sound b) (f : Failure) :
    Course b ({ b with dependencyPump := .gone }.fail s none f) := by
  have hfail := course_fail (s := s) { b with dependencyPump := .gone } none f h.failed h.index
  exact ⟨hfail.verdict, hfail.sound⟩

theorem Sound.crash_without_dependencies (h : Sound b) (f : Fault) :
    Course b ({ b with dependencyPump := .gone }.crash s none f) := by
  have hcrash := course_crash (s := s) { b with dependencyPump := .gone } none f h.failed h.index
  exact ⟨hcrash.verdict, hcrash.sound⟩

theorem Sound.settleAnalysis (h : Sound b) (a : Nat) (outcome : Except Fault Unit) :
    Course b (b.settleAnalysis s a outcome) := by
  have hset : Quiet b
      { b with analyses := b.analyses.modify a fun x => { x with outcome := some outcome } } :=
    ⟨rfl, h.failed, h.sourcePump, h.dependencyPump, h.queue, h.ready, h.index⟩
  cases outcome with
  | ok u => exact hset.course
  | error f =>
    unfold Build.settleAnalysis
    dsimp only
    split
    · exact hset.course
    · exact hset.trans_course (course_crash _ _ f h.failed h.index)

theorem Sound.settleAnalysis_ok (h : Sound b) (a : Nat) :
    Quiet b (b.settleAnalysis s a (.ok ())) :=
  ⟨rfl, h.failed, h.sourcePump, h.dependencyPump, h.queue, h.ready, h.index⟩

theorem Sound.succeed (h : Sound b) (hrunning : b.status = .running) (hworklist : b.worklist = []) :
    Course b (b.succeed s) := by
  have hdone : ∀ (q : List (Option Path)) (pump pump' : Pump) (js : List (Nat × Job C)) log,
      (pump = .gone → b.sourcePump = .gone) → (pump' = .gone → b.dependencyPump = .gone) →
      Course b { b with
        status := .succeeded
        outcome := some (.ok b.index)
        queue := q
        sourcePump := pump
        dependencyPump := pump'
        ready := js
        log := log } := by
    intro q pump pump' js log hpump hpump'
    refine ⟨.succeed b.index hrunning, nofun, fun hgone => h.sourcePump (hpump hgone),
      fun hgone => h.dependencyPump (hpump' hgone), nofun, nofun, fun i hi => ?_⟩
    exact ⟨(Except.ok.inj (Option.some.inj hi)).symm, hworklist⟩
  unfold Build.succeed enqueue
  dsimp only [note, noteWith, Build.schedule]
  split
  · split
    · exact hdone _ _ _ _ _ nofun nofun
    · exact hdone _ _ _ _ _ id nofun
  · split
    · exact hdone _ _ _ _ _ nofun id
    · exact hdone _ _ _ _ _ id id

theorem Sound.complete (h : Sound b) (hworklist : b.worklist = []) (current : Option Nat) :
    Course b (b.complete s current) := by
  unfold Build.complete
  split
  · exact h.quiet.course
  · rename_i hrunning
    have hrunning : b.status = .running := Decidable.of_not_not hrunning
    have hcalm := calm_noteAll (s := s) b s.context (Warnings.printed b.warnings)
    have hnotes := h.calm hcalm
    dsimp only
    split
    · exact hnotes.trans_course (course_fail _ _ _ hnotes.sound.failed hnotes.sound.index)
    · split
      · exact hnotes.trans_course (hnotes.sound.succeed
          (hcalm.status.trans hrunning) (hcalm.worklist.trans hworklist))
      · have hawaited := hnotes.trans (hnotes.sound.calm (calm_foldl (s := s)
          (fun b u => calm_note b s.context .error (u ++ " never loaded"))
          ((b.noteAll s.context (Warnings.printed b.warnings)).awaited s) _))
        exact hawaited.trans_course (course_fail _ _ _ hawaited.sound.failed hawaited.sound.index)

/-! ### Analyses -/

theorem Sound.conclude (h : Sound b) (a : Nat) (p : Path) (url : Text) (r : Report) :
    Course b (b.conclude s a p url r) := by
  have hwarnings : Quiet b { b with warnings := Warnings.addAll b.warnings r.warnings } :=
    ⟨rfl, h.failed, h.sourcePump, h.dependencyPump, h.queue, h.ready, h.index⟩
  have hnotes := hwarnings.trans (hwarnings.sound.calm (calm_foldl (s := s)
    (fun b n => calm_note b (s.analysisContext url) .debug n)
    (Deps.ofReferences r.references).1.notes _))
  unfold Build.conclude
  dsimp only
  split
  · exact hnotes.trans_course (hnotes.sound.settleAnalysis a _)
  · have hdeps := hnotes.trans (hnotes.sound.calm (calm_noteWith (s := s) _ (s.analysisContext url)
      .debug ("dependencies analyzed for: " ++ url) [(Log.contextMark ++ ("deps" : Text), (Deps.ofReferences r.references).1.deps.value)]))
    split
    · exact hdeps.trans_course (hdeps.sound.settleAnalysis a _)
    · rename_i henter
      have hentered := hdeps.trans (hdeps.sound.enter henter)
      split
      · rename_i hempty
        have hcomplete := hentered.sound.complete (s := s) (List.isEmpty_iff.1 hempty) (some a)
        exact hentered.trans_course
          (hcomplete.trans_quiet (hcomplete.sound.settleAnalysis_ok a))
      · exact (hentered.trans (hentered.sound.settleAnalysis_ok a)).course

theorem Sound.begin (h : Sound b) (a : Nat) : Course b (b.begin s a) := by
  unfold Build.begin
  split
  · exact h.quiet.course
  · split
    · exact h.settleAnalysis a _
    · rename_i x _ _ url _
      have hcrawl : Sound { b with
          analyses := b.analyses.set a { x with crawl := some (url, (C.start url).1) } } :=
        ⟨h.failed, h.sourcePump, h.dependencyPump, h.queue, h.ready, h.index⟩
      have hturn : Job.turn a (C.start url).2 ≠ .closeSources := nofun
      have hquiet := hcrawl.goOn hturn
      exact Quiet.course ⟨hquiet.verdict, hquiet.sound⟩

theorem Sound.turn (h : Sound b) (a : Nat) (t : C.Thread) : Course b (b.turn s a t) := by
  unfold Build.turn
  split
  · exact h.quiet.course
  · split
    · exact h.quiet.course
    · rename_i x _ _ url memory _
      have hcrawl : Quiet b { b with
          analyses := b.analyses.set a { x with crawl := some (url, (C.turn memory t).memory) } } :=
        ⟨rfl, h.failed, h.sourcePump, h.dependencyPump, h.queue, h.ready, h.index⟩
      have hnotes := hcrawl.trans (hcrawl.sound.calm (calm_foldl (s := s)
        (fun b n => calm_note b (s.analysisContext url) .debug n) (C.turn memory t).notes _))
      dsimp only
      split
      · exact (hnotes.trans (hnotes.sound.calm (calm_load (s := s) _ _ _))).course
      · rename_i ts _
        refine (hnotes.trans (hnotes.sound.scheduleAll fun j hj => ?_)).course
        obtain ⟨t', -, rfl⟩ := List.mem_map.1 hj
        exact nofun
      · exact hnotes.trans_course (hnotes.sound.conclude a _ _ _)
      · exact hnotes.trans_course (hnotes.sound.settleAnalysis a _)

/-! ### Pumps -/

theorem Sound.closeSources (h : Sound b) (hrunning : b.status ≠ .running) :
    Course b b.closeSources := by
  unfold Build.closeSources
  dsimp only
  split
  · rename_i hsucceeded
    have hclose : (b.sources.close .complete).ending.isSome := by
      rw [ending_close]
      rfl
    refine ⟨?_, fun hfailed => ⟨hclose, (h.failed hfailed).2⟩, fun _ => hclose, h.dependencyPump,
      h.queue, h.ready, h.index⟩
    have hstep : Verdict.Step b.verdict _ := .endSources hsucceeded
    simpa only [Build.verdict, ending_close] using hstep
  · rename_i hsucceeded
    have hfailed : b.status = .failed := by
      cases hstatus : b.status with
      | running => exact absurd hstatus hrunning
      | succeeded => exact absurd hstatus hsucceeded
      | failed => rfl
    exact ⟨.stay _, .of_failed hfailed (h.failed hfailed) h.index⟩

theorem Sound.exhaust (h : Sound b) : Course b (b.exhaust s) := by
  have hexhausted : Quiet b { b with exhausted := true } :=
    ⟨rfl, h.failed, h.sourcePump, h.dependencyPump, h.queue, h.ready, h.index⟩
  unfold Build.exhaust
  dsimp only
  split
  · rename_i m ms _
    have hnotes := hexhausted.trans (hexhausted.sound.calm (calm_foldl (s := s) (fun b f =>
      calm_note b s.context .error ("fragment " ++ f ++ " was not found among the sources"))
      (m :: ms) _))
    exact hnotes.trans_course (hnotes.sound.fail_without_sources _)
  · have hcalm := calm_releaseSources (s := s) { b with exhausted := true } b.waitlist.keys
    have hrelease := hexhausted.trans (hexhausted.sound.calm hcalm)
    split
    · rename_i heq
      rw [heq] at hrelease
      exact hrelease.trans_course (hrelease.sound.crash_without_sources _)
    · rename_i b' heq
      rw [heq] at hrelease
      split
      · have hclosing : Quiet b' { b' with sourcePump := .closing } :=
          ⟨rfl, hrelease.sound.failed, nofun, hrelease.sound.dependencyPump, hrelease.sound.queue,
            hrelease.sound.ready, hrelease.sound.index⟩
        exact (hrelease.trans hclosing).course
      · rename_i hrunning
        exact hrelease.trans_course (hrelease.sound.closeSources hrunning)

theorem Sound.pumpSources (h : Sound b) : Course b (b.pumpSources s) := by
  unfold Build.pumpSources
  split
  · exact Quiet.course ⟨rfl, h.failed, nofun, h.dependencyPump, h.queue, h.ready, h.index⟩
  · rename_i item rest _
    have hrest : Quiet b { b with incoming := rest } :=
      ⟨rfl, h.failed, h.sourcePump, h.dependencyPump, h.queue, h.ready, h.index⟩
    dsimp only
    split
    · exact hrest.trans_course hrest.sound.exhaust
    · exact hrest.trans_course (hrest.sound.crash_without_sources _)
    · rename_i f _
      split
      · rename_i hfailed
        exact ⟨.stay _, .of_failed hfailed (h.failed hfailed) h.index⟩
      · have htake := hrest.trans (hrest.sound.takeSource (s := s) f)
        split
        · rename_i heq
          rw [heq] at htake
          exact htake.trans_course (htake.sound.crash_without_sources _)
        · rename_i heq
          rw [heq] at htake
          have hpump : (.pumpSources : Job C) ≠ .closeSources := nofun
          exact (htake.trans (htake.sound.goOn hpump)).course

theorem Sound.deliver (h : Sound b) (p : Path) : Course b (b.deliver s p) := by
  cases hread : s.read p with
  | error f =>
    obtain ⟨log, e, -, hdeliver⟩ := b.deliver_of_error hread
    have hlog : Quiet b { b with log := log } :=
      ⟨rfl, h.failed, h.sourcePump, h.dependencyPump, h.queue, h.ready, h.index⟩
    rw [hdeliver]
    exact hlog.trans_course (hlog.sound.fail_without_dependencies e)
  | ok contents =>
    simp only [Build.deliver, hread]
    have htake := h.takeDependency (s := s) ⟨p, contents⟩
    split
    · rename_i heq
      rw [heq] at htake
      exact htake.trans_course (htake.sound.crash_without_dependencies _)
    · rename_i b' heq
      rw [heq] at htake
      have hworking : Quiet b { b' with dependencyPump := .working } :=
        ⟨htake.verdict, htake.sound.failed, htake.sound.sourcePump, nofun, htake.sound.queue,
          htake.sound.ready, htake.sound.index⟩
      have hpump : (.pumpDependencies : Job C) ≠ .closeSources := nofun
      exact (hworking.trans (hworking.sound.goOn hpump)).course

theorem Sound.pumpDependencies (h : Sound b) : Course b (b.pumpDependencies s) := by
  unfold Build.pumpDependencies
  split
  · exact Quiet.course ⟨rfl, h.failed, h.sourcePump, nofun, h.queue, h.ready, h.index⟩
  · -- the end of the queue: the build is over
    rename_i rest hqueue
    have hrunning : b.status ≠ .running := fun hrunning => h.queue hrunning (by simp [hqueue])
    dsimp only
    split
    · rename_i hsucceeded
      have hclose : (b.dependencies.close .complete).ending.isSome := by
        rw [ending_close]
        rfl
      refine ⟨?_, fun hfailed => ⟨(h.failed hfailed).1, hclose⟩, h.sourcePump, fun _ => hclose,
        fun hr => absurd hr hrunning, h.ready, h.index⟩
      have hstep : Verdict.Step b.verdict _ := .endDependencies hsucceeded
      simpa only [Build.verdict, ending_close] using hstep
    · rename_i hsucceeded
      have hfailed : b.status = .failed := by
        cases hstatus : b.status with
        | running => exact absurd hstatus hrunning
        | succeeded => exact absurd hstatus hsucceeded
        | failed => rfl
      exact ⟨.stay _, .of_failed hfailed (h.failed hfailed) h.index⟩
  · rename_i p rest hqueue
    have hread : ∀ reads, Quiet b { b with
        queue := rest, reads := reads, dependencyPump := .reading } := fun reads =>
      ⟨rfl, h.failed, h.sourcePump, nofun,
        fun hrunning hmem => h.queue hrunning (hqueue ▸ List.mem_cons_of_mem _ hmem), h.ready,
        h.index⟩
    dsimp only
    split
    · exact (hread _).course
    · exact (hread _).trans_course ((hread _).sound.deliver p)

/-! ### Runs -/

theorem Sound.run (h : Sound b) (j : Job C) (hclose : j = .closeSources → b.status ≠ .running) :
    Course b (b.run s j) := by
  cases j with
  | pumpSources => exact h.pumpSources
  | closeSources => exact h.closeSources (hclose rfl)
  | pumpDependencies => exact h.pumpDependencies
  | deliver p => exact h.deliver p
  | begin a => exact h.begin a
  | turn a t => exact h.turn a t
  | load n u => exact (h.calm (calm_load (s := s) b u _)).course
  | loaded n answer =>
    exact Quiet.course
      ⟨rfl, h.failed, h.sourcePump, h.dependencyPump, h.queue, h.ready, h.index⟩
  | expire w => exact (h.calm (calm_expire (s := s) b w)).course

theorem Sound.works (h : Sound b) (hworks : Works s b b') : Course b b' := by
  cases hworks with
  | @job before after rounds j hready =>
    have hrest : Quiet b { b with ready := before ++ after } := by
      refine ⟨rfl, h.failed, h.sourcePump, h.dependencyPump, h.queue, fun hrunning x hx => ?_,
        h.index⟩
      refine h.ready hrunning x ?_
      rw [hready]
      rcases List.mem_append.1 hx with hx | hx
      · exact List.mem_append_left _ hx
      · exact List.mem_append_right _ (List.mem_cons_of_mem _ hx)
    refine hrest.trans_course (hrest.sound.run j fun hj hrunning => ?_)
    exact h.ready hrunning (rounds, j) (by simp [hready]) hj
  -- A job that is put off is the same job: what held of it when it was ready holds of it later.
  | @delay rest rounds j hready =>
    refine Quiet.course ⟨rfl, h.failed, h.sourcePump, h.dependencyPump, h.queue,
      fun hrunning x hx => ?_, h.index⟩
    rcases List.mem_append.1 hx with hx | hx
    · exact h.ready hrunning x (hready ▸ List.mem_cons_of_mem _ hx)
    · rw [List.mem_singleton] at hx
      rw [hx]
      exact h.ready hrunning (rounds + 1, j) (hready ▸ List.mem_cons_self)
  | @deliver before after r _ _ =>
    have hreads : Sound
        { b with reads := before ++ { r with delivery := .delivered } :: after } :=
      ⟨h.failed, h.sourcePump, h.dependencyPump, h.queue, h.ready, h.index⟩
    have hdeliver : (.deliver r.path : Job C) ≠ .closeSources := nofun
    have hquiet := hreads.schedule (n := 0) hdeliver
    exact Quiet.course ⟨hquiet.verdict, hquiet.sound⟩
  | expire _ hwaiting =>
    refine Quiet.course ⟨rfl, h.failed, h.sourcePump, h.dependencyPump, h.queue,
      fun hrunning x hx => ?_, h.index⟩
    rcases List.mem_append.1 hx with hx | hx
    · exact h.ready hrunning x hx
    · rw [List.mem_singleton] at hx
      rw [hx]
      exact nofun

theorem Sound.touches (h : Sound b) (htouches : Touches s b b') : Quiet b b' := by
  cases htouches with
  | arrive item =>
    have hincoming : ∀ incoming pump, (pump = .gone → b.sourcePump = .gone) →
        Sound { b with incoming := incoming, sourcePump := pump } := fun incoming pump hpump =>
      ⟨h.failed, fun hgone => h.sourcePump (hpump hgone), h.dependencyPump, h.queue, h.ready,
        h.index⟩
    unfold arrive
    dsimp only
    split
    · have hpump : (.pumpSources : Job C) ≠ .closeSources := nofun
      have hquiet := (hincoming (b.incoming ++ [item]) .working nofun).schedule (n := 0) hpump
      exact ⟨hquiet.verdict, hquiet.sound⟩
    · exact ⟨rfl, hincoming _ _ id⟩
  | ask url =>
    have hloads : Sound { b with loads := b.loads ++ [none] } :=
      ⟨h.failed, h.sourcePump, h.dependencyPump, h.queue, h.ready, h.index⟩
    have hload : (.load b.loads.length url : Job C) ≠ .closeSources := nofun
    have hquiet := hloads.schedule (n := 0) hload
    exact ⟨hquiet.verdict, hquiet.sound⟩
  | push ctx url => exact h.calm (calm_push (s := s) b ctx url)
  | register f => exact h.register f
  | analyze p => exact h.analyze p true
  | note ctx l m => exact h.calm (calm_note (s := s) b ctx l m)

theorem sound_initial (C : Crawler) (p : Project) : Sound (initial C p) :=
  ⟨nofun, nofun, nofun, fun _ => List.not_mem_nil, fun _ _ hx => (nomatch hx), nofun⟩

theorem Sound.start (h : Sound b) : Course b (b.start s).1 := by
  have hstarted : Quiet b { b with started := true } :=
    ⟨rfl, h.failed, h.sourcePump, h.dependencyPump, h.queue, h.ready, h.index⟩
  unfold Build.start
  split
  · exact h.quiet.course
  · dsimp only
    split
    · exact hstarted.course
    · rename_i extras _
      have hextras := hstarted.trans (hstarted.sound.calm (calm_enqueueExtras { b with started := true }
        fun p hp => .inr ⟨extras, ‹_›, hp⟩))
      split
      · rename_i heq
        rw [heq] at hextras
        exact hextras.course
      · rename_i heq
        rw [heq] at hextras
        have hsources : (.pumpSources : Job C) ≠ .closeSources := nofun
        have hdependencies : (.pumpDependencies : Job C) ≠ .closeSources := nofun
        have hpump := hextras.trans (hextras.sound.schedule (n := 0) hsources)
        have hpumps := hpump.trans (hpump.sound.schedule (n := 0) hdependencies)
        dsimp only
        split
        · rename_i hempty
          exact hpumps.trans_course (hpumps.sound.complete (List.isEmpty_iff.1 hempty) none)
        · exact hpumps.course

theorem Sound.step (h : Sound b) (hstep : Step s b b') : Course b b' := by
  rcases hstep with hworks | htouches
  · exact h.works hworks
  · exact (h.touches htouches).course

/-- All states of a run are sound, and their verdicts are those on a run. -/
theorem Trace.sound {b₀ : Build C} (hstart : (initial C s.project).start s = (b₀, none))
    {past : List (Build C)} (h : Trace s b₀ (b :: past)) :
    Sound b ∧ Verdict.Trace ((b :: past).map verdict) := by
  generalize htrace : b :: past = trace at h
  induction h generalizing b past with
  | start =>
    obtain ⟨rfl, rfl⟩ := List.cons.inj htrace
    have hcourse := (sound_initial C s.project).start (s := s)
    rw [hstart] at hcourse
    exact ⟨hcourse.sound, .start hcourse.verdict⟩
  | step h hstep ih =>
    obtain ⟨rfl, rfl⟩ := List.cons.inj htrace
    obtain ⟨hsound, hverdicts⟩ := ih rfl
    have hcourse := hsound.step hstep
    exact ⟨hcourse.sound, .step hverdicts hcourse.verdict⟩

/-- Both streams end cleanly and the index of the build is given out, or all three report one and
the same fault. -/
def Agrees (b : Build C) : Prop :=
  (b.sources.ending = some .complete ∧ b.dependencies.ending = some .complete ∧
      b.outcome = some (.ok b.index)) ∨
    ∃ f, b.sources.ending = some (.failed f) ∧ b.dependencies.ending = some (.failed f) ∧
      b.outcome = some (.error f)

/-- A fault strikes a build that has succeeded, while one of its streams is open. -/
def LateFault (b b' : Build C) : Prop :=
  b.status = .succeeded ∧ (b.sources.ending = none ∨ b.dependencies.ending = none) ∧
    b'.status = .failed

theorem Sound.agrees_iff (h : Sound b) : b.Agrees ↔ b.verdict.Agrees := by
  constructor
  · rintro (⟨hs, hd, ho⟩ | hfault)
    · exact .inl ⟨hs, hd, b.index, ho⟩
    · exact .inr hfault
  · rintro (⟨hs, hd, i, ho⟩ | hfault)
    · exact .inl ⟨hs, hd, (h.index i ho).1 ▸ ho⟩
    · exact .inr hfault

/-- **Agreement.**  Once both pumps of a started build are gone, the readers of both streams and
those who wait for the index agree on its end exactly if on the way there no fault struck between the
success of the build and the end of a stream. -/
theorem Trace.agrees_iff_not_late {b₀ : Build C}
    (hstart : (initial C s.project).start s = (b₀, none)) {past : List (Build C)}
    (htrace : Trace s b₀ (b :: past)) (hsources : b.sourcePump = .gone)
    (hdependencies : b.dependencyPump = .gone) :
    b.Agrees ↔ ¬ Somewhere LateFault (b :: past) := by
  obtain ⟨hsound, hverdicts⟩ := htrace.sound hstart
  rw [hsound.agrees_iff, Verdict.Trace.agrees_iff_never_late hverdicts
    (hsound.sourcePump hsources) (hsound.dependencyPump hdependencies), ← List.map_cons,
    somewhere_map]
  rfl

/-- A project whose index is known at once, and one extra dependency. -/
def smallSetup (readable : Bool) : Setup where
  project := ⟨⟨"/app", "/app/index.html", none, [], [], ["extra.txt"]⟩, "/", Glob.accepts⟩
  read _ := if readable then .ok [] else .error ⟨.missing, "no such file"⟩
  gated := false
  timeout := none
  extras := .ok ["/app/extra.txt"]
  context := []

/-- The crawler for which no document needs anything. -/
def needless : Crawler := .knowing fun _ => .ok ⟨[], []⟩

/-- The source is taken and analyzed before anything is done about the dependency. -/
def sourceFirst : List Pick :=
  [.arrive (.file ⟨"/app/index.html", []⟩), .arrive .finish, .job 0, .job 0, .job 1, .job 0]

/-- The build of that project, just started. -/
def smallStart (readable : Bool) : Build needless :=
  ((initial needless (smallSetup readable).project).start (smallSetup readable)).1

/-- The index of that project. -/
def smallIndex : Index := ⟨[], [("/app/index.html", [])], [("/app/index.html", Deps.empty)]⟩

/-- If the dependency can be read, all agree, and no fault was late. -/
theorem agrees_of_readable : ∃ b past,
    Trace (smallSetup true) (smallStart true) (b :: past) ∧ b.sourcePump = .gone ∧
      b.dependencyPump = .gone ∧ b.Agrees ∧ ¬ Somewhere LateFault (b :: past) := by
  have hend : ((smallStart true).play? (smallSetup true)
      (sourceFirst ++ [.job 0, .job 0, .job 0])).map (fun b =>
        (b.sourcePump, b.dependencyPump, b.index, b.verdict)) =
      some (.gone, .gone, smallIndex,
        ⟨.succeeded, some .complete, some .complete, some (.ok smallIndex)⟩) := by
    decide +kernel
  obtain ⟨b, hplay, hb⟩ := Option.map_eq_some_iff.1 hend
  simp only [verdict, Prod.mk.injEq, Verdict.mk.injEq] at hb
  obtain ⟨hsources, hdependencies, hindex, -, hs, hd, ho⟩ := hb
  obtain ⟨past, htrace⟩ := trace_of_play? hplay .start
  have hstart : (initial needless (smallSetup true).project).start (smallSetup true) =
      (smallStart true, none) := rfl
  have hagrees : b.Agrees := .inl ⟨hs, hd, hindex ▸ ho⟩
  exact ⟨b, past, htrace, hsources, hdependencies, hagrees,
    (Trace.agrees_iff_not_late hstart htrace hsources hdependencies).1 hagrees⟩

/-- If it cannot be read, the build fails after its success: nothing is left to be done, the streams
report the fault, and those who wait for the index have it. -/
theorem disagrees_of_unreadable : ∃ b past,
    Trace (smallSetup false) (smallStart false) (b :: past) ∧ b.ready.isEmpty ∧
      b.waiting.isEmpty ∧ b.sourcePump = .gone ∧ b.dependencyPump = .gone ∧ ¬ b.Agrees := by
  have hend : ((smallStart false).play? (smallSetup false) (sourceFirst ++ [.job 0])).map (fun b =>
        (b.ready.isEmpty, b.waiting.isEmpty, b.sourcePump, b.dependencyPump, b.verdict)) =
      some (true, true, .gone, .gone,
        ⟨.failed, some (.failed (.dependency "/app/extra.txt" ⟨.missing, "no such file"⟩)),
          some (.failed (.dependency "/app/extra.txt" ⟨.missing, "no such file"⟩)),
          some (.ok smallIndex)⟩) := by
    decide +kernel
  obtain ⟨b, hplay, hb⟩ := Option.map_eq_some_iff.1 hend
  simp only [verdict, Prod.mk.injEq, Verdict.mk.injEq] at hb
  obtain ⟨hready, hwaiting, hsources, hdependencies, -, hs, -, ho⟩ := hb
  obtain ⟨past, htrace⟩ := trace_of_play? hplay .start
  refine ⟨b, past, htrace, hready, hwaiting, hsources, hdependencies, ?_⟩
  rintro (⟨hcomplete, -, -⟩ | ⟨f, -, -, hfault⟩)
  · exact absurd (hs.symm.trans hcomplete) nofun
  · exact absurd (ho.symm.trans hfault) nofun

end HtmlDeps.Build
