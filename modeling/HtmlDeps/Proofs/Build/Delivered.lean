import HtmlDeps.Proofs.Build.Closure
import HtmlDeps.Proofs.Build.Conveying
import HtmlDeps.Proofs.Build.Fetched
import HtmlDeps.Proofs.Build.Silent
import HtmlDeps.Proofs.Build.Tally

/-!
# No dependency is lost

When the stream of dependencies ends cleanly, it has passed on what the reader gave for everything that was
put on the queue, in that order; and once a build has ended, nothing is put there any more
(`dependencies_delivered`).  Who has a fragment analyzed again after that loses what it needs
(`not_delivered_reopened`).

Could the crawls still want something then?  As long as the build is running, they are in order
(`Woven`), and the build succeeds with the last of them, so that no thread is left (`Attended`).

The queue is filled by `push_dependency` and `start`, read by `_pump_dependencies`, and closed by `_done`.
-/

namespace HtmlDeps

namespace Belt

variable {s : Setup} {a a' : Belt}

/-- The stream will never end cleanly. -/
def Lost (a : Belt) : Prop := a.Stopped ∧ a.dependencies.ending ≠ some .complete

theorem ending_fail_ne (f : Failure) (h : a.dependencies.ending ≠ some .complete) :
    (a.fail f).dependencies.ending ≠ some .complete := by
  intro hended
  have hclosed := Outlet.eq_of_close_failed hended
  exact h (hclosed ▸ hended)

theorem Lost.course (h : a.Lost) (hcourse : Course s a a') : a'.Lost := by
  have hsteps : ∀ {a' : Belt}, Steps s a a' → a'.Lost := fun hsteps => by
    obtain ⟨hstopped, hdependencies, -⟩ := h.1.steps hsteps
    exact ⟨hstopped, hdependencies ▸ h.2⟩
  cases hcourse with
  | goesOn hs => exact hsteps hs
  | succeeds hs =>
    obtain ⟨hstopped, hending⟩ := hsteps hs
    unfold succeed enqueue
    rw [if_neg (by exact hstopped.pump)]
    exact ⟨⟨hstopped.hauls, hstopped.pump, hstopped.reads⟩, hending⟩
  | fails hs _ f => exact ⟨stopped_cancel _, ending_fail_ne f (hsteps hs).2⟩

/-- A running build that fails loses the stream. -/
theorem Carries.lost (h : Carries s a) (hcourse : Course s a a') (hrunning : a.status = .running)
    (hfailed : a'.status = .failed) : a'.Lost := by
  cases hcourse with
  | goesOn hs =>
    rw [hs.kept.1, hrunning] at hfailed
    cases hfailed
  | succeeds =>
    rw [Belt.succeed, status_enqueue] at hfailed
    cases hfailed
  | fails hs _ f =>
    refine ⟨stopped_cancel _, ending_fail_ne f fun hended => ?_⟩
    exact ((h.steps hs).ended hended).2.1 (hs.kept.1.trans hrunning)

end Belt

namespace Build

section

variable {C : Crawler} {s : Setup} {b b' : Build C}

theorem Launched.reached (h : Launched s b) : Reached s b := by
  induction h with
  | start hreached => exact hreached.tail (.start _)
  | next _ hmoves ih => exact ih.tail hmoves

theorem Launched.trans (h : Launched s b) (hrun : Relation.ReflTransGen (Moves s) b b') :
    Launched s b' := by
  induction hrun with
  | refl => exact h
  | tail _ hmoves ih => exact ih.next hmoves

/-- Nobody outside asks for a file or has a fragment analyzed. -/
def Unasked (b : Build C) : Prop := b.loads = [] ∧ ∀ x ∈ b.analyses, x.client = false

theorem Unasked.of_kept (h : Unasked b') (hclients : b.belt.clients <+: b'.belt.clients)
    (hloads : b.belt.loads ≤ b'.belt.loads) : Unasked b := by
  refine ⟨?_, fun x hx => ?_⟩
  · have hloads : b.loads.length ≤ b'.loads.length := hloads
    rw [h.1] at hloads
    exact List.eq_nil_of_length_eq_zero (Nat.le_zero.1 hloads)
  · obtain ⟨y, hy, heq⟩ := List.mem_map.1 (hclients.subset (List.mem_map_of_mem (f := (·.client)) hx))
    exact heq ▸ h.2 y hy

theorem Unasked.not_ask (url : Text) : ¬ Unasked (b.ask url) := fun h => absurd h.1 (by simp [ask, schedule])

theorem Unasked.not_analyze (p : Path) : ¬ Unasked (b.analyze p true) := fun h =>
  absurd (h.2 ⟨p, true, none, none⟩ (List.mem_append_right _ List.mem_cons_self)) nofun

/-- What a run does to the belt of a build that was started. -/
theorem Launched.preserve {P : Belt → Prop} (h : Launched s b)
    (hrun : Relation.ReflTransGen (Moves s) b b')
    (hcourse : ∀ a a', P a → Belt.Course s a a' → P a') (hb : P b.belt) : P b'.belt := by
  induction hrun with
  | refl => exact hb
  | tail hrun hmoves ih => exact hcourse _ _ ih (hmoves.course (h.trans hrun).carries.1)

/-- Nothing is put on the queue once the build has ended. -/
theorem Launched.fetched (h : Launched s b) (hrun : Relation.ReflTransGen (Moves s) b b')
    (hended : b.status ≠ .running) : b'.pushed = b.pushed ∧ b'.belt.fetches = b.belt.fetches := by
  have hkept := h.preserve (P := fun a => a.status ≠ .running ∧ a.pushed = b.pushed ∧
    a.fetches = b.belt.fetches) hrun (fun a a' ha hcourse => ?_) ⟨hended, rfl, rfl⟩
  · exact hkept.2
  · obtain ⟨hpushed, hfetches⟩ := hcourse.fetched ha.1
    exact ⟨hcourse.kept.2.2.2 ha.1, hpushed.trans ha.2.1, hfetches.trans ha.2.2⟩

/-- What was sent when the stream has ended. -/
theorem Launched.sent (h : Launched s b) (hended : b.dependencies.ending = some .complete) :
    b.dependencies.sent.map Except.ok =
      b.belt.fetches.map fun p => (s.read p).map (File.mk p) := by
  have hcarries := h.carries.2
  obtain ⟨-, -, hqueue, hsent⟩ := hcarries.ended hended
  have hfetches : b.belt.fetches = b.dependencies.sent.map (·.path) := by
    rw [Belt.fetches, ← hsent, hqueue]
    exact List.append_nil _
  rw [hfetches, List.map_map]
  refine List.map_congr_left fun f hf => ?_
  have hread : s.read f.path = .ok f.contents := hcarries.texts f hf
  rw [Function.comp, hread]
  rfl

/-! ### Before the start -/

/-- Before the start, nothing happens by itself. -/
structure Asleep (b : Build C) : Prop extends Silent b where
  claimed : b.claimed = []
  worklist : b.worklist ≠ []
  exhausted : b.exhausted = false

theorem Asleep.calm (h : Asleep b) {fs : Table Text File} (hcalm : Calm s { b with files := fs } b')
    (hsilent : Silent b') : Asleep b' := by
  refine ⟨hsilent, hcalm.claimed.trans h.claimed, ?_, hcalm.exhausted.trans h.exhausted⟩
  rw [hcalm.worklist]
  exact h.worklist

theorem Asleep.step (h : Asleep b) (hdormant : Dormant s b) (hstep : Step s b b')
    (hunasked : Unasked b') : Asleep b' := by
  rcases hstep with hworks | htouches
  -- Neither pump has been set going, and a job that asks is not among those that are ready.
  · cases hworks with
    | @job before after rounds j hready =>
      obtain ⟨hj, hhaul, -⟩ := hdormant.take hready
      have hsilent : ¬ j.Asks :=
        h.ready (rounds, j) (hready ▸ List.mem_append_right _ List.mem_cons_self)
      have hrest : ∀ y ∈ before ++ after, ¬ y.2.Asks := fun y hy =>
        h.ready y (hready ▸ (List.mem_append.1 hy).elim (List.mem_append_left _)
          fun hy => List.mem_append_right _ (List.mem_cons_of_mem _ hy))
      cases j with
      | pumpSources => exact absurd rfl hj
      | pumpDependencies | deliver => cases hhaul
      | begin | turn | load | expire => exact absurd trivial hsilent
      | loaded n answer => exact ⟨⟨h.waiting, hrest⟩, h.claimed, h.worklist, h.exhausted⟩
      | closeSources =>
        unfold run closeSources
        dsimp only
        split
        · exact ⟨⟨h.waiting, hrest⟩, h.claimed, h.worklist, h.exhausted⟩
        · exact ⟨⟨h.waiting, hrest⟩, h.claimed, h.worklist, h.exhausted⟩
    | @delay rest rounds j hready =>
      have hj : ¬ j.Asks := h.ready (rounds + 1, j) (hready ▸ List.mem_cons_self)
      refine ⟨⟨h.waiting, List.forall_mem_append.2 ⟨fun y hy => ?_, List.forall_mem_singleton.2 hj⟩⟩,
        h.claimed, h.worklist, h.exhausted⟩
      exact h.ready y (hready ▸ List.mem_cons_of_mem _ hy)
    | deliver _ hreads =>
      rw [hdormant.reads] at hreads
      exact absurd hreads.symm (by simp)
    | expire _ hwaiting =>
      rw [h.waiting] at hwaiting
      exact absurd hwaiting.symm (by simp)
  · cases htouches with
    | arrive item =>
      unfold arrive
      dsimp only
      rw [if_neg hdormant.sourcePump]
      exact ⟨⟨h.waiting, h.ready⟩, h.claimed, h.worklist, h.exhausted⟩
    | ask url => exact absurd hunasked (Unasked.not_ask url)
    | push ctx url => exact h.calm (calm_push b ctx url) (h.toSilent.push ctx url)
    | register f =>  -- A file that is stored answers those who wait for it, and nobody does.
      rcases register_cases (s := s) b f with hcalm | hdone
      · exact h.calm hcalm (h.toSilent.register f)
      · obtain ⟨u, -, hcalm⟩ := register_eq (Prod.ext rfl hdone : b.register s f = (_, none))
        exact h.calm hcalm (h.toSilent.register f)
    | analyze p => exact absurd hunasked (Unasked.not_analyze p)
    | note => exact ⟨⟨h.waiting, h.ready⟩, h.claimed, h.worklist, h.exhausted⟩

/-- In a run up to the start. -/
theorem Reached.asleep (h : Reached s b) (hfirst : b.started = false) (hunasked : Unasked b)
    (hnone : b.analyses = []) : Asleep b := by
  induction h with
  | refl => exact ⟨⟨rfl, nofun⟩, rfl, allFragments_ne_nil s.project, rfl⟩
  | @tail b b' hreached hmoves ih =>
    cases hmoves with
    | start => cases (start_kept b).1.symm.trans hfirst
    | step hstep =>
      have hcourse : Belt.Course s b.belt b'.belt := hstep.elim conveys_works conveys_touches
      obtain ⟨hfirst', hnone'⟩ := unstarted_of_course hcourse hfirst hnone
      exact (ih hfirst' (hunasked.of_kept hcourse.kept.2.1 hcourse.kept.2.2.1) hnone').step
        (Reached.dormant hreached hfirst' hnone') hstep hunasked
    | close =>
      have hasleep := ih hfirst hunasked hnone
      exact ⟨hasleep.toSilent.cancel none, hasleep.claimed, hasleep.worklist, hasleep.exhausted⟩

end

/-! ### The crawls of a build -/

section

variable {s : Setup} {b b' : Build importer} {j : Job importer}

/-- As long as a build is running, its analyses are in order; and it succeeds when nobody is left to ask
for anything.  If it ends otherwise, the stream of dependencies will not end cleanly. -/
inductive Attended (s : Setup) (b : Build importer) : Prop
  | runs (running : b.status = .running) (woven : Woven s b) (tally : Tally b)
  | rests (ended : b.status ≠ .running) (resting : Resting b)
  | lost (lost : b.belt.Lost)

/-- Without threads nobody asks. -/
theorem silent_of_flight (hwaiting : ∀ w ∈ b.waiting, w.caller.Steady)
    (hready : ∀ y ∈ b.ready, b.Admits y.2) (hflight : ∀ a, b.flight a = []) : Silent b := by
  have hcaller : ∀ c : Caller importer, c.Steady → ∃ a t, c.errand? a = some t := by
    intro c hc
    cases c with
    | thread a next => exact ⟨a, _, if_pos rfl⟩
    | client n => exact hc.elim
  refine ⟨List.eq_nil_iff_forall_not_mem.2 fun w hw => ?_, fun ⟨n, j⟩ hy hasks => ?_⟩
  · obtain ⟨a, t, ht⟩ := hcaller w.caller (hwaiting w hw)
    have hmem : t ∈ b.flight a := List.mem_append_right _ (List.mem_filterMap.2 ⟨w, hw, ht⟩)
    rw [hflight] at hmem
    cases hmem
  · have hthread : ∃ a t, j.errand? a = some t := by
      cases j with
      | begin a => exact ⟨a, _, Job.errand?_begin a⟩
      | turn a t => exact ⟨a, _, Job.errand?_turn a t⟩
      | load n u => exact (hready _ hy).elim
      | expire w => exact hcaller w.caller (hready _ hy)
      | pumpSources | closeSources | pumpDependencies | deliver | loaded => exact hasks.elim
    obtain ⟨a, t, ht⟩ := hthread
    have hmem := mem_flight_of_ready hy ht
    rw [hflight] at hmem
    cases hmem

theorem flight_of_silent (h : Silent b) (a : Nat) : b.flight a = [] := by
  unfold flight
  rw [h.waiting, List.filterMap_nil, List.append_nil, List.filterMap_eq_nil_iff]
  rintro ⟨n, j⟩ hy
  have hj : ¬ j.Asks := h.ready (n, j) hy
  cases j with
  | begin | turn | load | expire => exact absurd trivial hj
  | pumpSources | closeSources | pumpDependencies | deliver | loaded => rfl

theorem worklist_complete (b : Build importer) (current : Option Nat) :
    (b.complete s current).worklist = b.worklist := by
  have hsucceed : ∀ b : Build importer, (b.succeed s).worklist = b.worklist := by
    intro b
    unfold succeed enqueue
    dsimp only [note, noteWith, schedule]
    split <;> split <;> rfl
  have hnotes : ∀ (us : List Text) (text : Text → Text) (b : Build importer),
      (us.foldl (fun b u => b.note s.context .error (text u)) b).worklist = b.worklist := by
    intro us text
    induction us with
    | nil => exact fun _ => rfl
    | cons u us ih => exact fun b => ih (b.note _ _ _)
  obtain ⟨log, hlog⟩ := noteAll_eq s.context (Warnings.printed b.warnings) b
  unfold complete
  rw [hlog]
  split
  · rfl
  · dsimp only
    split
    · exact worklist_fail _ _ _
    · split
      · exact hsucceed _
      · exact (worklist_fail _ _ _).trans (hnotes _ (· ++ " never loaded") _)

/-- When the worklist holds no other fragment, the other analyses are over. -/
theorem flight_of_last {a : Nat} {t : Imports.Thread} {x : Analysis importer}
    (hwoven : Woven s (b.goOn (.turn a t))) (htally : Tally b) (hx : b.analyses[a]? = some x)
    (hlast : ∀ p ∈ b.worklist, p = x.path) (hover : b.flight a = []) : ∀ a', b.flight a' = [] := by
  intro a'
  by_cases ha : a' = a
  · exact ha ▸ hover
  · rw [← flight_turn_ne ha b t]
    cases hy : b.analyses[a']? with
    | none => exact hwoven.idle a' hy
    | some y =>
      have hcrawling := hwoven.crawls a' y hy
      have hmem : ∀ {k : Nat} {z : Analysis importer}, b.analyses[k]? = some z →
          b.roll[k]? = some (z.path, z.outcome) := fun hz => by simp [roll, hz]
      have hdone : y.outcome ≠ none := by
        intro hnone
        have hpath : y.path = x.path :=
          hlast _ ((htally.outcome _ (List.mem_of_getElem? (hmem hy))).1 hnone)
        have hnodup := htally.nodup  -- each fragment is analyzed once
        rw [htally.claimed] at hnodup
        have hget : (b.roll.map (·.1))[a']? = (b.roll.map (·.1))[a]? := by
          rw [List.getElem?_map, List.getElem?_map, hmem hy, hmem hx]
          exact congrArg some hpath
        have hlength : a' < (b.roll.map (·.1)).length := by
          rw [List.length_map]
          exact (List.getElem?_eq_some_iff.1 (hmem hy)).1
        exact ha ((List.getElem?_inj hlength hnodup).1 hget)
      generalize (b.goOn (.turn a t)).flight a' = ts at hcrawling ⊢
      generalize y.outcome = outcome at hcrawling hdone
      generalize y.crawl = crawl at hcrawling
      cases hcrawling with
      | fresh | active => exact absurd rfl hdone
      | ended => rfl

/-- The build succeeds with its last analysis. -/
theorem resting_of_succeeded {a : Nat} {t : Imports.Thread} (hwoven : Woven s (b.goOn (.turn a t)))
    (htally : Tally b) (hrunning : b.status = .running)
    (hsucceeded : (b.turn s a t).status = .succeeded) : Resting (b.turn s a t) := by
  have hstatus : (b.turn s a t).status ≠ .failed := by
    rw [hsucceeded]
    nofun
  obtain ⟨x, url, m, m', log, hx, hown, -, -, -, -, hturned⟩ := hwoven.turned hstatus
  generalize b.turn s a t = b' at hsucceeded hstatus hturned ⊢
  have hmoved : (b.moved a { x with crawl := some (url, m') } log).status = .running := hrunning
  cases hturned with
  | ask hb' =>
    rw [hb', (calm_load _ _ _).status, hmoved] at hsucceeded
    cases hsucceeded
  | leave hb' =>
    rw [hb'] at hsucceeded
    cases hmoved.symm.trans hsucceeded
  | finish hb' hover hsound hasked =>
    obtain ⟨i, ws, log', -, -, hb'⟩ := conclude_cases (own_of_moved hx (by exact hown)) hb'.symm hstatus
    split at hb'
    · rename_i hempty
      have hempty : b.worklist.filter (· ≠ x.path) = [] := List.isEmpty_iff.1 hempty
      have hlast : ∀ p ∈ b.worklist, p = x.path := fun p hp =>
        not_not.1 fun hne => absurd (List.filter_eq_nil_iff.1 hempty p hp) (by simpa using hne)
      -- With no other analysis at work, nobody waits and no job is ready that would ask.
      have hsilent : Silent b := silent_of_flight hwoven.waiting
        (fun y hy => (hwoven.ready y (List.mem_cons_of_mem _ hy)).congr rfl)
        (flight_of_last hwoven htally hx hlast hover)
      have hcomplete : Silent (((b.moved a { x with crawl := some (url, m') } log).entered x.path ws i
          log').complete s (some a)) := by
        refine Silent.complete ?_ _
        exact ⟨hsilent.waiting, hsilent.ready⟩
      rw [hb']
      exact ⟨⟨hcomplete.waiting, hcomplete.ready⟩, (worklist_complete _ _).trans hempty⟩
    · rw [hb'] at hsucceeded
      cases hmoved.symm.trans hsucceeded

theorem Tally.works (h : Tally b) (hwoven : Woven s b) (hqueue : none ∉ b.queue)
    (hworks : Works s b b') (hrunning : b'.status = .running) : Tally b' := by
  cases hworks with
  | @job before after n j hready =>
    have hjobs : (((0, j) :: (before ++ after) : List (Nat × Job importer)).map (·.2)).Perm
        (b.ready.map (·.2)) := hready ▸ perm_in_hand n
    have htally : Tally { b with ready := before ++ after } := h.same rfl rfl rfl rfl
    exact htally.run (hwoven.rearrange hjobs) hqueue hrunning
  | delay | deliver | expire => exact h.same rfl rfl rfl rfl

theorem resting_of_works (hwoven : Woven s b) (htally : Tally b) (hrunning : b.status = .running)
    (hworks : Works s b b') (hsucceeded : b'.status = .succeeded) : Resting b' := by
  cases hworks with
  | @job before after n j hready =>
    by_cases hturn : ∃ a t, j = .turn a t
    · obtain ⟨a, t, rfl⟩ := hturn
      have htally : Tally { b with ready := before ++ after } := htally.same rfl rfl rfl rfl
      refine resting_of_succeeded (hwoven.rearrange ?_) htally hrunning hsucceeded
      exact hready ▸ perm_in_hand n
    · -- only a turn lets the build succeed
      have hstatus := status_run (s := s) (b := { b with ready := before ++ after })
        fun a t hj => hturn ⟨a, t, hj⟩
      rw [hsucceeded] at hstatus
      rcases hstatus with hstatus | hstatus
      · cases hrunning.symm.trans hstatus.symm
      · cases hstatus
  | delay | deliver | expire => cases hrunning.symm.trans hsucceeded

theorem Attended.works (hp : s.project.Rooted) (h : Attended s b) (hcarries : Belt.Carries s b.belt)
    (hworks : Works s b b') : Attended s b' := by
  have hcourse := conveys_works hworks
  cases h with
  | runs running woven tally =>
    have hqueue : none ∉ b.queue := by
      obtain ⟨ps, hps | ⟨-, hended⟩⟩ := hcarries.queue
      · have hps : b.queue = ps.map some := hps
        simp [hps]
      · exact absurd running hended
    cases hstatus : b'.status with
    | running =>
      exact .runs hstatus ((weaves_works hp hqueue hworks hstatus).woven woven)
        (tally.works woven hqueue hworks hstatus)
    | failed => exact .lost (hcarries.lost hcourse running hstatus)
    | succeeded =>
      exact .rests (by rw [hstatus]; nofun) (resting_of_works woven tally running hworks hstatus)
  | rests ended resting => exact .rests (hcourse.kept.2.2.2 ended) (resting.works hworks)
  | lost lost => exact .lost (lost.course hcourse)

theorem Resting.touches (h : Resting b) (htouches : Touches s b b') (hunasked : Unasked b') :
    Resting b' := by
  cases htouches with
  | arrive item =>
    unfold arrive
    dsimp only
    split
    · refine ⟨Silent.schedule ?_ 0 not_false, h.worklist⟩
      exact ⟨h.waiting, h.ready⟩
    · exact ⟨⟨h.waiting, h.ready⟩, h.worklist⟩
  | ask url => exact absurd hunasked (Unasked.not_ask url)
  | push ctx url => exact ⟨h.toSilent.push ctx url, (calm_push b ctx url).worklist.trans h.worklist⟩
  | register f => exact h.register f
  | analyze p => exact absurd hunasked (Unasked.not_analyze p)
  | note => exact ⟨⟨h.waiting, h.ready⟩, h.worklist⟩

/-- What somebody outside does to a running build that is none of the crawls' business. -/
theorem Attended.still (hrunning : b.status = .running) (hwoven : Woven s b) (htally : Tally b)
    {fs : Table Text File} (hcalm : Calm s { b with files := fs } b') (hstill : Still s b b') :
    Attended s b' :=
  .runs (hcalm.status.trans hrunning) ((weaves_still hcalm hstill).woven hwoven) (htally.calm hcalm)

theorem Attended.touches (h : Attended s b) (htouches : Touches s b b') (hunasked : Unasked b') :
    Attended s b' := by
  have hcourse := conveys_touches htouches
  cases h with
  | lost lost => exact .lost (lost.course hcourse)
  | rests ended resting =>
    exact .rests (hcourse.kept.2.2.2 ended) (resting.touches htouches hunasked)
  | runs running woven tally =>
    cases htouches with
    | arrive item =>
      have hwoven := (weaves_arrive (s := s) item).woven woven
      unfold arrive at hwoven ⊢
      dsimp only at hwoven ⊢
      split
      · rename_i hidle
        rw [if_pos hidle] at hwoven
        exact .runs running hwoven (tally.same rfl rfl rfl rfl)
      · rename_i hbusy
        rw [if_neg hbusy] at hwoven
        exact .runs running hwoven (tally.same rfl rfl rfl rfl)
    | ask url => exact absurd hunasked (Unasked.not_ask url)
    | push ctx url => exact .still running woven tally (calm_push b ctx url) (still_push b ctx url)
    | register f =>
      rcases register_cases (s := s) b f with hcalm | hdone
      · exact .still running woven tally hcalm (still_register b f)
      · obtain ⟨u, -, hcalm⟩ := register_eq (Prod.ext rfl hdone : b.register s f = (_, none))
        exact .still running woven tally hcalm (still_register b f)
    | analyze p => exact absurd hunasked (Unasked.not_analyze p)
    | note ctx l m => exact .still running woven tally (calm_note b ctx l m) (still_note b ctx l m)

/-- A build that was not started has no crawls. -/
theorem Asleep.attended (h : Asleep b) (hdormant : Dormant s b) : Woven s b ∧ Tally b := by
  have hnone : ∀ (a : Nat) (x : Analysis importer), b.analyses[a]? ≠ some x := fun a x hx => by
    rw [hdormant.analyses] at hx
    cases hx
  have hroll : b.roll = [] := by
    unfold roll
    rw [hdormant.analyses]
    rfl
  have hadmits : ∀ y ∈ b.ready, b.Admits y.2 := fun ⟨n, j⟩ hy => by
    have hj : ¬ j.Asks := h.ready (n, j) hy
    cases j with
    | begin | turn | load | expire => exact absurd trivial hj
    | pumpSources | closeSources | pumpDependencies | deliver | loaded => trivial
  refine ⟨⟨fun w hw => ?_, hadmits, fun a x hx => absurd hx (hnone a x),
    fun a _ => flight_of_silent h.toSilent a, fun a x hx => absurd hx (hnone a x),
    fun a x hx => absurd hx (hnone a x)⟩, ⟨?_, ?_, ?_, h.worklist, fun hexhausted => ?_⟩⟩
  · rw [h.waiting] at hw
    cases hw
  · rw [h.claimed, hroll]
    rfl
  · rw [h.claimed]
    exact List.nodup_nil
  · rw [hroll]
    nofun
  · rw [h.exhausted] at hexhausted
    cases hexhausted

theorem Asleep.start (h : Asleep b) (hdormant : Dormant s b) (hfirst : b.started = false) :
    Attended s (b.start s).1 := by
  obtain ⟨hwoven, htally⟩ := h.attended hdormant
  have hsame : Weaves s b { b with started := true } := weaves_same rfl rfl rfl rfl rfl
  have hwoven := hsame.woven hwoven
  have htally : Tally ({ b with started := true } : Build importer) := htally.same rfl rfl rfl rfl
  unfold Build.start
  rw [if_neg (by simp [hfirst])]
  dsimp only
  split
  · exact .runs hdormant.status hwoven htally
  · rename_i extras hextras
    have hcalm := calm_enqueueExtras (s := s) { b with started := true }
      fun q hq => (.inr ⟨extras, hextras, hq⟩ : Origin s q)
    have hstill := still_enqueueExtras (s := s) { b with started := true } extras
    split
    · rename_i heq
      rw [heq] at hcalm hstill
      exact Attended.still (b := { b with started := true }) hdormant.status hwoven htally hcalm hstill
    · rename_i b₁ heq
      rw [heq] at hcalm hstill
      have hworklist : ((b₁.schedule 0 .pumpSources).schedule 0 .pumpDependencies).worklist ≠ [] := by
        change b₁.worklist ≠ []
        rw [hcalm.worklist]
        exact h.worklist
      dsimp only
      -- The entries are still to be analyzed, so the build does not complete at its start.
      rw [if_neg (mt List.isEmpty_iff.1 hworklist)]
      have hsources : Weaves s b₁ (b₁.schedule 0 .pumpSources) :=
        weaves_schedule _ 0 (fun _ => rfl) (by trivial)
      have hpumps := hsources.trans
        (weaves_schedule (j := .pumpDependencies) _ 0 (fun _ => rfl) (by trivial))
      exact .runs (hcalm.status.trans hdormant.status)
        (hpumps.woven ((weaves_still hcalm hstill).woven hwoven))
        ((htally.calm hcalm).same rfl rfl rfl rfl)

theorem Launched.attended (hp : s.project.Rooted) (h : Launched s b) (hunasked : Unasked b) :
    Attended s b := by
  induction h with
  | @start b hreached hfirst hnone =>
    have hdormant := Reached.dormant hreached hfirst hnone
    have hunasked : Unasked b := by
      refine hunasked.of_kept ?_ (start_kept b).2
      change b.analyses.map (·.client) <+: _
      rw [hnone]
      exact List.nil_prefix
    exact (Reached.asleep hreached hfirst hunasked hnone).start hdormant hfirst
  | @next b b' hlaunched hmoves ih =>
    obtain ⟨hstarted, hcarries⟩ := hlaunched.carries
    have hcourse := hmoves.course hstarted
    have hattended := ih (hunasked.of_kept hcourse.kept.2.1 hcourse.kept.2.2.1)
    cases hmoves with
    | start =>
      rw [start_of_started hstarted]
      exact hattended
    | step hstep =>
      exact hstep.elim (hattended.works hp hcarries) fun htouches => hattended.touches htouches hunasked
    | close =>
      cases hattended with
      | runs running =>
        refine .lost ?_
        rw [belt_cancel]
        exact ⟨Belt.stopped_cancel _, fun hended => (hcarries.ended hended).2.1 running⟩
      | rests ended resting => exact .rests ended ⟨resting.toSilent.cancel none, resting.worklist⟩
      | lost lost => exact .lost (lost.course hcourse)

end

end Build
end HtmlDeps
