import HtmlDeps.Proofs.Build.Stocked

/-!
# Fed runs

What holds in all states of a fed run (`Orderly`): the paths are regular, the end of the build is
sound, a running build has its crawls in order and has sent what it registered, and an index that was
given out is closed.
-/

namespace HtmlDeps.Build

variable {s : Setup} {b b' b₀ : Build importer} {rest items : List Arrival}

structure Orderly (s : Setup) (b : Build importer) : Prop where
  placed : Placed s b
  sound : Sound b
  woven : b.status = .running → Woven s b
  stocked : b.status = .running → Stocked s b
  closed : ∀ i, b.outcome = some (.ok i) → Closed s b i

/-- An index that was given out before stays closed. -/
theorem Orderly.closed_of_keeps (h : Orderly s b) (hkeeps : Keeps s b b') (hcourse : Course b b')
    (hsucceeded : b.status = .running → b'.status = .succeeded → Closed s b' b'.index) :
    ∀ i, b'.outcome = some (.ok i) → Closed s b' i := by
  intro i hi
  rcases hcourse.verdict.outcome hi with hold | ⟨hrunning, hstatus⟩
  · exact (h.closed i hold).keeps hkeeps
  · rw [(hcourse.sound.index i hi).1]
    exact hsucceeded hrunning hstatus

section

variable (hp : s.project.Rooted) (horigin : ∀ p, Origin s p → s.project.Regular p)

include hp horigin

theorem Orderly.job (h : Orderly s b) {before after : List (Nat × Job importer)} {n : Nat}
    {j : Job importer} (hready : b.ready = before ++ (n, j) :: after) :
    Orderly s ({ b with ready := before ++ after }.run s j) := by
  have hworks : Works s b ({ b with ready := before ++ after }.run s j) := .job hready
  have hcourse := h.sound.works hworks
  have hkeeps := h.placed.works horigin hworks
  have hhand : Weaves s b (Build.goOn { b with ready := before ++ after } j) :=
    weaves_rearrange (hready ▸ perm_in_hand n)
  have hplaced : Placed s (Build.goOn { b with ready := before ++ after } j) := by
    refine ⟨h.placed.sent, h.placed.incoming, h.placed.queue, h.placed.reads, fun k p hk => ?_⟩
    rcases List.mem_cons.1 hk with hk | hk
    · exact h.placed.ready n p (by simp [hready, (Prod.mk.inj hk).2])
    · refine h.placed.ready k p ?_
      rw [hready]
      exact (List.mem_append.1 hk).elim (List.mem_append_left _)
        fun h => List.mem_append_right _ (List.mem_cons_of_mem _ h)
  have hstocked : b.status = .running → Stocked s { b with ready := before ++ after } :=
    fun hrunning => (h.stocked hrunning).same (fun _ hu => hu) rfl rfl rfl
  refine ⟨hkeeps.placed h.placed, hcourse.sound, fun hrunning => ?_, fun hrunning => ?_,
    h.closed_of_keeps hkeeps hcourse fun hrunning hsucceeded => ?_⟩
  · have hold := hcourse.verdict.running hrunning
    exact (weaves_works hp (h.sound.queue hold) hworks hrunning).woven (h.woven hold)
  · have hold := hcourse.verdict.running hrunning
    exact (hstocked hold).run hp (hhand.woven (h.woven hold)) hplaced (h.sound.queue hold) hrunning
  · -- only a turn lets the build succeed
    by_cases hturn : ∃ a t, j = .turn a t
    · obtain ⟨a, t, rfl⟩ := hturn
      exact (hstocked hrunning).closed (hhand.woven (h.woven hrunning)) horigin hrunning hsucceeded
    · have hstatus := status_run (s := s) (b := { b with ready := before ++ after })
        fun a t hj => hturn ⟨a, t, hj⟩
      rw [hsucceeded] at hstatus
      rcases hstatus with hstatus | hstatus
      · exact absurd (hrunning.symm.trans hstatus.symm) nofun
      · cases hstatus

theorem Orderly.works (h : Orderly s b) (hworks : Works s b b') : Orderly s b' := by
  have hcourse := h.sound.works hworks
  have hkeeps := h.placed.works horigin hworks
  have hweaves : b.status = .running → b'.status = .running → Weaves s b b' :=
    fun hold => weaves_works hp (h.sound.queue hold) hworks
  have hother : b'.status = b.status → b'.files = b.files → b'.sent = b.sent →  -- the steps that are no jobs
      b'.index = b.index → Orderly s b' := by
    intro hstatus hfiles hsent hindex
    refine ⟨hkeeps.placed h.placed, hcourse.sound, fun hrunning => ?_, fun hrunning => ?_,
      h.closed_of_keeps hkeeps hcourse fun hrunning hsucceeded => ?_⟩
    · have hold := hstatus ▸ hrunning
      exact (hweaves hold hrunning).woven (h.woven hold)
    · have hold := hstatus ▸ hrunning
      exact (h.stocked hold).same ((hweaves hold hrunning).sought (h.woven hold)) hfiles hsent hindex
    · rw [hstatus, hrunning] at hsucceeded
      cases hsucceeded
  cases hworks with
  | job hready => exact h.job hp horigin hready
  | delay hready => exact hother rfl rfl rfl rfl
  | deliver hpending hreads => exact hother rfl rfl rfl rfl
  | expire htimeout hwaiting => exact hother rfl rfl rfl rfl

end

theorem Orderly.arrive (h : Orderly s b) (item : Arrival)
    (hitem : ∀ f, item = .file f → s.project.Regular f.path) : Orderly s (b.arrive item) := by
  have hquiet := h.sound.touches (s := s) (.arrive b item)
  have hstatus : (b.arrive item).status = b.status := congrArg Verdict.status hquiet.verdict
  have hkeeps := keeps_arrive b item hitem
  have hsame : (b.arrive item).files = b.files ∧ (b.arrive item).sent = b.sent ∧
      (b.arrive item).index = b.index := by
    unfold Build.arrive
    dsimp only
    split <;> exact ⟨rfl, rfl, rfl⟩
  refine ⟨hkeeps.placed h.placed, hquiet.sound, fun hrunning => ?_, fun hrunning => ?_,
    fun i hi => ?_⟩
  · exact (weaves_arrive item).woven (h.woven (hstatus ▸ hrunning))
  · have hold := hstatus ▸ hrunning
    exact (h.stocked hold).same ((weaves_arrive item).sought (h.woven hold)) hsame.1 hsame.2.1
      hsame.2.2
  · exact (h.closed i ((congrArg Verdict.outcome hquiet.verdict).symm.trans hi)).keeps hkeeps

theorem Orderly.note (h : Orderly s b) (ctx : Log.Fields) (l : Log.Level) (m : Text) :
    Orderly s (b.note ctx l m) := by
  have hquiet := h.sound.touches (s := s) (.note b ctx l m)
  have hweaves : Weaves s b (b.note ctx l m) := weaves_still (calm_note b ctx l m) (still_note b ctx l m)
  have hkeeps := keeps_note (s := s) b ctx l m
  exact ⟨hkeeps.placed h.placed, hquiet.sound, fun hrunning => hweaves.woven (h.woven hrunning),
    fun hrunning => (h.stocked hrunning).same (hweaves.sought (h.woven hrunning)) rfl rfl rfl,
    fun i hi => (h.closed i hi).keeps hkeeps⟩

theorem orderly_start (horigin : ∀ p, Origin s p → s.project.Regular p)
    (hstart : (initial importer s.project).start s = (b₀, none)) : Orderly s b₀ := by
  have hcourse := (sound_initial importer s.project).start (s := s)
  rw [hstart] at hcourse
  have hsound : Sound b₀ := hcourse.sound
  obtain ⟨ps, b₁, hextras, henqueue, rfl⟩ := start_eq hstart
  have hcalm := calm_enqueueExtras { initial importer s.project with started := true }
    fun q hq => (.inr ⟨ps, hextras, hq⟩ : Origin s q)
  have hstill := still_enqueueExtras (s := s) { initial importer s.project with started := true } ps
  rw [henqueue] at hcalm hstill
  have hplaced : Placed s b₁ := (keeps_calm horigin hcalm).placed ⟨nofun, nofun, nofun, nofun, nofun⟩
  -- There are no analyses yet, so all that is said of one holds for want of any.
  have hnone : ∀ (a : Nat) (x : Analysis importer),
      (initial importer s.project).analyses[a]? ≠ some x := fun a x hx =>
    absurd (List.getElem?_nil.symm.trans hx) nofun
  have hnobody : Woven s { initial importer s.project with started := true } :=
    ⟨nofun, nofun, fun a x hx => absurd hx (hnone a x), fun _ _ => rfl,
      fun a x hx => absurd hx (hnone a x), fun a x hx => absurd hx (hnone a x)⟩
  have hwoven : Woven s b₁ := (weaves_still hcalm hstill).woven hnobody
  have hempty : Stocked s { initial importer s.project with started := true } := by
    refine ⟨fun u hu => ?_, fun x hx => ?_⟩
    · exact absurd hu (by simp [initial, Table.has, Table.get?_nil])
    · exact absurd hx List.not_mem_nil
  have hstocked : Stocked s b₁ := hempty.calm hstill.sought hcalm
  have hpump : Keeps s b₁ (b₁.schedule 0 .pumpSources) :=
    keeps_schedule _ 0 (by rintro _ ⟨⟩)
  have hkeeps := hpump.trans (keeps_schedule (j := .pumpDependencies) _ 0 (by rintro _ ⟨⟩))
  have hwoven' : Weaves s b₁ (b₁.schedule 0 .pumpSources) :=
    weaves_schedule _ 0 (fun _ => rfl) (by trivial)
  have hweaves := hwoven'.trans (weaves_schedule (j := .pumpDependencies) _ 0 (fun _ => rfl) (by trivial))
  have hstocked' : Stocked s ((b₁.schedule 0 .pumpSources).schedule 0 .pumpDependencies) :=
    hstocked.same (fun _ hu => hu) rfl rfl rfl
  refine ⟨hkeeps.placed hplaced, hsound, fun _ => hweaves.woven hwoven, fun _ => hstocked',
    fun i hi => ?_⟩
  have hnone : b₁.outcome = none := hcalm.outcome
  cases hnone.symm.trans hi

/-- All states of a fed run are orderly. -/
theorem Fed.orderly (hp : s.project.Rooted) (horigin : ∀ p, Origin s p → s.project.Regular p)
    (hstart : (initial importer s.project).start s = (b₀, none))
    (hitems : ∀ f, .file f ∈ items → s.project.Regular f.path) (h : Fed s b₀ items b rest) :
    Orderly s b ∧ ∀ f, .file f ∈ rest → s.project.Regular f.path := by
  induction h with
  | start => exact ⟨orderly_start horigin hstart, hitems⟩
  | works _ hstep ih => exact ⟨ih.1.works hp horigin hstep, ih.2⟩
  | @arrive b item rest _ ih =>
    refine ⟨ih.1.arrive item fun f hf => ?_, fun f hf => ih.2 f (List.mem_cons_of_mem _ hf)⟩
    exact ih.2 f (hf ▸ List.mem_cons_self)
  | note _ ctx l m ih => exact ⟨ih.1.note ctx l m, ih.2⟩

end HtmlDeps.Build
