import HtmlDeps.Proofs.Build.Cases
import HtmlDeps.Proofs.Build.Step

/-!
# Builds in which nobody asks

Files are asked for by the crawls of the analyses and by somebody outside.  Where no such job is ready and
nobody waits for an answer (`Silent`), a pump cannot change that by itself, unless it starts an analysis;
and with an empty worklist it has none to start.
-/

namespace HtmlDeps

/-- A job by which somebody asks for a file, now or later. -/
def Job.Asks {C : Crawler} : Job C → Prop
  | .begin _ | .turn _ _ | .load _ _ | .expire _ => True
  | _ => False

namespace Build

variable {C : Crawler} {s : Setup} {b b' : Build C}

/-- Nobody asks for a file or waits for one. -/
structure Silent (b : Build C) : Prop where
  waiting : b.waiting = []
  ready : ∀ y ∈ b.ready, ¬ y.2.Asks

theorem Silent.of_eq (h : Silent b) (hwaiting : b'.waiting = b.waiting)
    (hready : ∀ y ∈ b'.ready, y ∈ b.ready ∨ ¬ y.2.Asks) : Silent b' :=
  ⟨hwaiting.trans h.waiting, fun y hy => (hready y hy).elim (h.ready y) id⟩

theorem Silent.note (h : Silent b) (ctx : Log.Fields) (l : Log.Level) (m : Text) :
    Silent (b.note ctx l m) := h.of_eq rfl fun _ hy => .inl hy

theorem Silent.schedule (h : Silent b) (n : Nat) {j : Job C} (hj : ¬ j.Asks) : Silent (b.schedule n j) :=
  ⟨h.waiting, List.forall_mem_append.2 ⟨h.ready, List.forall_mem_singleton.2 hj⟩⟩

theorem Silent.goOn (h : Silent b) {j : Job C} (hj : ¬ j.Asks) : Silent (b.goOn j) :=
  ⟨h.waiting, List.forall_mem_cons.2 ⟨hj, h.ready⟩⟩

/-- There is nobody to be woken. -/
theorem Silent.wake (h : Silent b) (n : Nat) (t : Text) : Silent (b.wake s n t) := by
  unfold Build.wake
  rw [h.waiting]
  exact ⟨rfl, by simpa using h.ready⟩

theorem Silent.release (h : Silent b) (p : Path) : Silent (b.release s p) := by
  unfold Build.release
  split
  · exact h
  · refine Silent.wake ?_ _ _
    exact ⟨h.waiting, h.ready⟩

theorem Silent.register (h : Silent b) (f : File) : Silent (b.register s f).1 := by
  have hnote := h.note s.context .debug ("register_file: " ++ f.path.normal.toText)
  unfold Build.register
  dsimp only
  split
  · exact hnote
  · split
    · refine Silent.wake ?_ _ _
      exact ⟨h.waiting, h.ready⟩
    · exact ⟨h.waiting, h.ready⟩

theorem Silent.enqueue (h : Silent b) (item : Option Path) : Silent (b.enqueue item) := by
  unfold Build.enqueue
  dsimp only
  split
  · refine Silent.schedule ?_ 0 not_false
    exact ⟨h.waiting, h.ready⟩
  · exact ⟨h.waiting, h.ready⟩

theorem Silent.enqueueUrl (h : Silent b) (ctx : Log.Fields) (u : Text) (p : Path) :
    Silent (b.enqueueUrl ctx u p) := by
  unfold Build.enqueueUrl
  split
  · exact h
  · refine Silent.enqueue ?_ _
    exact ⟨h.waiting, h.ready⟩

theorem Silent.push (h : Silent b) (ctx : Log.Fields) (url : Text) : Silent (b.push s ctx url).1 := by
  have hpushed := push_cases (s := s) b ctx url
  generalize b.push s ctx url = r at hpushed ⊢
  cases hpushed with
  | ended | known | source => exact h.note _ _ _
  | unclear => exact h
  | unreachable text => exact (((h.note ctx .debug text).note ctx .debug _).release _)
  | dependency => exact h.enqueueUrl _ _ _

theorem Silent.releaseSources (h : Silent b) (ps : List Path) : Silent (b.releaseSources s ps).1 := by
  induction ps generalizing b with
  | nil => exact h
  | cons p ps ih =>
    unfold Build.releaseSources
    split
    · exact h
    · exact ih ((h.note _ _ _).release p)
    · exact ih h

theorem Silent.foldl_note (h : Silent b) (ctx : Log.Fields) (l : Log.Level) (us : List Text)
    (text : Text → Text) : Silent (us.foldl (fun b u => b.note ctx l (text u)) b) := by
  induction us generalizing b with
  | nil => exact h
  | cons u us ih => exact ih (h.note ctx l (text u))

/-! ### Ends -/

theorem Silent.cancel (h : Silent b) (current : Option Nat) : Silent (b.cancel current) := by
  refine ⟨?_, fun y hy => h.ready y (List.mem_filter.1 hy).1⟩
  unfold Build.cancel
  rw [h.waiting]
  rfl

theorem Silent.fail (h : Silent b) (current : Option Nat) (f : Failure) : Silent (b.fail s current f) := by
  unfold Build.fail
  split
  · exact h
  · refine Silent.cancel ?_ current
    exact ⟨h.waiting, h.ready⟩

theorem Silent.succeed (h : Silent b) : Silent (b.succeed s) := by
  unfold Build.succeed
  dsimp only
  have hqueued : ∀ b : Build C, Silent b → Silent (if b.sourcePump = .closing then
      { b with sourcePump := .working }.schedule 0 .closeSources else b) := by
    intro b hb
    split
    · refine Silent.schedule ?_ 0 not_false
      exact ⟨hb.waiting, hb.ready⟩
    · exact hb
  refine hqueued _ (Silent.enqueue ?_ none)
  exact ⟨h.waiting, h.ready⟩

theorem Silent.complete (h : Silent b) (current : Option Nat) : Silent (b.complete s current) := by
  obtain ⟨log, hlog⟩ := noteAll_eq s.context (Warnings.printed b.warnings) b
  have hnoted : Silent ({ b with log := log } : Build C) := ⟨h.waiting, h.ready⟩
  unfold Build.complete
  rw [hlog]
  split
  · exact h
  · dsimp only
    split
    · exact hnoted.fail _ _
    · split
      · exact hnoted.succeed
      · exact (hnoted.foldl_note _ _ _ (· ++ " never loaded")).fail _ _

/-! ### The pumps of a build whose worklist is empty -/

/-- All fragments were analyzed, and nobody asks for anything. -/
structure Resting (b : Build C) : Prop extends Silent b where
  worklist : b.worklist = []

theorem worklist_fail (b : Build C) (current : Option Nat) (f : Failure) :
    (b.fail s current f).worklist = b.worklist := by
  unfold fail
  split <;> rfl

theorem Resting.fail (h : Resting b) (current : Option Nat) (f : Failure) : Resting (b.fail s current f) :=
  ⟨h.toSilent.fail current f, (worklist_fail b current f).trans h.worklist⟩

theorem Resting.crash (h : Resting b) (current : Option Nat) (f : Fault) :
    Resting (b.crash s current f) := by
  refine Resting.fail ?_ current (.fault f)
  exact ⟨⟨h.waiting, h.ready⟩, h.worklist⟩

theorem worklist_register (b : Build C) (f : File) : (b.register s f).1.worklist = b.worklist := by
  rcases register_cases (s := s) b f with hcalm | hnone
  · exact hcalm.worklist
  · obtain ⟨u, -, hcalm⟩ := register_eq (Prod.ext rfl hnone : b.register s f = (_, none))
    exact hcalm.worklist

theorem Resting.register (h : Resting b) (f : File) : Resting (b.register s f).1 :=
  ⟨h.toSilent.register f, (worklist_register b f).trans h.worklist⟩

/-- No fragment is left to be started. -/
theorem Resting.claim (h : Resting b) (f : File) : b.claim f = b := by
  unfold Build.claim
  exact if_neg fun hclaim => absurd (h.worklist ▸ hclaim.1) List.not_mem_nil

theorem Resting.takeSource (h : Resting b) (f : File) : Resting (b.takeSource s f).1 := by
  have hregister := h.register (s := s) f
  unfold Build.takeSource
  split
  · rename_i heq
    rwa [heq] at hregister
  · rename_i heq
    rw [heq] at hregister
    dsimp only
    rw [hregister.claim]
    split
    · exact hregister
    · exact ⟨⟨hregister.waiting, hregister.ready⟩, hregister.worklist⟩

theorem Resting.takeDependency (h : Resting b) (f : File) : Resting (b.takeDependency s f).1 := by
  have hregister := h.register (s := s) f
  unfold Build.takeDependency
  split
  · rename_i heq
    rwa [heq] at hregister
  · rename_i heq
    rw [heq] at hregister
    dsimp only
    rw [hregister.claim]
    split
    · exact hregister
    · exact ⟨⟨hregister.waiting, hregister.ready⟩, hregister.worklist⟩

theorem Resting.closeSources (h : Resting b) : Resting b.closeSources := by
  unfold Build.closeSources
  dsimp only
  split
  · exact ⟨⟨h.waiting, h.ready⟩, h.worklist⟩
  · exact ⟨⟨h.waiting, h.ready⟩, h.worklist⟩

theorem Resting.exhaust (h : Resting b) : Resting (b.exhaust s) := by
  have hmissing : ({ b with exhausted := true } : Build C).missing = [] := by
    unfold missing
    rw [h.worklist, List.filter_nil, List.map_nil]
    exact List.mergeSort_nil
  unfold Build.exhaust
  dsimp only
  rw [hmissing]
  have hrelease := Silent.releaseSources (s := s) (b := { b with exhausted := true })
    ⟨h.waiting, h.ready⟩ b.waitlist.keys
  have hcalm := calm_releaseSources (s := s) { b with exhausted := true } b.waitlist.keys
  dsimp only
  split
  · rename_i b₁ f heq
    rw [heq] at hrelease hcalm
    refine Resting.crash ?_ none f
    exact ⟨⟨hrelease.waiting, hrelease.ready⟩, hcalm.worklist.trans h.worklist⟩
  · rename_i b₁ heq
    rw [heq] at hrelease hcalm
    have hrest : Resting b₁ := ⟨hrelease, hcalm.worklist.trans h.worklist⟩
    split
    · exact ⟨⟨hrest.waiting, hrest.ready⟩, hrest.worklist⟩
    · exact hrest.closeSources

theorem Resting.pumpSources (h : Resting b) : Resting (b.pumpSources s) := by
  unfold Build.pumpSources
  split
  · exact ⟨⟨h.waiting, h.ready⟩, h.worklist⟩
  · rename_i item rest _
    have hrest : Resting ({ b with incoming := rest } : Build C) :=
      ⟨⟨h.waiting, h.ready⟩, h.worklist⟩
    dsimp only
    split
    · exact hrest.exhaust
    · refine Resting.crash ?_ none _
      exact ⟨⟨h.waiting, h.ready⟩, h.worklist⟩
    · rename_i f _
      have htake := hrest.takeSource (s := s) f
      split
      · exact ⟨⟨h.waiting, h.ready⟩, h.worklist⟩
      · split
        · rename_i heq
          rw [heq] at htake
          refine Resting.crash ?_ none _
          exact ⟨⟨htake.waiting, htake.ready⟩, htake.worklist⟩
        · rename_i heq
          rw [heq] at htake
          exact ⟨htake.toSilent.goOn not_false, htake.worklist⟩

theorem Resting.deliver (h : Resting b) (p : Path) : Resting (b.deliver s p) := by
  cases hread : s.read p with
  | error f =>
    obtain ⟨log, e, -, hdeliver⟩ := b.deliver_of_error hread
    rw [hdeliver]
    refine Resting.fail ?_ none e
    exact ⟨⟨h.waiting, h.ready⟩, h.worklist⟩
  | ok contents =>
    simp only [Build.deliver, hread]
    have htake := h.takeDependency (s := s) ⟨p, contents⟩
    split
    · rename_i heq
      rw [heq] at htake
      refine Resting.crash ?_ none _
      exact ⟨⟨htake.waiting, htake.ready⟩, htake.worklist⟩
    · rename_i heq
      rw [heq] at htake
      exact ⟨⟨htake.waiting, List.forall_mem_cons.2 ⟨not_false, htake.ready⟩⟩, htake.worklist⟩

theorem Resting.pumpDependencies (h : Resting b) : Resting (b.pumpDependencies s) := by
  unfold Build.pumpDependencies
  split
  · exact ⟨⟨h.waiting, h.ready⟩, h.worklist⟩
  · dsimp only
    split
    · exact ⟨⟨h.waiting, h.ready⟩, h.worklist⟩
    · exact ⟨⟨h.waiting, h.ready⟩, h.worklist⟩
  · dsimp only
    split
    · exact ⟨⟨h.waiting, h.ready⟩, h.worklist⟩
    · refine Resting.deliver ?_ _
      exact ⟨⟨h.waiting, h.ready⟩, h.worklist⟩

theorem Resting.run (h : Resting b) {j : Job C} (hj : ¬ j.Asks) : Resting (b.run s j) := by
  cases j with
  | pumpSources => exact h.pumpSources
  | closeSources => exact h.closeSources
  | pumpDependencies => exact h.pumpDependencies
  | deliver p => exact h.deliver p
  | loaded n answer => exact ⟨⟨h.waiting, h.ready⟩, h.worklist⟩
  | begin | turn | load | expire => exact absurd trivial hj

theorem Resting.works (h : Resting b) (hworks : Works s b b') : Resting b' := by
  cases hworks with
  | @job before after rounds j hready =>
    have hmem : (rounds, j) ∈ b.ready := hready ▸ List.mem_append_right _ List.mem_cons_self
    have hj : ¬ j.Asks := h.ready _ hmem
    refine Resting.run ?_ hj
    refine ⟨⟨h.waiting, fun y hy => h.ready y ?_⟩, h.worklist⟩
    exact hready ▸ (List.mem_append.1 hy).elim (List.mem_append_left _)
      fun hy => List.mem_append_right _ (List.mem_cons_of_mem _ hy)
  | @delay rest rounds j hready =>
    have hj : ¬ j.Asks := h.ready (rounds + 1, j) (hready ▸ List.mem_cons_self)
    refine ⟨⟨h.waiting, List.forall_mem_append.2 ⟨fun y hy => ?_, List.forall_mem_singleton.2 hj⟩⟩,
      h.worklist⟩
    exact h.ready y (hready ▸ List.mem_cons_of_mem _ hy)
  | deliver _ _ =>
    refine ⟨Silent.schedule ?_ 0 not_false, h.worklist⟩
    exact ⟨h.waiting, h.ready⟩
  | expire _ hwaiting =>
    rw [h.waiting] at hwaiting
    exact absurd hwaiting.symm (by simp)

end Build
end HtmlDeps
