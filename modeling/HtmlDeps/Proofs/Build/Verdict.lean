import Mathlib.Data.List.Basic
import HtmlDeps.Build.State

/-!
# The verdict on a build

Three parties learn how a build ends: the readers of the two streams and those who wait for the
index.  Their verdict changes in four ways only (`Verdict.Step`).  Once both streams are closed, the
three agree exactly if no fault struck between the success of the build and the end of a stream
(`Verdict.Trace.agrees_iff_never_late`).
-/

namespace HtmlDeps

/-- Somewhere on a run, whose states are listed the last one first, there is a step of this kind. -/
def Somewhere {σ : Type} (kind : σ → σ → Prop) (trace : List σ) : Prop :=
  ∃ x y, [y, x] <:+: trace ∧ kind x y

section

variable {σ τ : Type} {kind : σ → σ → Prop}

theorem not_somewhere_singleton (kind : σ → σ → Prop) (x : σ) : ¬ Somewhere kind [x] := by
  rintro ⟨y, z, hinfix, -⟩
  have := hinfix.length_le
  simp at this

theorem somewhere_cons {x y : σ} {past : List σ} :
    Somewhere kind (y :: x :: past) ↔ kind x y ∨ Somewhere kind (x :: past) := by
  constructor
  · rintro ⟨x', y', hinfix, hkind⟩
    rcases List.infix_cons_iff.1 hinfix with hprefix | hinfix
    · obtain ⟨rest, hrest⟩ := hprefix
      simp only [List.cons_append, List.cons.injEq] at hrest
      obtain ⟨rfl, rfl, -⟩ := hrest
      exact .inl hkind
    · exact .inr ⟨x', y', hinfix, hkind⟩
  · rintro (hkind | ⟨x', y', hinfix, hkind⟩)
    · exact ⟨x, y, ⟨[], past, rfl⟩, hkind⟩
    · exact ⟨x', y', hinfix.trans (List.suffix_cons y _).isInfix, hkind⟩

theorem somewhere_map {f : τ → σ} {trace : List τ} :
    Somewhere kind (trace.map f) ↔ Somewhere (fun x y => kind (f x) (f y)) trace := by
  induction trace with
  | nil =>
    constructor <;> rintro ⟨x, y, hinfix, -⟩ <;> simp at hinfix
  | cons y past ih =>
    cases past with
    | nil => exact iff_of_false (not_somewhere_singleton _ _) (not_somewhere_singleton _ _)
    | cons x past =>
      rw [List.map_cons, List.map_cons, somewhere_cons, somewhere_cons]
      exact or_congr_right ih

end

/-- What can be seen of how a build ends. -/
structure Verdict where
  status : Status
  sources : Option (Ending Failure)
  dependencies : Option (Ending Failure)
  outcome : Option (Except Failure Index)
deriving DecidableEq

namespace Verdict

/-- Nothing has ended yet. -/
def start : Verdict := ⟨.running, none, none, none⟩

/-- How a verdict changes.  A stream that is closed stays as it is, and so does an outcome. -/
inductive Step : Verdict → Verdict → Prop
  | stay (v : Verdict) : Step v v
  | succeed {v : Verdict} (i : Index) (h : v.status = .running) :
      Step v { v with status := .succeeded, outcome := some (.ok i) }
  | endSources {v : Verdict} (h : v.status = .succeeded) :
      Step v { v with sources := some (v.sources.getD .complete) }
  | endDependencies {v : Verdict} (h : v.status = .succeeded) :
      Step v { v with dependencies := some (v.dependencies.getD .complete) }
  | fail {v : Verdict} (f : Failure) (h : v.status ≠ .failed) :
      Step v ⟨.failed, some (v.sources.getD (.failed f)), some (v.dependencies.getD (.failed f)),
        some (v.outcome.getD (.error f))⟩

/-- All three parties see the same: a clean end and an index, or one and the same fault. -/
def Agrees (v : Verdict) : Prop :=
  (v.sources = some .complete ∧ v.dependencies = some .complete ∧ ∃ i, v.outcome = some (.ok i)) ∨
    ∃ f, v.sources = some (.failed f) ∧ v.dependencies = some (.failed f) ∧
      v.outcome = some (.error f)

/-- A fault strikes after the success, while a stream is still open. -/
def LateFault (v w : Verdict) : Prop :=
  v.status = .succeeded ∧ (v.sources = none ∨ v.dependencies = none) ∧ w.status = .failed

/-- The verdicts that can come about. -/
inductive Consistent : Verdict → Prop
  | running : Consistent ⟨.running, none, none, none⟩
  | succeeded {s d : Option (Ending Failure)} (i : Index) (hs : ∀ e ∈ s, e = .complete)
      (hd : ∀ e ∈ d, e = .complete) : Consistent ⟨.succeeded, s, d, some (.ok i)⟩
  | failed (f : Failure) :
      Consistent ⟨.failed, some (.failed f), some (.failed f), some (.error f)⟩
  | late {s d : Ending Failure} (i : Index) (f : Failure) (hs : s = .complete ∨ s = .failed f)
      (hd : d = .complete ∨ d = .failed f) : Consistent ⟨.failed, some s, some d, some (.ok i)⟩

theorem getD_complete {e : Option (Ending Failure)} (h : ∀ x ∈ e, x = .complete) (f : Failure) :
    e.getD (.failed f) = .complete ∨ e.getD (.failed f) = .failed f := by
  cases e with
  | none => exact .inr rfl
  | some x => exact .inl (h x rfl)

theorem eq_complete_of_mem {e : Option (Ending Failure)} (h : ∀ x ∈ e, x = .complete) :
    ∀ x ∈ some (e.getD .complete), x = .complete := by
  intro x hx
  obtain rfl := Option.mem_some.1 hx
  cases e with
  | none => rfl
  | some y => exact h y rfl

theorem Consistent.step {v w : Verdict} (hv : Consistent v) (h : Step v w) : Consistent w := by
  cases h with
  | stay => exact hv
  | succeed i hrunning =>
    cases hv with
    | running => exact .succeeded i (by simp) (by simp)
    | succeeded | failed | late => cases hrunning
  | endSources hsucceeded =>
    cases hv with
    | succeeded i hs hd => exact .succeeded i (eq_complete_of_mem hs) hd
    | running | failed | late => cases hsucceeded
  | endDependencies hsucceeded =>
    cases hv with
    | succeeded i hs hd => exact .succeeded i hs (eq_complete_of_mem hd)
    | running | failed | late => cases hsucceeded
  | fail f hopen =>
    cases hv with
    | running => exact .failed f
    | succeeded i hs hd => exact .late i f (getD_complete hs f) (getD_complete hd f)
    | failed | late => exact absurd rfl hopen

/-- A build that has failed is seen as before. -/
theorem Step.eq_of_failed {v w : Verdict} (h : Step v w) (hv : v.status = .failed) : w = v := by
  cases h with
  | stay => rfl
  | succeed _ hrunning => simp [hv] at hrunning
  | endSources hsucceeded | endDependencies hsucceeded => simp [hv] at hsucceeded
  | fail _ hopen => exact absurd hv hopen

theorem Step.running {v w : Verdict} (h : Step v w) (hw : w.status = .running) :
    v.status = .running := by
  cases h with
  | stay => exact hw
  | succeed _ hrunning => exact hrunning
  | endSources hsucceeded | endDependencies hsucceeded => exact absurd (hsucceeded.symm.trans hw) nofun
  | fail => cases hw

/-- An index is given out when a running build succeeds. -/
theorem Step.outcome {v w : Verdict} (h : Step v w) {i : Index} (hw : w.outcome = some (.ok i)) :
    v.outcome = some (.ok i) ∨ v.status = .running ∧ w.status = .succeeded := by
  cases h with
  | stay | endSources | endDependencies => exact .inl hw
  | succeed _ hrunning => exact .inr ⟨hrunning, rfl⟩
  | fail f =>
    cases houtcome : v.outcome with
    | none =>
      rw [houtcome] at hw
      cases hw
    | some o =>
      rw [houtcome] at hw
      exact .inl hw

/-- All agree on a fault that strikes a running build. -/
theorem Step.agrees_of_running {v w : Verdict} (hv : Consistent v) (h : Step v w)
    (hrunning : v.status = .running) (hw : w.status = .failed) : w.Agrees := by
  cases hv with
  | running =>
    cases h with
    | fail f => exact .inr ⟨f, rfl, rfl, rfl⟩
    | stay | succeed | endSources | endDependencies => cases hw
  | succeeded | failed | late => cases hrunning

/-- A fault after the success leaves all agreed exactly if both streams were closed. -/
theorem Step.agrees_iff_of_succeeded {v w : Verdict} (hv : Consistent v) (h : Step v w)
    (hsucceeded : v.status = .succeeded) (hw : w.status = .failed) :
    w.Agrees ↔ ¬ LateFault v w := by
  cases hv with
  | running | failed | late => cases hsucceeded
  | @succeeded sources dependencies i hs hd =>
    cases h with
    | stay | succeed | endSources | endDependencies => cases hw
    | fail f =>
      constructor
      · rintro hagrees ⟨-, hopen, -⟩
        rcases hagrees with ⟨hsources, hdependencies, -⟩ | ⟨g, -, -, houtcome⟩
        · rcases hopen with rfl | rfl
          · cases hsources
          · cases hdependencies
        · cases houtcome
      · intro hclosed
        refine .inl ⟨?_, ?_, i, rfl⟩
        · cases sources with
          | none => exact absurd ⟨rfl, .inl rfl, rfl⟩ hclosed
          | some e => exact congrArg some (hs e rfl)
        · cases dependencies with
          | none => exact absurd ⟨rfl, .inr rfl, rfl⟩ hclosed
          | some e => exact congrArg some (hd e rfl)

/-- The verdicts on a run, the last one first. -/
inductive Trace : List Verdict → Prop
  | start {v : Verdict} (h : Step start v) : Trace [v]
  | step {v w : Verdict} {past : List Verdict} (h : Trace (v :: past)) (hstep : Step v w) :
      Trace (w :: v :: past)

theorem Trace.consistent {v : Verdict} {past : List Verdict} (h : Trace (v :: past)) :
    Consistent v := by
  generalize htrace : v :: past = trace at h
  induction h generalizing v past with
  | start h =>
    obtain ⟨rfl, -⟩ := List.cons.inj htrace
    exact Consistent.running.step h
  | step h hstep ih =>
    obtain ⟨rfl, -⟩ := List.cons.inj htrace
    exact (ih rfl).step hstep

/-- What a run has come to: with a failed build, all agree unless the fault was late; before that,
none was. -/
theorem Trace.agrees_iff_of_failed {v : Verdict} {past : List Verdict} (h : Trace (v :: past)) :
    (v.status = .failed → (v.Agrees ↔ ¬ Somewhere LateFault (v :: past))) ∧
      (v.status ≠ .failed → ¬ Somewhere LateFault (v :: past)) := by
  generalize htrace : v :: past = trace at h
  induction h generalizing v past with
  | start h =>
    obtain ⟨rfl, rfl⟩ := List.cons.inj htrace
    have hnone := not_somewhere_singleton LateFault v
    exact ⟨fun hv => iff_of_true (h.agrees_of_running .running rfl hv) hnone, fun _ => hnone⟩
  | @step v' w past' h hstep ih =>
    obtain ⟨rfl, rfl⟩ := List.cons.inj htrace
    obtain ⟨hfailed, hopen⟩ := ih rfl
    have hconsistent := h.consistent
    rw [somewhere_cons]
    by_cases hv : v'.status = .failed  -- A failed build stays as it is; until then, no fault was late.
    · have hw := hstep.eq_of_failed hv
      have hlate : ¬ LateFault v' v := by
        rintro ⟨hsucceeded, -⟩
        rw [hv] at hsucceeded
        cases hsucceeded
      rw [hw] at hlate ⊢
      refine ⟨fun _ => ?_, fun h => absurd hv h⟩
      rw [hfailed hv]
      exact not_congr (or_iff_right hlate).symm
    · have hpast := hopen hv
      constructor
      · intro hw
        cases hstatus : v'.status with
        | failed => exact absurd hstatus hv
        | running =>
          have hlate : ¬ LateFault v' v := by
            rintro ⟨hsucceeded, -⟩
            rw [hstatus] at hsucceeded
            cases hsucceeded
          refine iff_of_true (hstep.agrees_of_running hconsistent hstatus hw) ?_
          rintro (h | h)
          · exact hlate h
          · exact hpast h
        | succeeded =>
          rw [hstep.agrees_iff_of_succeeded hconsistent hstatus hw]
          exact not_congr (or_iff_left hpast).symm
      · rintro hw (⟨-, -, hfault⟩ | h)
        · exact hw hfault
        · exact hpast h

/-- **Agreement.**  When both streams are closed, their readers and those who wait for the index
agree on how the build ended exactly if no fault was late. -/
theorem Trace.agrees_iff_never_late {v : Verdict} {past : List Verdict} (h : Trace (v :: past))
    (hsources : v.sources.isSome) (hdependencies : v.dependencies.isSome) :
    v.Agrees ↔ ¬ Somewhere LateFault (v :: past) := by
  obtain ⟨hfailed, hopen⟩ := h.agrees_iff_of_failed
  by_cases hv : v.status = .failed
  · exact hfailed hv
  · refine iff_of_true ?_ (hopen hv)
    cases h.consistent with
    | running => cases hsources
    | failed | late => exact absurd rfl hv
    | succeeded i hs hd =>
      obtain ⟨e, rfl⟩ := Option.isSome_iff_exists.1 hsources
      obtain ⟨e', rfl⟩ := Option.isSome_iff_exists.1 hdependencies
      exact .inl ⟨congrArg some (hs e rfl), congrArg some (hd e' rfl), i, rfl⟩

end Verdict

/-- The verdict on a build so far. -/
def Build.verdict {C : Crawler} (b : Build C) : Verdict :=
  ⟨b.status, b.sources.ending, b.dependencies.ending, b.outcome⟩

end HtmlDeps
