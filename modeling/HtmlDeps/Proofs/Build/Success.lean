import Mathlib.Logic.Basic
import HtmlDeps.Proofs.Build.Cases
import HtmlDeps.Proofs.Build.Replies

/-!
# The step to success

A build that has not succeeded does so in one way only: its worklist is empty, and it ends.  Then no
document has errors and no file is waited for (`Flawless`), and the step has given no reply.
-/

namespace HtmlDeps.Build

variable {C : Crawler} {s : Setup} {b b' : Build C}

/-- Nothing is left to be analyzed, no document has errors, and no file is waited for. -/
structure Flawless (b : Build C) : Prop where
  worklist : b.worklist = []
  errors : Warnings.count b.warnings .error = 0
  keys : b.waitlist.keys = []

/-- What counts for success is not changed by it. -/
theorem succeed_eq (b : Build C) : (b.succeed s).worklist = b.worklist ∧
    (b.succeed s).warnings = b.warnings ∧ (b.succeed s).waitlist = b.waitlist := by
  unfold succeed enqueue
  dsimp only
  split <;> split <;> exact ⟨rfl, rfl, rfl⟩

theorem flawless_of_complete {current : Option Nat} (hworklist : b.worklist = [])
    (hopen : b.status ≠ .succeeded) (h : b.complete s current = b')
    (hsucceeded : b'.status = .succeeded) : Flawless b' ∧ b'.waitlist = b.waitlist := by
  unfold complete at h
  split at h
  · exact absurd (h ▸ hsucceeded) hopen
  · obtain ⟨log, hlog⟩ := noteAll_eq s.context (Warnings.printed b.warnings) b
    rw [hlog] at h
    dsimp only at h
    split at h
    · rw [← h, status_fail] at hsucceeded
      cases hsucceeded
    · rename_i herrors
      split at h
      · rename_i hkeys
        obtain ⟨hsame, hwarnings, hwaitlist⟩ := succeed_eq (s := s) { b with log := log }
        rw [h] at hsame hwarnings hwaitlist
        refine ⟨⟨hsame.trans hworklist, ?_, ?_⟩, hwaitlist⟩
        · rw [hwarnings]
          exact Nat.eq_zero_of_not_pos herrors
        · rw [hwaitlist]
          exact List.isEmpty_iff.1 hkeys
      · rw [← h, status_fail] at hsucceeded
        cases hsucceeded

/-- The end of an analysis alone is no success. -/
theorem status_settleAnalysis_ne (hopen : b.status ≠ .succeeded) (a : Nat) (outcome : Except Fault Unit) :
    (b.settleAnalysis s a outcome).status ≠ .succeeded := by
  intro hsucceeded
  rcases status_settleAnalysis b a outcome (s := s) with hsame | hfailed
  · exact hopen (hsame.symm.trans hsucceeded)
  · rw [hfailed] at hsucceeded
    cases hsucceeded

theorem flawless_of_conclude {a : Nat} {p : Path} {url : Text} {r : Report}
    (hopen : b.status ≠ .succeeded) (h : b.conclude s a p url r = b')
    (hsucceeded : b'.status = .succeeded) : Flawless b' ∧ b'.waitlist = b.waitlist := by
  unfold conclude at h
  dsimp only at h
  obtain ⟨log, hlog⟩ := foldl_note_eq (s.analysisContext url)
    (Deps.ofReferences r.references).1.notes
    { b with warnings := Warnings.addAll b.warnings r.warnings }
  rw [hlog] at h
  split at h
  · exact absurd (h ▸ hsucceeded) (status_settleAnalysis_ne (by exact hopen) a _)
  · split at h
    · exact absurd (h ▸ hsucceeded) (status_settleAnalysis_ne (by exact hopen) a _)
    · rename_i b₁ henter
      obtain ⟨i, -, rfl⟩ := enter_eq henter
      split at h
      · rename_i hnone
        subst h
        rw [status_settleAnalysis_ok] at hsucceeded
        have hflawless := flawless_of_complete (List.isEmpty_iff.1 hnone) (by exact hopen) rfl hsucceeded
        exact ⟨⟨hflawless.1.worklist, hflawless.1.errors, hflawless.1.keys⟩, hflawless.2⟩
      · exact absurd (h ▸ hsucceeded) (status_settleAnalysis_ne (by exact hopen) a _)

/-- A turn that lets the build succeed gives no reply. -/
theorem flawless_of_turn {a : Nat} {t : C.Thread} (hopen : b.status ≠ .succeeded)
    (hsucceeded : (b.turn s a t).status = .succeeded) :
    Flawless (b.turn s a t) ∧ (b.turn s a t).waitlist = b.waitlist ∧ b.turnReplies s a t = [] := by
  revert hsucceeded
  unfold turn turnReplies
  cases b.analyses[a]? with
  | none => exact fun hsucceeded => absurd hsucceeded hopen
  | some x =>
    dsimp only
    cases x.crawl with
    | none => exact fun hsucceeded => absurd hsucceeded hopen
    | some crawl =>
      obtain ⟨url, memory⟩ := crawl
      dsimp only
      -- The notes change the log only, so the move is what counts.
      obtain ⟨log, hlog⟩ := foldl_note_eq (s.analysisContext url) (C.turn memory t).notes
        { b with analyses := b.analyses.set a { x with crawl := some (url, (C.turn memory t).memory) } }
      rw [hlog]
      cases (C.turn memory t).move with
      | ask u next =>
        intro hsucceeded
        rw [(calm_load _ u _).status] at hsucceeded
        exact absurd hsucceeded hopen
      | leave ts => exact fun hsucceeded => absurd hsucceeded hopen
      | finish outcome =>
        cases outcome with
        | error f => exact fun hsucceeded => absurd hsucceeded (status_settleAnalysis_ne (by exact hopen) a _)
        | ok report =>
          intro hsucceeded
          have hflawless := flawless_of_conclude (by exact hopen) rfl hsucceeded
          exact ⟨hflawless.1, hflawless.2, rfl⟩

/-- A job that lets the build succeed. -/
theorem flawless_of_run {j : Job C} (hopen : b.status ≠ .succeeded)
    (hsucceeded : (b.run s j).status = .succeeded) :
    Flawless (b.run s j) ∧ (b.run s j).waitlist = b.waitlist ∧ b.replies s j = [] := by
  by_cases hj : ∀ a t, j ≠ .turn a t
  · rcases status_run (s := s) (b := b) hj with hsame | hfailed
    · exact absurd (hsame.symm.trans hsucceeded) hopen
    · rw [hfailed] at hsucceeded
      cases hsucceeded
  · simp only [not_forall, not_not] at hj
    obtain ⟨a, t, rfl⟩ := hj
    exact flawless_of_turn hopen hsucceeded

theorem waitlist_enqueueExtras (b : Build C) (ps : List Path) :
    (b.enqueueExtras s ps).1.waitlist = b.waitlist := by
  induction ps generalizing b with
  | nil => rfl
  | cons p ps ih =>
    unfold enqueueExtras
    split
    · rfl
    · exact ih _
    · rfl
    · exact (ih _).trans (waitlist_enqueueUrl b s.context _ p)

/-- A start that lets the build succeed. -/
theorem flawless_of_start (hopen : b.status ≠ .succeeded)
    (hsucceeded : (b.start s).1.status = .succeeded) :
    Flawless (b.start s).1 ∧ (b.start s).1.waitlist = b.waitlist := by
  revert hsucceeded
  unfold start
  split
  · exact fun hsucceeded => absurd hsucceeded hopen
  · dsimp only
    split
    · exact fun hsucceeded => absurd hsucceeded hopen
    · rename_i extras hextras
      have hcalm := calm_enqueueExtras { b with started := true }
        fun q hq => (.inr ⟨extras, hextras, hq⟩ : Origin s q)
      have hwaitlist := waitlist_enqueueExtras (s := s) { b with started := true } extras
      split
      · rename_i heq
        rw [heq] at hcalm
        exact fun hsucceeded => absurd (hcalm.status.symm.trans hsucceeded) hopen
      · rename_i b₁ heq
        rw [heq] at hcalm hwaitlist
        have hopen₁ : b₁.status ≠ .succeeded := by
          rw [hcalm.status]
          exact hopen
        dsimp only
        split
        · rename_i hnone  -- A build that has nothing to analyze is complete at its start.
          intro hsucceeded
          have hflawless := flawless_of_complete (List.isEmpty_iff.1 hnone) (by exact hopen₁) rfl hsucceeded
          exact ⟨hflawless.1, hflawless.2.trans hwaitlist⟩
        · exact fun hsucceeded => absurd hsucceeded hopen₁

theorem status_touches (h : Touches s b b') : b'.status = b.status := by
  cases h with
  | arrive item =>
    unfold arrive
    dsimp only
    split <;> rfl
  | ask | analyze | note => rfl
  | push ctx url => exact (calm_push b ctx url).status
  | register f => exact status_register b f

/-- Nothing is left to be done, and nobody is waited for, when a step lets the build succeed. -/
theorem flawless_of_step (h : Step s b b') (hopen : b.status ≠ .succeeded)
    (hsucceeded : b'.status = .succeeded) : Flawless b' ∧ b'.waitlist = b.waitlist := by
  rcases h with hworks | htouches
  · cases hworks with
    | job =>
      have hflawless := flawless_of_run (by exact hopen) hsucceeded
      exact ⟨hflawless.1, hflawless.2.1⟩
    | delay | deliver | expire => exact absurd hsucceeded hopen
  · exact absurd ((status_touches htouches).symm.trans hsucceeded) hopen

end HtmlDeps.Build
