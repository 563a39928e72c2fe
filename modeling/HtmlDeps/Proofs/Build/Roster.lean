import Mathlib.Data.List.Nodup
import Mathlib.Data.List.Perm.Basic
import HtmlDeps.Proofs.Build.Accounting
import HtmlDeps.Proofs.Build.Agreement
import HtmlDeps.Proofs.Build.Index
import HtmlDeps.Proofs.Build.Success
import HtmlDeps.Proofs.Path.Written

/-!
# Which fragments are still to be analyzed

Each fragment of a project is either on the worklist or in the index, and a build starts an analysis of
its own for none of them twice (`Account.Roster`).  Whatever happens to a build keeps this so, and a
build succeeds only when nothing is left to be done (`Build.Reached.roster`).

The worklist is `fragments_to_analyze`, and the index is filled by `_add_dependencies`.
-/

namespace HtmlDeps

theorem Project.nodup_allFragments (p : Project) : p.allFragments.Nodup := by
  have hfold : ∀ fs seen : List Path, seen.Nodup →
      (fs.foldl (fun seen f => if f ∈ seen then seen else seen ++ [f]) seen).Nodup := by
    intro fs
    induction fs with
    | nil => exact fun _ hseen => hseen
    | cons f fs ih =>
      intro seen hseen
      refine ih _ ?_
      dsimp only
      split
      · exact hseen
      · rename_i hnew
        rw [← List.concat_eq_append]
        exact List.Nodup.concat hnew hseen
  exact hfold _ [] List.nodup_nil

namespace Account

variable {s : Setup} {a a' : Account}

/-- The analyses that nobody outside asked for. -/
def own (a : Account) : List Path := (a.analyses.filter (!·.2)).map (·.1)

/-- Each fragment is on the worklist or in the index, and each claimed one has its analysis. -/
structure Roster (s : Setup) (a : Account) : Prop where
  fragments : ∃ done : List Path, a.index.deps.keys = done.map Path.toText ∧
    (a.worklist ++ done).Perm s.project.allFragments
  claimed : a.claimed.Nodup
  own : a.own = a.claimed

theorem Roster.claim (h : Roster s a) (p : Path) : Roster s (a.claim p) := by
  unfold Account.claim
  split
  · rename_i hnew
    refine ⟨h.fragments, ?_, ?_⟩
    · dsimp only
      rw [← List.concat_eq_append]
      exact List.Nodup.concat hnew.2 h.claimed
    · have hown : Account.own { a with claimed := a.claimed ++ [p], analyses := a.analyses ++ [(p, false)] } =
          a.own ++ [p] := by
        unfold Account.own
        rw [List.filter_append, List.map_append]
        rfl
      rw [hown, h.own]
  · exact h

/-- A fragment that leaves the worklist is found in the index. -/
theorem Roster.enter {p : Path} {d : Deps} {i : Index} (h : Roster s a) (hp : p ∈ a.worklist)
    (hadd : a.index.add p.toText d = .ok i) : Roster s (a.enter p i) := by
  obtain ⟨done, hkeys, hperm⟩ := h.fragments
  refine ⟨⟨done ++ [p], ?_, ?_⟩, h.claimed, h.own⟩
  · have hadded : i.deps.keys = a.index.deps.keys ++ [p.toText] := Index.keys_add hadd
    rw [List.map_append, ← hkeys]
    exact hadded
  · have hnodup : a.worklist.Nodup :=
      (List.nodup_append.1 (hperm.nodup_iff.2 s.project.nodup_allFragments)).1
    have hleft : a.worklist.Perm (p :: a.worklist.filter (· ≠ p)) := by
      have herase : a.worklist.filter (· ≠ p) = a.worklist.erase p := by
        rw [hnodup.erase_eq_filter]
        exact List.filter_congr fun q _ => decide_not
      rw [herase]
      exact List.perm_cons_erase hp
    calc a.worklist.filter (· ≠ p) ++ (done ++ [p])
      _ = (a.worklist.filter (· ≠ p) ++ done) ++ [p] := (List.append_assoc _ _ _).symm
      _ |>.Perm (p :: (a.worklist.filter (· ≠ p) ++ done)) := List.perm_append_singleton _ _
      _ |>.Perm (a.worklist ++ done) := hleft.symm.append_right done
      _ |>.Perm s.project.allFragments := hperm

theorem Roster.step (h : Roster s a) (hstep : Step s a a') : Roster s a' := by
  cases hstep with
  | claim p => exact h.claim p
  | analyze p =>
    have hown : Account.own { a with analyses := a.analyses ++ [(p, true)] } = a.own := by
      unfold Account.own
      rw [List.filter_append]
      simp
    exact ⟨h.fragments, h.claimed, hown.trans h.own⟩
  | enter hp hadd | last hp hadd | lastFails hp hadd =>
    have henter := h.enter hp hadd
    exact ⟨henter.fragments, henter.claimed, henter.own⟩
  | _ => exact ⟨h.fragments, h.claimed, h.own⟩

end Account

namespace Build

variable {C : Crawler} {s : Setup} {b b' : Build C}

theorem Reached.account_roster (h : Reached s b) : b.account.Roster s := by
  refine h.preserve ⟨⟨[], rfl, ?_⟩, List.nodup_nil, rfl⟩ (fun _ _ ha hstep => ha.step hstep)
    fun _ _ ha => ⟨ha.fragments, ha.claimed, ha.own⟩
  change (s.project.allFragments ++ []).Perm _
  rw [List.append_nil]

/-- A build succeeds only when nothing is left to be done. -/
theorem Moves.flawless (h : Moves s b b') (hopen : b.status ≠ .succeeded)
    (hsucceeded : b'.status = .succeeded) : Flawless b' := by
  cases h with
  | start => exact (flawless_of_start hopen hsucceeded).1
  | step hstep => exact (flawless_of_step hstep hopen hsucceeded).1
  | close => exact absurd hsucceeded hopen

/-- **Each fragment is analyzed once, and all before success.**  In every state that a build can reach,
whatever the crawler does and whatever happens meanwhile: -/
theorem Reached.roster (hwritten : ∀ f ∈ s.project.allFragments, f.Written) (h : Reached s b) :
    (b.worklist.map Path.toText ++ b.index.deps.keys).Perm (s.project.allFragments.map Path.toText) ∧
    (b.worklist.map Path.toText ++ b.index.deps.keys).Nodup ∧
    ((b.analyses.filter (!·.client)).map (·.path)).Nodup ∧
    (b.worklist = [] → b.status ≠ .running) ∧
    ∀ b', Moves s b b' → b.status ≠ .succeeded → b'.status = .succeeded →
      b'.worklist = [] ∧ Warnings.count b'.warnings .error = 0 ∧ b'.waitlist.keys = [] := by
  have hroster := h.account_roster
  obtain ⟨done, hkeys, hperm⟩ := hroster.fragments
  have htexts : (b.worklist.map Path.toText ++ b.index.deps.keys).Perm
      (s.project.allFragments.map Path.toText) := by
    rw [show b.index.deps.keys = done.map Path.toText from hkeys, ← List.map_append]
    exact hperm.map Path.toText
  refine ⟨htexts, ?_, ?_, h.ended, fun b' hmoves hopen hsucceeded => ?_⟩
  · rw [htexts.nodup_iff]
    exact s.project.nodup_allFragments.map_on fun f hf g hg heq =>
      (hwritten f hf).eq_of_toText_eq (hwritten g hg) heq
  · have hown : (b.analyses.filter (!·.client)).map (·.path) = b.account.own := by
      unfold Account.own account
      rw [List.filter_map, List.map_map]
      rfl
    rw [hown, hroster.own]
    exact hroster.claimed
  · have hflawless := hmoves.flawless hopen hsucceeded
    exact ⟨hflawless.worklist, hflawless.errors, hflawless.keys⟩

theorem Trace.reached {b₀ : Build C} {past : List (Build C)} (h₀ : Reached s b₀)
    (h : Trace s b₀ (b :: past)) : Reached s b := by
  generalize htrace : b :: past = trace at h
  induction h generalizing b past with
  | start =>
    obtain ⟨rfl, rfl⟩ := List.cons.inj htrace
    exact h₀
  | step h hstep ih =>
    obtain ⟨rfl, rfl⟩ := List.cons.inj htrace
    exact (ih rfl).tail (.step hstep)

/-- The step that lets the build of one document succeed. -/
theorem roster_small : ∃ b b' : Build needless, Reached (smallSetup true) b ∧
    Moves (smallSetup true) b b' ∧ b.status = .running ∧ b'.status = .succeeded ∧
    (b.worklist.map Path.toText ++ b.index.deps.keys).Perm ["/app/index.html"] ∧
    b'.worklist = [] ∧ Warnings.count b'.warnings .error = 0 ∧ b'.waitlist.keys = [] := by
  have hend : ((smallStart true).play? (smallSetup true) (sourceFirst.take 5)).map (fun b =>
      (b.status, (b.pick? (smallSetup true) (.job 0)).map (·.status))) =
      some (.running, some .succeeded) := by decide +kernel
  obtain ⟨b, hplay, hb⟩ := Option.map_eq_some_iff.1 hend
  obtain ⟨hrunning, hnext⟩ := Prod.mk.inj hb
  obtain ⟨b', hpick, hsucceeded⟩ := Option.map_eq_some_iff.1 hnext
  obtain ⟨past, htrace⟩ := trace_of_play? hplay .start
  have hreached : Reached (smallSetup true) b := htrace.reached (.single (.start _))
  have hmoves : Moves (smallSetup true) b b' := .step (step_of_pick? hpick)
  have hwritten : ∀ f ∈ (smallSetup true).project.allFragments, f.Written := by decide
  obtain ⟨hperm, -, -, -, hsuccess⟩ := Reached.roster hwritten hreached
  refine ⟨b, b', hreached, hmoves, hrunning, hsucceeded, hperm, ?_⟩
  exact hsuccess b' hmoves (by rw [hrunning]; nofun) hsucceeded

end Build
end HtmlDeps
