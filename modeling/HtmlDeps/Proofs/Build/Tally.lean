import Mathlib.Data.List.Nodup
import HtmlDeps.Proofs.Build.Orderly

/-!
# Fragments and their analyses

As long as a build is running, the analyses are those of the fragments that were claimed, one each,
and an analysis has no outcome exactly if its fragment is on the worklist.  Something is left there,
and once the sources are exhausted, all of it was claimed (`Tally`).
-/

namespace HtmlDeps.Build

open Imports

variable {s : Setup} {b b' b₁ : Build importer} {j : Job importer} {a : Nat} {f : File}

/-- The fragments under analysis and the outcomes. -/
def roll (b : Build importer) : List (Path × Option (Except Fault Unit)) :=
  b.analyses.map fun x => (x.path, x.outcome)

structure Tally (b : Build importer) : Prop where
  claimed : b.claimed = b.roll.map (·.1)
  nodup : b.claimed.Nodup
  outcome : ∀ e ∈ b.roll, e.2 = none ↔ e.1 ∈ b.worklist
  left : b.worklist ≠ []
  missing : b.exhausted → ∀ p ∈ b.worklist, p ∈ b.claimed

theorem Tally.same (h : Tally b) (hclaimed : b'.claimed = b.claimed) (hroll : b'.roll = b.roll)
    (hworklist : b'.worklist = b.worklist) (hexhausted : b'.exhausted = b.exhausted) : Tally b' := by
  refine ⟨?_, ?_, ?_, ?_, ?_⟩
  · rw [hclaimed, hroll]
    exact h.claimed
  · rw [hclaimed]
    exact h.nodup
  · rw [hroll, hworklist]
    exact h.outcome
  · rw [hworklist]
    exact h.left
  · rw [hexhausted, hworklist, hclaimed]
    exact h.missing

theorem Tally.calm (h : Tally b) {fs : Table Text File} (hcalm : Calm s { b with files := fs } b') :
    Tally b' := by
  refine h.same hcalm.claimed ?_ hcalm.worklist hcalm.exhausted
  rw [roll, hcalm.analyses]
  rfl

theorem Tally.register (h : Tally b) (hregister : b.register s f = (b₁, none)) : Tally b₁ := by
  obtain ⟨u, -, hcalm⟩ := register_eq hregister
  exact h.calm hcalm

theorem Tally.claim (h : Tally b) (f : File) : Tally (b.claim f) := by
  rcases claim_cases b f with ⟨hworklist, hfresh, hclaim⟩ | ⟨-, hclaim⟩
  -- A claim adds a path that was not claimed before, and its analysis has no outcome yet.
  · have hroll : (b.claim f).roll = b.roll ++ [(f.path.normal, none)] := by
      rw [hclaim]
      exact List.map_append
    have hclaimed : (b.claim f).claimed = b.claimed ++ [f.path.normal] := by
      rw [hclaim]
      rfl
    have hsame : (b.claim f).worklist = b.worklist ∧ (b.claim f).exhausted = b.exhausted := by
      rw [hclaim]
      exact ⟨rfl, rfl⟩
    refine ⟨?_, ?_, fun e he => ?_, ?_, fun hexhausted p hp => ?_⟩
    · rw [hclaimed, hroll, h.claimed, List.map_append]
      rfl
    · rw [hclaimed]
      exact List.nodup_append.2 ⟨h.nodup, List.nodup_singleton _, fun p hp q hq hpq => by
        rw [List.mem_singleton] at hq
        exact hfresh (hq ▸ hpq ▸ hp)⟩
    · rw [hroll] at he
      rw [hsame.1]
      rcases List.mem_append.1 he with he | he
      · exact h.outcome e he
      · rw [List.mem_singleton] at he
        rw [he]
        exact iff_of_true rfl hworklist
    · rw [hsame.1]
      exact h.left
    · rw [hclaimed]
      exact List.mem_append_left _ (h.missing (hsame.2 ▸ hexhausted) p (hsame.1 ▸ hp))
  · rw [hclaim]
    exact h

/-! ### Analyses that change -/

theorem roll_moved {x : Analysis importer} (hx : b.analyses[a]? = some x)
    (crawl : Option (Text × Memory)) (log : List Log.Entry) :
    (b.moved a { x with crawl := crawl } log).roll = b.roll := map_set_eq_map hx rfl

/-- A fragment leaves the worklist when its analysis has an outcome, and something else is left. -/
theorem Tally.finish {x : Analysis importer} (h : Tally b) (hx : b.analyses[a]? = some x)
    (hclaimed : b'.claimed = b.claimed) (hroll : b'.roll = b.roll.set a (x.path, some (.ok ())))
    (hworklist : b'.worklist = b.worklist.filter (· ≠ x.path))
    (hexhausted : b'.exhausted = b.exhausted) (hleft : b'.worklist ≠ []) : Tally b' := by
  have hself : b.roll[a]? = some (x.path, x.outcome) := by simp [roll, hx]
  have hpaths : b'.roll.map (·.1) = b.roll.map (·.1) := by
    rw [hroll]
    exact map_set_eq_map hself rfl
  refine ⟨?_, ?_, fun e he => ?_, hleft, fun hex p hp => ?_⟩
  · rw [hclaimed, hpaths, h.claimed]
  · rw [hclaimed]
    exact h.nodup
  · obtain ⟨k, hk⟩ := List.getElem?_of_mem he
    rw [hroll, List.getElem?_set] at hk
    rw [hworklist, List.mem_filter]
    split at hk
    · split at hk
      · obtain rfl := Option.some.inj hk
        simp
      · cases hk
    · rename_i hne
      have hpath : e.1 ≠ x.path := by  -- the other analyses are those of other fragments
        intro heq
        have hnodup := h.nodup
        rw [h.claimed] at hnodup
        have hka : (b.roll.map (·.1))[k]? = (b.roll.map (·.1))[a]? := by
          rw [List.getElem?_map, List.getElem?_map, hk, hself]
          exact congrArg some heq
        have hlength : a < (b.roll.map (·.1)).length := by
          rw [List.length_map]
          exact (List.getElem?_eq_some_iff.1 hself).1
        exact hne ((List.getElem?_inj hlength hnodup).1 hka.symm)
      have hold := h.outcome e (List.mem_of_getElem? hk)
      rw [hold]
      simp [hpath]
  · rw [hworklist, List.mem_filter] at hp
    rw [hclaimed]
    exact h.missing (hexhausted ▸ hex) p hp.1

/-! ### Steps -/

theorem claimed_of_missing (h : b.missing = []) : ∀ p ∈ b.worklist, p ∈ b.claimed := by
  intro p hp
  by_contra hclaimed
  have hmem : p.toText ∈ b.missing :=
    List.mem_mergeSort.2 (List.mem_map_of_mem (List.mem_filter.2 ⟨hp, by simpa using hclaimed⟩))
  rw [h] at hmem
  cases hmem

theorem Tally.pumpSources (h : Tally b) (hrunning : (b.pumpSources s).status = .running) :
    Tally (b.pumpSources s) := by
  obtain ⟨-, hb'⟩ | ⟨rest, b₁, -, hmissing, hrelease, hb'⟩ | ⟨f, rest, b₁, o, -, hregister, -, hb'⟩ :=
    pumpSources_cases rfl hrunning
  · rw [hb']
    exact h.same rfl rfl rfl rfl
  · have hexhausted : Tally { b with incoming := rest, exhausted := true } :=
      ⟨h.claimed, h.nodup, h.outcome, h.left, fun _ => claimed_of_missing hmissing⟩
    have hcalm := calm_releaseSources (s := s) { b with incoming := rest, exhausted := true }
      b.waitlist.keys
    rw [hrelease] at hcalm
    rw [hb']
    exact (hexhausted.calm hcalm).same rfl rfl rfl rfl
  · have hrest : Tally { b with incoming := rest } := h.same rfl rfl rfl rfl
    rw [hb']
    exact ((hrest.register hregister).claim f).same rfl rfl rfl rfl

theorem Tally.deliver {p : Path} (h : Tally b) (hrunning : (b.deliver s p).status = .running) :
    Tally (b.deliver s p) := by
  obtain ⟨contents, b₁, o, -, hregister, -, hb'⟩ := deliver_cases rfl hrunning
  rw [hb']
  exact ((h.register hregister).claim _).same rfl rfl rfl rfl

theorem Tally.pumpDependencies (h : Tally b) (hqueue : none ∉ b.queue)
    (hrunning : (b.pumpDependencies s).status = .running) : Tally (b.pumpDependencies s) := by
  obtain ⟨-, hb'⟩ | ⟨p, rest, url, -, ⟨-, hb'⟩ | ⟨-, hb'⟩⟩ := pumpDependencies_cases rfl hqueue
  · rw [hb']
    exact h.same rfl rfl rfl rfl
  · rw [hb']
    exact h.same rfl rfl rfl rfl
  · rw [hb'] at hrunning ⊢
    have hread : Tally (b.fetched rest ⟨url, p, .delivered⟩) := h.same rfl rfl rfl rfl
    exact hread.deliver hrunning

theorem Tally.turn {t : Thread} (h : Tally b) (hwoven : Woven s (b.goOn (.turn a t)))
    (hrunning : (b.turn s a t).status = .running) : Tally (b.turn s a t) := by
  obtain ⟨x, url, m, m', log, hx, hown, -, -, -, -, hturned⟩ :=
    hwoven.turned (by rw [hrunning]; nofun)
  have hmoved : Tally (b.moved a { x with crawl := some (url, m') } log) :=
    h.same rfl (roll_moved hx _ log) rfl rfl
  cases hturned with
  | ask hb' _ _ =>
    rw [hb']
    exact hmoved.calm (calm_load _ _ _)
  | leave hb' _ =>
    rw [hb']
    exact hmoved.same rfl rfl rfl rfl
  | finish hb' _ _ _ =>
    obtain ⟨i, ws, log', -, -, hleft, hb'⟩ :=
      conclude_running (own_of_moved hx (by exact hown)) hb'.symm hrunning
    rw [hb']
    refine h.finish hx rfl ?_ rfl rfl hleft
    rw [roll, analyses_settle hx, List.map_set]
    rfl

theorem Tally.run (h : Tally b) (hwoven : Woven s (b.goOn j)) (hqueue : none ∉ b.queue)
    (hrunning : (b.run s j).status = .running) : Tally (b.run s j) := by
  cases j with
  | pumpSources => exact h.pumpSources hrunning
  | closeSources =>
    unfold Build.run closeSources
    dsimp only
    split
    · exact h.same rfl rfl rfl rfl
    · exact h.same rfl rfl rfl rfl
  | pumpDependencies => exact h.pumpDependencies hqueue hrunning
  | deliver p => exact h.deliver hrunning
  | begin a =>
    obtain ⟨x, hx, -⟩ : ∃ x, b.analyses[a]? = some x ∧ x.crawl = none :=
      hwoven.ready _ List.mem_cons_self
    obtain ⟨url, -, hb'⟩ := begin_cases hx (hwoven.own a x hx) rfl hrunning
    rw [Build.run, hb']
    exact h.same rfl (roll_moved hx _ b.log) rfl rfl
  | turn a t => exact h.turn hwoven hrunning
  | load n u => exact h.calm (calm_load b u _)
  | loaded n answer => exact h.same rfl rfl rfl rfl
  | expire w => exact h.calm (calm_expire b w)

theorem tally_start {b₀ : Build importer}
    (hstart : (initial importer s.project).start s = (b₀, none)) : Tally b₀ := by
  obtain ⟨ps, b₁, hextras, henqueue, rfl⟩ := start_eq hstart
  have hinitial : Tally { initial importer s.project with started := true } :=
    ⟨rfl, List.nodup_nil, nofun, allFragments_ne_nil s.project, nofun⟩
  have hcalm := calm_enqueueExtras { initial importer s.project with started := true }
    fun q hq => (.inr ⟨ps, hextras, hq⟩ : Origin s q)
  rw [henqueue] at hcalm
  exact (hinitial.calm hcalm).same rfl rfl rfl rfl

end HtmlDeps.Build
