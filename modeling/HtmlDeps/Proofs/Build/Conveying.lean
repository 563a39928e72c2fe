import HtmlDeps.Proofs.Build.Accounting
import HtmlDeps.Proofs.Build.Belt

/-!
# Builds and their belts

What a build does, its belt follows: an operation leaves the belt as it is, or amounts to some steps, and
at most once the build ends (`Build.course_run`).  A build that is started before anything was analyzed
begins with an empty belt, so that nothing is lost afterwards (`Launched.carries`).
-/

namespace HtmlDeps.Build

variable {C : Crawler} {s : Setup} {b b' : Build C} {j : Job C}

theorem haul?_resume (c : Caller C) (answer : Except Fault Text) : (c.resume answer).haul? = none := by
  cases c <;> rfl

/-! ### Requests -/

/-- Jobs that are none of the pump's. -/
theorem belt_ready {js : List (Nat × Job C)}
    (h : js.filterMap (·.2.haul?) = b.ready.filterMap (·.2.haul?)) :
    { b with ready := js }.belt = b.belt :=
  congrArg (fun hs => { b.belt with hauls := hs }) h

theorem hauls_append {js : List (Nat × Job C)} (hjs : ∀ y ∈ js, y.2.haul? = none) :
    (b.ready ++ js).filterMap (·.2.haul?) = b.ready.filterMap (·.2.haul?) := by
  rw [List.filterMap_append, List.filterMap_eq_nil_iff.2 hjs, List.append_nil]

theorem belt_schedule (b : Build C) (n : Nat) (hj : j.haul? = none) :
    (b.schedule n j).belt = b.belt :=
  belt_ready (hauls_append (List.forall_mem_singleton.2 hj))

theorem belt_goOn (b : Build C) (hj : j.haul? = none) : (b.goOn j).belt = b.belt :=
  belt_ready (List.filterMap_cons_none hj)

theorem belt_wake (b : Build C) (n : Nat) (t : Text) : (b.wake s n t).belt = b.belt := by
  unfold wake
  dsimp only
  refine (belt_ready (b := { b with waiting := _ }) (hauls_append fun y hy => ?_)).trans rfl
  obtain ⟨w, -, rfl⟩ := List.mem_map.1 hy
  exact haul?_resume _ _

theorem belt_release (b : Build C) (p : Path) : (b.release s p).belt = b.belt := by
  unfold release
  split
  · rfl
  · exact belt_wake _ _ _

theorem belt_register (b : Build C) (f : File) : (b.register s f).1.belt = b.belt := by
  unfold register
  dsimp only
  split
  · rfl
  · split
    · exact belt_wake _ _ _
    · rfl

theorem belt_await (b : Build C) (n : Nat) (p : Path) (c : Caller C) :
    (b.await s n p c).belt = b.belt := by
  unfold await
  split
  · split
    · exact belt_schedule b 1 (haul?_resume _ _)
    · exact belt_goOn b (haul?_resume _ _)
  · rfl

theorem belt_enqueue (b : Build C) (item : Option Path) :
    (b.enqueue item).belt = b.belt.enqueue item := by
  unfold enqueue Belt.enqueue
  dsimp only
  by_cases hidle : b.dependencyPump = .idle
  · have hhauls : (b.ready ++ [(0, .pumpDependencies)] : List (Nat × Job C)).filterMap (·.2.haul?) =
        b.belt.hauls ++ [none] := List.filterMap_append
    rw [if_pos hidle, if_pos (show b.belt.pump = .idle from hidle), ← hhauls]
    rfl
  · rw [if_neg hidle, if_neg (show b.belt.pump ≠ .idle from hidle)]
    rfl

/-- In a running build a dependency is put on the queue. -/
theorem conveys_enqueueUrl (b : Build C) (ctx : Log.Fields) (u : Text) (p : Path)
    (hrunning : b.status = .running) : Belt.Steps s b.belt (b.enqueueUrl ctx u p).belt := by
  unfold enqueueUrl
  split
  · exact .refl
  · rw [belt_enqueue]
    exact .single (.push hrunning u p)

theorem conveys_push (b : Build C) (ctx : Log.Fields) (url : Text) :
    Belt.Steps s b.belt (b.push s ctx url).1.belt := by
  by_cases hrunning : b.status = .running
  · have hpushed := push_cases (s := s) b ctx url
    generalize b.push s ctx url = r at hpushed ⊢
    cases hpushed with
    | ended | known | unclear | source => exact .refl
    | unreachable text => exact .of_eq (belt_release _ _)
    | dependency => exact conveys_enqueueUrl b ctx _ _ hrunning
  · unfold push
    rw [if_pos hrunning]
    exact .refl

theorem conveys_request (b : Build C) (ctx : Log.Fields) (p : Path) (c : Caller C) :
    Belt.Steps s b.belt (b.request s ctx p c).belt := by
  unfold request
  split
  · exact .of_eq (belt_await b _ p c)
  · dsimp only
    split
    · exact .of_eq (belt_goOn _ (haul?_resume _ _))
    · rename_i u _
      have hpush := conveys_push (s := s) { b with waitlist := (b.waitlist.create p).1 } ctx u
      split
      · rename_i heq
        rw [heq] at hpush
        rw [belt_goOn _ (haul?_resume _ _)]
        exact hpush
      · rename_i heq
        rw [heq] at hpush
        rw [belt_await]
        exact hpush

theorem conveys_load (b : Build C) (url : Text) (c : Caller C) :
    Belt.Steps s b.belt (b.load s url c).belt := by
  have hanswer : ∀ (b : Build C) a, Belt.Steps s b.belt (b.goOn (c.resume a)).belt := fun b a =>
    .of_eq (belt_goOn b (haul?_resume c a))
  unfold load
  dsimp only
  generalize hnoted : b.note (b.contextOf s c) .debug ("loading: " ++ url) = b₁
  have hbelt : b.belt = b₁.belt := by
    rw [← hnoted]
    rfl
  rw [hbelt]
  split
  · exact hanswer _ _
  · exact hanswer _ _
  · exact hanswer _ _
  · split
    · exact hanswer _ _
    · exact hanswer _ _
    · exact conveys_request b₁ _ _ c

theorem belt_releaseSources (b : Build C) (ps : List Path) :
    (b.releaseSources s ps).1.belt = b.belt := by
  induction ps generalizing b with
  | nil => rfl
  | cons p ps ih =>
    unfold releaseSources
    split
    · rfl
    · exact (ih _).trans (belt_release _ p)
    · exact ih b

/-! ### Ends -/

theorem belt_cancel (b : Build C) (current : Option Nat) :
    (b.cancel current).belt = b.belt.cancel := by
  have hhauls : (b.cancel current).ready.filterMap (·.2.haul?) = [] := by
    rw [List.filterMap_eq_nil_iff]
    rintro ⟨n, j⟩ hj
    have hkept := (List.mem_filter.1 hj).2
    cases j with
    | pumpDependencies | deliver => exact absurd hkept (by simp [dropsJob])
    | _ => rfl
  exact congrArg (fun hs => { b.belt.cancel with hauls := hs }) hhauls

theorem conveys_fail {a : Belt} (hbelt : b.belt = a) (current : Option Nat) (f : Failure) :
    Belt.Course s a (b.fail s current f).belt := by
  subst hbelt
  unfold fail
  by_cases h : b.status = .failed
  · rw [if_pos h]
    exact .goesOn .refl
  · rw [if_neg h]
    dsimp only
    rw [belt_cancel]
    exact .fails .refl h f

theorem conveys_crash {a : Belt} (hbelt : b.belt = a) (current : Option Nat) (f : Fault) :
    Belt.Course s a (b.crash s current f).belt := 
  conveys_fail (b := b.note _ _ _) hbelt current (.fault f)

theorem belt_succeed (b : Build C) : (b.succeed s).belt = b.belt.succeed := by
  have hclose : ∀ b : Build C, (if b.sourcePump = .closing then
      { b with sourcePump := .working }.schedule 0 .closeSources else b).belt = b.belt := by
    intro b
    split
    · exact belt_schedule { b with sourcePump := .working } 0 rfl
    · rfl
  unfold succeed
  dsimp only
  rw [hclose, belt_enqueue]
  rfl

theorem belt_foldl {α : Type} {f : Build C → α → Build C} (h : ∀ b x, (f b x).belt = b.belt)
    (xs : List α) (b : Build C) : (xs.foldl f b).belt = b.belt := by
  induction xs generalizing b with
  | nil => rfl
  | cons x xs ih => exact (ih _).trans (h b x)

theorem conveys_complete (b : Build C) (current : Option Nat) :
    Belt.Course s b.belt (b.complete s current).belt := by
  unfold complete
  split
  · exact .goesOn .refl
  · rename_i hrunning
    dsimp only
    generalize hnoted : b.noteAll s.context (Warnings.printed b.warnings) = b₁
    have hbelt : b₁.belt = b.belt := by
      obtain ⟨log, hlog⟩ := noteAll_eq s.context (Warnings.printed b.warnings) b
      rw [← hnoted, hlog]
      rfl
    split
    · exact conveys_fail hbelt _ _
    · split
      · rw [belt_succeed, hbelt]
        exact .succeeds .refl (not_not.1 hrunning)
      · refine conveys_fail ((belt_foldl (fun _ _ => ?_) _ _).trans hbelt) _ _
        rfl

/-! ### Files -/

/-- An analysis is started, and nothing else changes. -/
theorem belt_analyze (b : Build C) (p : Path) (client : Bool) :
    (b.analyze p client).belt = { b.belt with clients := b.belt.clients ++ [client] } := by
  have hclients : (b.analyses ++ [(⟨p, client, none, none⟩ : Analysis C)]).map (·.client) =
      b.belt.clients ++ [client] := List.map_append
  rw [← hclients]
  exact belt_schedule _ 0 rfl

theorem belt_claim (b : Build C) (f : File) :
    ∃ cs, (b.claim f).belt = { b.belt with clients := b.belt.clients ++ cs } := by
  rcases claim_cases b f with ⟨-, -, h⟩ | ⟨-, h⟩
  · rw [h]
    exact ⟨[false], belt_analyze { b with claimed := b.claimed ++ [f.path.normal] } _ false⟩
  · rw [h]
    exact ⟨[], congrArg (fun cs => { b.belt with clients := cs }) (List.append_nil _).symm⟩

theorem belt_claim_of_register {b₁ : Build C} {f : File} {e : Option Fault}
    (h : b.register s f = (b₁, e)) :
    ∃ cs, (b₁.claim f).belt = { b.belt with clients := b.belt.clients ++ cs } := by
  have hbelt := belt_register (s := s) b f
  rw [h] at hbelt
  exact hbelt ▸ belt_claim b₁ f

/-- A file that cannot be taken. -/
theorem belt_take_error {f : File} {e : Fault}
    (h : b.takeSource s f = (b', some e) ∨ b.takeDependency s f = (b', some e)) :
    ∃ cs, b'.belt = { b.belt with clients := b.belt.clients ++ cs } := by
  unfold takeSource takeDependency at h
  rcases hb₁ : b.register s f with ⟨b₁, _ | e₁⟩
  · have hclaim := belt_claim_of_register hb₁
    rw [hb₁] at h
    dsimp only at h
    rcases h with h | h
    · split at h
      · rwa [← (Prod.mk.inj h).1]
      · cases h
    · split at h
      · rwa [← (Prod.mk.inj h).1]
      · cases h
  · have hbelt := belt_register (s := s) b f
    rw [hb₁] at h hbelt
    have hsame : b₁.belt = { b.belt with clients := b.belt.clients ++ [] } :=
      hbelt.trans (congrArg (fun cs => { b.belt with clients := cs }) (List.append_nil _).symm)
    rcases h with h | h
    · rw [← (Prod.mk.inj h).1]
      exact ⟨[], hsame⟩
    · rw [← (Prod.mk.inj h).1]
      exact ⟨[], hsame⟩

/-! ### The pumps -/

theorem belt_closeSources (b : Build C) : b.closeSources.belt = b.belt := by
  unfold closeSources
  dsimp only
  split <;> rfl

theorem conveys_exhaust (b : Build C) : Belt.Course s b.belt (b.exhaust s).belt := by
  unfold exhaust
  dsimp only
  split
  · rename_i m ms _
    have hnotes : ∀ b₂ : Build C, b₂.belt = b.belt → ∀ f,
        Belt.Course s b.belt (({ b₂ with sourcePump := .gone } : Build C).fail s none f).belt :=
      fun b₂ hb₂ f => conveys_fail (b := { b₂ with sourcePump := .gone }) hb₂ none f
    refine hnotes _ ((belt_foldl (fun _ _ => ?_) _ _).trans ?_) _
    · rfl
    · rfl
  · have hrelease := belt_releaseSources (s := s) { b with exhausted := true } b.waitlist.keys
    split
    · rename_i b₁ f heq
      rw [heq] at hrelease
      exact conveys_crash (b := { b₁ with sourcePump := .gone }) hrelease none f
    · rename_i b₁ heq
      rw [heq] at hrelease
      split
      · exact .of_eq hrelease
      · exact .of_eq ((belt_closeSources _).trans hrelease)

theorem conveys_pumpSources (b : Build C) : Belt.Course s b.belt (b.pumpSources s).belt := by
  unfold pumpSources
  split
  · exact .goesOn .refl
  · rename_i item rest _
    dsimp only
    split
    · exact conveys_exhaust { b with incoming := rest }
    · refine conveys_crash (b := { b with incoming := rest, sourcePump := .gone }) ?_ none _
      rfl
    · rename_i f _
      split
      · exact .goesOn .refl
      · rcases htake : takeSource s { b with incoming := rest } f with ⟨b₁, _ | e⟩
        · obtain ⟨b₂, o, hregister, -, rfl⟩ := takeSource_eq htake
          obtain ⟨cs, hclaim⟩ := belt_claim_of_register hregister
          have hbelt : ({ b₂.claim f with sources := o } : Build C).belt =
            { b.belt with clients := b.belt.clients ++ cs } := hclaim
          dsimp only
          rw [belt_goOn _ rfl, hbelt]
          exact .goesOn (.single (.analyze _ cs))
        · obtain ⟨cs, hbelt⟩ := belt_take_error (.inl htake)
          have hstep : Belt.Steps s b.belt b₁.belt := hbelt ▸ .single (.analyze b.belt cs)
          refine hstep.trans_course (conveys_crash (b := { b₁ with sourcePump := .gone }) ?_ none e)
          rfl

/-- A dependency that is in hand is sent, or the pump stops. -/
theorem conveys_deliver (b : Build C) (p : Path) :
    Belt.Course s (b.goOn (.deliver p)).belt (b.deliver s p).belt := by
  have hhand : (b.goOn (.deliver p)).belt = { b.belt with hauls := some p :: b.belt.hauls } := rfl
  rw [hhand]
  cases hread : s.read p with
  -- A file that cannot be read stops the pump; else it is taken, or taking it fails.
  | error f =>
    obtain ⟨log, e, -, hdeliver⟩ := b.deliver_of_error hread
    have hdrop : Belt.Steps s { b.belt with hauls := some p :: b.belt.hauls }
        { b.belt with pump := .gone } := .single (.drop rfl)
    rw [hdeliver]
    refine hdrop.trans_course
      (conveys_fail (b := { b with dependencyPump := .gone, log := log }) ?_ none e)
    rfl
  | ok contents =>
    simp only [deliver, hread]
    rcases htake : b.takeDependency s ⟨p, contents⟩ with ⟨b₁, _ | e⟩
    · obtain ⟨b₂, o, hregister, hsend, rfl⟩ := takeDependency_eq htake
      obtain ⟨cs, hclaim⟩ := belt_claim_of_register hregister
      have hdependencies : (b₂.claim ⟨p, contents⟩).dependencies = b.dependencies :=
        congrArg Belt.dependencies hclaim
      have hsent : Belt.Steps s { b.belt with hauls := some p :: b.belt.hauls }
          { b.belt with
            clients := b.belt.clients ++ cs
            hauls := none :: b.belt.hauls
            dependencies := o
            pump := .working } := by
        rw [hdependencies] at hsend
        exact Relation.ReflTransGen.tail (.single (.analyze _ cs))
          (.send (f := ⟨p, contents⟩) rfl hread hsend)
      have hbelt : ({ b₂.claim ⟨p, contents⟩ with dependencies := o, dependencyPump := .working }.goOn
          .pumpDependencies).belt = { b.belt with
            clients := b.belt.clients ++ cs
            hauls := none :: b.belt.hauls
            dependencies := o
            pump := .working } :=
        congrArg (fun a : Belt =>
          { a with hauls := none :: a.hauls, dependencies := o, pump := .working }) hclaim
      exact .goesOn (hbelt ▸ hsent)
    · obtain ⟨cs, hbelt⟩ := belt_take_error (.inr htake)
      have hdrop : Belt.Steps s { b.belt with hauls := some p :: b.belt.hauls }
          { b₁.belt with pump := .gone } := by
        rw [hbelt]
        exact Relation.ReflTransGen.tail (.single (.analyze _ cs)) (.drop rfl)
      refine hdrop.trans_course (conveys_crash (b := { b₁ with dependencyPump := .gone }) ?_ none e)
      rfl

theorem conveys_pumpDependencies (b : Build C) :
    Belt.Course s (b.goOn .pumpDependencies).belt (b.pumpDependencies s).belt := by
  have hhand : (b.goOn .pumpDependencies).belt = { b.belt with hauls := none :: b.belt.hauls } := rfl
  rw [hhand]
  unfold pumpDependencies
  split
  · rename_i hqueue
    exact .goesOn (.single (.rest rfl hqueue))
  · rename_i rest hqueue
    have hfinish := Belt.Step.finish (s := s) (a := { b.belt with hauls := none :: b.belt.hauls }) rfl hqueue
    dsimp only
    split
    · rename_i hstatus
      rw [if_pos (show b.belt.status = .succeeded from hstatus)] at hfinish
      exact .goesOn (.single hfinish)
    · rename_i hstatus
      rw [if_neg (show b.belt.status ≠ .succeeded from hstatus)] at hfinish
      exact .goesOn (.single hfinish)
  · rename_i p rest hqueue
    dsimp only
    by_cases hgated : s.gated = true
    · rw [if_pos hgated, if_pos hgated]
      exact .goesOn (.single (.fetch (r := ⟨_, p, .pending⟩) rfl hqueue rfl))
    · rw [if_neg hgated, if_neg hgated]
      refine Belt.Steps.trans_course (.single ?_) (conveys_deliver _ p)
      exact .read (r := ⟨_, p, .delivered⟩) rfl hqueue nofun

/-! ### Analyses -/

theorem belt_set {a : Nat} {x y : Analysis C} (hx : b.analyses[a]? = some x)
    (h : y.client = x.client) : Build.belt { b with analyses := b.analyses.set a y } = b.belt := by
  have hclients := map_set_eq_map (f := fun x : Analysis C => x.client) hx h
  exact congrArg (fun cs => { b.belt with clients := cs }) hclients

theorem belt_outcome (b : Build C) (a : Nat) (outcome : Option (Except Fault Unit)) :
    Build.belt { b with
      analyses := b.analyses.modify a fun x => { x with outcome := outcome } } = b.belt := by
  have hclients : (b.analyses.modify a fun x => { x with outcome := outcome }).map (·.client) =
      b.analyses.map (·.client) := by
    refine List.ext_getElem? fun n => ?_
    rw [List.getElem?_map, List.getElem?_map, List.getElem?_modify, Option.map_eq_map, Option.map_map]
    refine congrArg (Option.map · b.analyses[n]?) (funext fun x => ?_)
    dsimp only [Function.comp]
    split <;> rfl
  exact congrArg (fun cs => { b.belt with clients := cs }) hclients

theorem conveys_settleAnalysis (b : Build C) (a : Nat) (outcome : Except Fault Unit) :
    Belt.Course s b.belt (b.settleAnalysis s a outcome).belt := by
  have hbelt := belt_outcome b a (some outcome)
  unfold settleAnalysis
  cases outcome with
  | ok u => exact .of_eq hbelt
  | error f =>
    dsimp only
    split
    · exact .of_eq hbelt
    · exact conveys_crash hbelt (some a) f

theorem conveys_conclude (b : Build C) (a : Nat) (p : Path) (url : Text) (r : Report) :
    Belt.Course s b.belt (b.conclude s a p url r).belt := by
  unfold conclude
  dsimp only
  generalize hnotes : (Deps.ofReferences r.references).1.notes.foldl _ _ = b₁
  have hb₁ : b₁.belt = b.belt := by
    rw [← hnotes]
    refine (belt_foldl (fun _ _ => ?_) _ _).trans ?_
    · rfl
    · rfl
  rw [← hb₁]
  split
  · exact conveys_settleAnalysis b₁ a _
  · split
    · exact conveys_settleAnalysis (b₁.noteWith _ _ _ _) a _
    · rename_i b₂ henter
      obtain ⟨i, -, hb₂⟩ := enter_eq henter
      have hbelt : b₂.belt = b₁.belt := by
        rw [hb₂]
        rfl
      rw [settleAnalysis, belt_outcome, ← hbelt]
      split
      · exact conveys_complete b₂ (some a)
      · exact .goesOn .refl

theorem conveys_begin (b : Build C) (a : Nat) : Belt.Course s b.belt (b.begin s a).belt := by
  unfold begin
  split
  · exact .goesOn .refl
  · rename_i x hx
    split
    · exact conveys_settleAnalysis b a _
    · dsimp only
      rw [belt_goOn _ rfl]
      exact .of_eq (belt_set hx rfl)

theorem conveys_turn (b : Build C) (a : Nat) (t : C.Thread) :
    Belt.Course s b.belt (b.turn s a t).belt := by
  unfold turn
  split
  · exact .goesOn .refl
  · rename_i x hx
    split
    · exact .goesOn .refl
    · rename_i url memory _
      dsimp only
      generalize hb₁ : List.foldl _ _ (C.turn memory t).notes = b₁
      have hbelt : b₁.belt = b.belt := by
        rw [← hb₁]
        refine (belt_foldl (fun _ _ => ?_) _ _).trans (belt_set hx rfl)
        rfl
      rw [← hbelt]
      split
      · rename_i u next _
        exact .goesOn (conveys_load b₁ u (.thread a next))
      · rename_i ts _
        refine .of_eq (belt_ready (hauls_append fun y hy => ?_))
        obtain ⟨j, hj, rfl⟩ := List.mem_map.1 hy
        obtain ⟨t, -, rfl⟩ := List.mem_map.1 hj
        rfl
      · exact conveys_conclude b₁ a _ _ _
      · exact conveys_settleAnalysis b₁ a _

/-! ### Steps -/

/-- A job that has just been taken off the list is done. -/
theorem conveys_run (b : Build C) (j : Job C) : Belt.Course s (b.goOn j).belt (b.run s j).belt := by
  cases j with
  | pumpSources => exact belt_goOn b (j := .pumpSources) rfl ▸ conveys_pumpSources b
  | closeSources => exact belt_goOn b (j := .closeSources) rfl ▸ .of_eq (belt_closeSources b)
  | pumpDependencies => exact conveys_pumpDependencies b
  | deliver p => exact conveys_deliver b p
  | begin a => exact belt_goOn b (j := .begin a) rfl ▸ conveys_begin b a
  | turn a t => exact belt_goOn b (j := .turn a t) rfl ▸ conveys_turn b a t
  | load n u =>
    exact belt_goOn b (j := .load n u) rfl ▸ .goesOn (conveys_load b u (.client n))
  | loaded n answer =>
    have hloads : (b.loads.set n (some answer)).length = b.loads.length := List.length_set
    exact belt_goOn b (j := .loaded n answer) rfl ▸
      .of_eq (congrArg (fun n => { b.belt with loads := n }) hloads)
  | expire w =>
    unfold run expire
    dsimp only
    rw [belt_goOn _ (haul?_resume _ _), belt_release, belt_goOn b rfl]
    exact .goesOn .refl

/-- The jobs come in another order, or may be done sooner or later. -/
theorem conveys_order {js : List (Nat × Job C)} (h : (js.map (·.2)).Perm (b.ready.map (·.2))) :
    Belt.Steps s b.belt (Build.belt { b with ready := js }) := by
  have hhauls : (js.filterMap (·.2.haul?)).Perm b.belt.hauls := by
    have hperm := h.filterMap Job.haul?
    rwa [List.filterMap_map, List.filterMap_map] at hperm
  exact .single (.order hhauls)

theorem conveys_works (h : Works s b b') : Belt.Course s b.belt b'.belt := by
  cases h with
  | @job before after rounds j hready =>
    have hjobs : (((0, j) :: (before ++ after)).map (·.2)).Perm (b.ready.map (·.2)) := by
      rw [hready, List.map_cons, List.map_append, List.map_append]
      exact List.perm_middle.symm
    exact (conveys_order hjobs).trans_course (conveys_run { b with ready := before ++ after } j)
  | @delay rest rounds j hready =>
    have hjobs : ((rest ++ [(rounds, j)]).map (·.2)).Perm (b.ready.map (·.2)) := by
      rw [hready, List.map_append]
      exact List.perm_append_singleton _ _
    exact .goesOn (conveys_order hjobs)
  | @deliver before after r hpending hreads =>
    have hhauls : (b.ready ++ [(0, .deliver r.path)] : List (Nat × Job C)).filterMap (·.2.haul?) =
        b.belt.hauls ++ [some r.path] := List.filterMap_append
    have hstep := Belt.Step.letThrough (s := s) (a := b.belt) hpending hreads
    rw [← hhauls] at hstep
    exact .goesOn (.single hstep)
  | @expire before after w _ _ =>
    exact .of_eq (belt_schedule (j := .expire w) { b with waiting := before ++ after } 3 rfl)

theorem belt_ask (b : Build C) (url : Text) :
    (b.ask url).belt = { b.belt with loads := b.belt.loads + 1 } := by
  have hloads : (b.loads ++ [none]).length = b.loads.length + 1 := List.length_append
  exact (belt_schedule (j := .load _ url) { b with loads := b.loads ++ [none] } 0 rfl).trans
    (congrArg (fun n => { b.belt with loads := n }) hloads)

theorem conveys_touches (h : Touches s b b') : Belt.Course s b.belt b'.belt := by
  cases h with
  | arrive item =>
    unfold arrive
    dsimp only
    split
    · exact .of_eq (belt_schedule
        { b with incoming := b.incoming ++ [item], sourcePump := .working } 0 rfl)
    · exact .goesOn .refl
  | ask url => exact belt_ask b url ▸ .goesOn (.single (.ask _))
  | push ctx url => exact .goesOn (conveys_push b ctx url)
  | register f => exact .of_eq (belt_register b f)
  | analyze p => exact belt_analyze b p true ▸ .goesOn (.single (.analyze _ [true]))
  | note => exact .goesOn .refl

theorem conveys_enqueueExtras (b : Build C) (ps : List Path) (hrunning : b.status = .running) :
    Belt.Steps s b.belt (b.enqueueExtras s ps).1.belt := by
  induction ps generalizing b with
  | nil => exact .refl
  | cons p ps ih =>
    unfold enqueueExtras
    split
    · exact .refl
    · exact ih (b.note _ _ _) hrunning
    · exact .refl
    · rename_i u _ _
      have hstep := conveys_enqueueUrl (s := s) b s.context u p hrunning
      exact hstep.trans (ih _ (hstep.kept.1.trans hrunning))

/-! ### Runs -/

/-- A state of a run in which the build is started before anything is analyzed. -/
inductive Launched (s : Setup) : Build C → Prop
  | start {b : Build C} (h : Reached s b) (hfirst : b.started = false) (hnone : b.analyses = []) :
      Launched s (b.start s).1
  | next {b b' : Build C} (h : Launched s b) (hmoves : Moves s b b') : Launched s b'

/-- A build that was not started, and in which nothing was analyzed. -/
structure Dormant (s : Setup) (b : Build C) : Prop where
  status : b.status = .running
  analyses : b.analyses = []
  sourcePump : b.sourcePump ≠ .idle
  ready : ∀ y ∈ b.ready, y.2 ≠ .pumpSources
  stopped : b.belt.Stopped
  carries : Belt.Carries s b.belt
  reads : b.reads = []
  dependencies : b.dependencies.sent = [] ∧ b.dependencies.ending = none

theorem dormant_initial (s : Setup) : Dormant s (initial C s.project) := by
  have hstopped : (initial C s.project).belt.Stopped := ⟨rfl, nofun, nofun⟩
  exact ⟨rfl, rfl, nofun, nofun, hstopped, ⟨⟨[], .inl rfl⟩, nofun, nofun, .inl hstopped, nofun⟩, rfl,
    rfl, rfl⟩

theorem Dormant.of_steps (h : Dormant s b) (hsteps : Belt.Steps s b.belt b'.belt)
    (hanalyses : b'.analyses = []) (hsource : b'.sourcePump ≠ .idle)
    (hready : ∀ y ∈ b'.ready, y.2 ≠ .pumpSources) : Dormant s b' := by
  obtain ⟨hstopped, hdependencies, hreads⟩ := h.stopped.steps hsteps
  have hreads : b'.reads.map (·.path) = b.reads.map (·.path) := hreads
  rw [h.reads, List.map_nil, List.map_eq_nil_iff] at hreads
  refine ⟨hsteps.kept.1.trans h.status, hanalyses, hsource, hready, hstopped, h.carries.steps hsteps,
    hreads, ?_⟩
  have hdependencies : b'.dependencies = b.dependencies := hdependencies
  rw [hdependencies]
  exact h.dependencies

theorem Dormant.calm (h : Dormant s b) {fs : Table Text File} (hcalm : Calm s { b with files := fs } b')
    (hsteps : Belt.Steps s b.belt b'.belt) : Dormant s b' := by
  refine h.of_steps hsteps (hcalm.analyses.trans h.analyses) ?_ fun y hy heq => ?_
  · rw [hcalm.sourcePump]
    exact h.sourcePump
  · rcases hcalm.ready y hy with hy | hfollows
    · exact h.ready y hy heq
    · rw [heq] at hfollows
      exact hfollows

/-- A job that is taken off the list is none of a pump's. -/
theorem Dormant.take (h : Dormant s b) {before after : List (Nat × Job C)} {rounds : Nat}
    (hready : b.ready = before ++ (rounds, j) :: after) :
    j ≠ .pumpSources ∧ j.haul? = none ∧ Dormant s { b with ready := before ++ after } := by
  have hmem : (rounds, j) ∈ b.ready := hready ▸ List.mem_append_right _ List.mem_cons_self
  have hhaul : j.haul? = none := by
    cases hj : j.haul? with
    | none => rfl
    | some item =>
      have hhauls : item ∈ b.belt.hauls := List.mem_filterMap.2 ⟨_, hmem, hj⟩
      rw [h.stopped.hauls] at hhauls
      cases hhauls
  have hnone : ((rounds, j) :: after).filterMap (·.2.haul?) = after.filterMap (·.2.haul?) :=
    List.filterMap_cons_none hhaul
  refine ⟨h.ready _ hmem, hhaul,
    h.of_steps (.of_eq (belt_ready ?_)) h.analyses h.sourcePump fun y hy => ?_⟩
  · rw [hready, List.filterMap_append, List.filterMap_append, hnone]
  · exact h.ready y (hready ▸ (List.mem_append.1 hy).elim (List.mem_append_left _)
      fun hy => List.mem_append_right _ (List.mem_cons_of_mem _ hy))

theorem Dormant.run (h : Dormant s b) (hj : j ≠ .pumpSources) (hhaul : j.haul? = none) :
    Dormant s (b.run s j) := by
  -- Without analyses, the jobs of an analysis find nothing to do.
  have hnone : ∀ a : Nat, b.analyses[a]? = none := fun a => by rw [h.analyses]; rfl
  cases j with
  | pumpSources => exact absurd rfl hj
  | pumpDependencies | deliver => cases hhaul
  | closeSources =>
    refine h.of_steps (.of_eq (belt_closeSources b)) ?_ ?_ ?_
    all_goals
      unfold run closeSources
      dsimp only
      split
    · exact h.analyses
    · exact h.analyses
    · nofun
    · nofun
    · exact h.ready
    · exact h.ready
  | begin a =>
    have hsame : b.begin s a = b := by
      unfold begin
      rw [hnone a]
    change Dormant s (b.begin s a)
    rw [hsame]
    exact h
  | turn a t =>
    have hsame : b.turn s a t = b := by
      unfold turn
      rw [hnone a]
    change Dormant s (b.turn s a t)
    rw [hsame]
    exact h
  | load n u => exact h.calm (calm_load b u _) (conveys_load b u _)
  | loaded n answer =>
    have hloads : (b.loads.set n (some answer)).length = b.loads.length := List.length_set
    exact h.of_steps (.of_eq (congrArg (fun n => { b.belt with loads := n }) hloads)) h.analyses
      h.sourcePump h.ready
  | expire w =>
    refine h.calm (calm_expire b w) (.of_eq ?_)
    unfold run expire
    dsimp only
    rw [belt_goOn _ (haul?_resume _ _), belt_release]
    rfl

theorem Dormant.works (h : Dormant s b) (hworks : Works s b b') : Dormant s b' := by
  cases hworks with
  | job hready =>
    obtain ⟨hj, hhaul, hrest⟩ := h.take hready
    exact hrest.run hj hhaul
  | @delay rest rounds j hready =>
    obtain ⟨hj, hhaul, hrest⟩ := h.take (show b.ready = [] ++ (rounds + 1, j) :: rest from hready)
    refine hrest.of_steps (.of_eq (belt_schedule { b with ready := rest } rounds hhaul))
      hrest.analyses hrest.sourcePump ?_
    exact List.forall_mem_append.2 ⟨hrest.ready, List.forall_mem_singleton.2 hj⟩
  | deliver _ hreads =>
    rw [h.reads] at hreads
    exact absurd hreads.symm (by simp)
  | @expire before after w _ _ =>
    refine h.of_steps
      (.of_eq (belt_schedule (j := .expire w) { b with waiting := before ++ after } 3 rfl))
      h.analyses h.sourcePump ?_
    exact List.forall_mem_append.2 ⟨h.ready, List.forall_mem_singleton.2 nofun⟩

theorem Dormant.touches (h : Dormant s b) (htouches : Touches s b b') (hnone : b'.analyses = []) :
    Dormant s b' := by
  cases htouches with
  | arrive item =>
    unfold arrive
    dsimp only
    rw [if_neg h.sourcePump]
    exact h.of_steps .refl h.analyses h.sourcePump h.ready
  | ask url =>
    refine h.of_steps (belt_ask b url ▸ .single (.ask _)) h.analyses h.sourcePump ?_
    exact List.forall_mem_append.2 ⟨h.ready, List.forall_mem_singleton.2 nofun⟩
  | push ctx url => exact h.calm (calm_push b ctx url) (conveys_push b ctx url)
  | register f =>
    rcases register_cases (s := s) b f with hcalm | hdone
    · exact h.calm hcalm (.of_eq (belt_register b f))
    · obtain ⟨u, -, hcalm⟩ := register_eq (Prod.ext rfl hdone : b.register s f = (_, none))
      exact h.calm hcalm (.of_eq (belt_register b f))
  | analyze p => exact absurd hnone (by simp [analyze, schedule])
  | note => exact h.of_steps .refl h.analyses h.sourcePump h.ready

/-- A build that was started stays so, and nothing is started twice. -/
theorem start_of_started (h : b.started = true) : (b.start s).1 = b := by
  unfold start
  rw [if_pos h]

/-- The pumps are ready for their first turns. -/
theorem belt_pumps (b : Build C) : ((b.schedule 0 .pumpSources).schedule 0 .pumpDependencies).belt =
    { b.belt with hauls := b.belt.hauls ++ [none] } := by
  have hsources : (b.schedule 0 .pumpSources).belt = b.belt := belt_schedule b 0 rfl
  have hhauls : ((b.schedule 0 .pumpSources).ready ++
      [(0, .pumpDependencies)] : List (Nat × Job C)).filterMap (·.2.haul?) =
      (b.schedule 0 .pumpSources).belt.hauls ++ [none] := List.filterMap_append
  rw [← hsources, ← hhauls]
  rfl

/-- The start asks for nothing. -/
theorem start_kept (b : Build C) :
    (b.start s).1.started = true ∧ b.loads.length ≤ (b.start s).1.loads.length := by
  by_cases hstarted : b.started = true
  · rw [start_of_started hstarted]
    exact ⟨hstarted, Nat.le_refl _⟩
  · unfold start
    rw [if_neg hstarted]
    dsimp only
    split
    · exact ⟨rfl, Nat.le_refl _⟩
    · rename_i extras hextras
      have hcalm := calm_enqueueExtras { b with started := true }
        fun q hq => (.inr ⟨extras, hextras, hq⟩ : Origin s q)
      split
      · rename_i heq
        rw [heq] at hcalm
        exact ⟨hcalm.started, Nat.le_of_eq (congrArg List.length hcalm.loads).symm⟩
      · rename_i b₁ heq
        rw [heq] at hcalm
        have hloads : b.loads.length ≤ b₁.loads.length :=
        Nat.le_of_eq (congrArg List.length hcalm.loads).symm
        dsimp only
        split
        · obtain ⟨hstarted, -, hkept, -⟩ := (conveys_complete (s := s)
            ((b₁.schedule 0 .pumpSources).schedule 0 .pumpDependencies) none).kept
          exact ⟨hstarted.trans hcalm.started, Nat.le_trans hloads hkept⟩
        · exact ⟨hcalm.started, hloads⟩

/-- The extra dependencies are put on the queue, and the pump takes its first turn. -/
theorem Dormant.start (h : Dormant s b) (hfirst : b.started = false) :
    Belt.Carries s (b.start s).1.belt := by
  have hcarries : Belt.Carries s ({ b with started := true } : Build C).belt :=
    h.carries.same id id rfl rfl rfl rfl rfl
  have hstopped : ({ b with started := true } : Build C).belt.Stopped :=
    ⟨h.stopped.hauls, h.stopped.pump, h.stopped.reads⟩
  unfold Build.start
  rw [if_neg (by simp [hfirst])]
  dsimp only
  split
  · exact hcarries
  · rename_i extras _
    -- Nothing was sent or read before the start, so what the extras put on the queue is all there is.
    have hsteps := conveys_enqueueExtras (s := s) { b with started := true } extras h.status
    split
    · rename_i heq
      rw [heq] at hsteps
      exact hcarries.steps hsteps
    · rename_i b₁ heq
      rw [heq] at hsteps
      obtain ⟨hstopped₁, hdependencies, hreads⟩ := hstopped.steps hsteps
      have hdependencies : b₁.belt.dependencies = b.dependencies := hdependencies
      have hstatus : b₁.belt.status = b.status := hsteps.kept.1
      have hturns : Belt.Carries s { b₁.belt with hauls := b₁.belt.hauls ++ [none] } := by
        refine (hcarries.steps hsteps).begin hstopped₁ ?_ ?_ ?_
        · have hsent : b₁.belt.sent = b.belt.sent := Belt.sent_of_dependencies hdependencies
          have hnone : b.belt.sent = [] := List.map_eq_nil_iff.2 h.dependencies.1
          rw [hreads, hsent, hnone]
          exact (congrArg (List.map (·.path)) h.reads).symm
        · rw [hstatus, h.status]
          nofun
        · rw [hdependencies, h.dependencies.2]
          nofun
      rw [← belt_pumps] at hturns
      dsimp only
      split
      · exact hturns.course (conveys_complete _ none)
      · exact hturns

/-- Who was not started, was not started before, and neither was an analysis. -/
theorem unstarted_of_course (h : Belt.Course s b.belt b'.belt) (hfirst : b'.started = false)
    (hnone : b'.analyses = []) : b.started = false ∧ b.analyses = [] := by
  obtain ⟨hstarted, hclients, -, -⟩ := h.kept
  have hclients : b.analyses.map (·.client) <+: b'.analyses.map (·.client) := hclients
  rw [hnone, List.map_nil, List.prefix_nil, List.map_eq_nil_iff] at hclients
  exact ⟨hstarted.symm.trans hfirst, hclients⟩

/-- Before its start a build in which nothing was analyzed is dormant. -/
theorem Reached.dormant (h : Reached s b) (hfirst : b.started = false) (hnone : b.analyses = []) :
    Dormant s b := by
  induction h with
  | refl => exact dormant_initial s
  | @tail b b' _ hmoves ih =>
    cases hmoves with
    | start =>
      cases (start_kept b).1.symm.trans hfirst
    | step hstep =>
      have hcourse : Belt.Course s b.belt b'.belt := hstep.elim conveys_works conveys_touches
      obtain ⟨hfirst', hnone'⟩ := unstarted_of_course hcourse hfirst hnone
      have hdormant := ih hfirst' hnone'
      exact hstep.elim hdormant.works fun htouches => hdormant.touches htouches hnone
    | close =>
      have hdormant := ih hfirst hnone
      refine hdormant.of_steps (belt_cancel b none ▸ .single (.cancel _)) hnone nofun fun y hy => ?_
      exact hdormant.ready y (List.mem_of_mem_filter hy)

/-- What happens to a build that was started. -/
theorem Moves.course (h : Moves s b b') (hstarted : b.started = true) : Belt.Course s b.belt b'.belt := by
  cases h with
  | start => exact .of_eq (congrArg belt (start_of_started hstarted))
  | step hstep => exact hstep.elim conveys_works conveys_touches
  | close => exact belt_cancel b none ▸ .goesOn (.single (.cancel _))

/-- Nothing is lost in a build that was started before anything was analyzed. -/
theorem Launched.carries (h : Launched s b) : b.started = true ∧ Belt.Carries s b.belt := by
  induction h with
  | start hreached hfirst hnone =>
    exact ⟨(start_kept _).1, (hreached.dormant hfirst hnone).start hfirst⟩
  | next _ hmoves ih =>
    have hcourse := hmoves.course ih.1
    exact ⟨hcourse.kept.1.trans ih.1, ih.2.course hcourse⟩

end HtmlDeps.Build
