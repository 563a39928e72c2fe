import HtmlDeps.Proofs.Build.Account
import HtmlDeps.Proofs.Build.Cases

/-!
# Builds and their accounts

What a build does, its account follows: an operation either leaves the account as it is, or changes it
as one of the transformations of accounts does, or amounts to some steps.  The jobs are taken one by one
(`Build.steps_run`), and then the steps of a run.  In any state that a build can reach its account can be
reached, too (`Build.Reached.preserve`).
-/

namespace HtmlDeps

namespace Build

variable {C : Crawler} {s : Setup} {b b' : Build C} {rs : List (Reply C)}

open Account

theorem duty?_resume (c : Caller C) (answer : Except Fault Text) : (c.resume answer).duty? = none := by
  cases c <;> rfl

theorem account_schedule (b : Build C) (n : Nat) {j : Job C} (hj : j.duty? = none) :
    (b.schedule n j).account = b.account := by
  have hduties : (b.ready ++ [(n, j)]).filterMap (·.2.duty?) = b.ready.filterMap (·.2.duty?) := by
    have hnone : [(n, j)].filterMap (·.2.duty?) = [] := List.filterMap_cons_none hj
    rw [List.filterMap_append, hnone, List.append_nil]
  exact congrArg (fun ds => { b.account with duties := ds }) hduties

theorem account_goOn (b : Build C) {j : Job C} (hj : j.duty? = none) :
    (b.goOn j).account = b.account := by
  have hduties : ((0, j) :: b.ready).filterMap (·.2.duty?) = b.ready.filterMap (·.2.duty?) :=
    List.filterMap_cons_none hj
  exact congrArg (fun ds => { b.account with duties := ds }) hduties

/-- Jobs that are no duties. -/
theorem account_ready {js : List (Nat × Job C)} (hjs : ∀ x ∈ js, x.2.duty? = none) :
    { b with ready := b.ready ++ js }.account = b.account := by
  have hduties : (b.ready ++ js).filterMap (·.2.duty?) = b.ready.filterMap (·.2.duty?) := by
    rw [List.filterMap_append, List.filterMap_eq_nil_iff.2 hjs, List.append_nil]
  exact congrArg (fun ds => { b.account with duties := ds }) hduties

theorem account_scheduleAll (b : Build C) {js : List (Job C)} (hjs : ∀ j ∈ js, j.duty? = none) :
    (b.scheduleAll js).account = b.account := by
  refine account_ready fun x hx => ?_
  obtain ⟨j, hj, rfl⟩ := List.mem_map.1 hx
  exact hjs j hj

theorem account_wake (b : Build C) (n : Nat) (t : Text) : (b.wake s n t).account = b.account := by
  unfold wake
  dsimp only
  refine (account_ready (b := { b with waiting := _ }) ?_).trans rfl
  intro x hx
  obtain ⟨w, -, rfl⟩ := List.mem_map.1 hx
  exact duty?_resume _ _

theorem account_release (b : Build C) (p : Path) : (b.release s p).account = b.account := by
  unfold release
  split
  · rfl
  · exact account_wake _ _ _

theorem account_register (b : Build C) (f : File) : (b.register s f).1.account = b.account := by
  unfold register
  dsimp only
  split
  · rfl
  · split
    · exact account_wake _ _ _
    · rfl

theorem account_await (b : Build C) (n : Nat) (p : Path) (c : Caller C) :
    (b.await s n p c).account = b.account := by
  unfold await
  split
  · split
    · exact account_schedule b 1 (duty?_resume _ _)
    · exact account_goOn b (duty?_resume _ _)
  · rfl

theorem account_enqueue (b : Build C) (item : Option Path) :
    (b.enqueue item).account = { b.account with queue := b.queue ++ [item] } := by
  unfold enqueue
  dsimp only
  split
  · refine (account_schedule _ _ rfl).trans ?_
    rfl
  · rfl

theorem steps_enqueueUrl (b : Build C) (ctx : Log.Fields) {u : Text} {p : Path} (h : LeadsTo s u p) :
    Steps s b.account (b.enqueueUrl ctx u p).account := by
  unfold enqueueUrl
  split
  · exact .refl
  · rename_i hnew
    rw [account_enqueue]
    exact .single (.push (mt List.contains_iff_mem.2 hnew) h)

/-- A request puts dependencies on the queue, and changes nothing else on the account. -/
theorem Requests.steps (h : Requests s b b' rs) : Steps s b.account b'.account := by
  induction h with
  | refl => exact .refl
  | step _ hshift ih =>
    refine ih.trans ?_
    cases hshift with
    | note | create => exact .refl
    | fault | external | found => rw [account_goOn _ (duty?_resume _ _)]
    | enqueue ctx u p hleads => exact steps_enqueueUrl _ ctx hleads
    | await => rw [account_await]
    | release => rw [account_release]

/-! ### Ends -/

theorem account_cancel (b : Build C) (current : Option Nat) :
    (b.cancel current).account = b.account.cancel := by
  have hduties : (b.cancel current).ready.filterMap (·.2.duty?) = [] := by
    rw [List.filterMap_eq_nil_iff]
    rintro ⟨n, j⟩ hj
    have hkept := (List.mem_filter.1 hj).2
    cases j with
    | closeSources | deliver => exact absurd hkept (by simp [dropsJob])
    | _ => rfl
  exact congrArg (fun ds => { b.account.cancel with duties := ds }) hduties

theorem account_fail (b : Build C) (current : Option Nat) (f : Failure) (h : b.status ≠ .failed) :
    (b.fail s current f).account = b.account.fail f := by
  unfold Build.fail
  rw [if_neg h]
  exact account_cancel _ _

theorem steps_fail (b : Build C) (current : Option Nat) (f : Failure) :
    Steps s b.account (b.fail s current f).account := by
  by_cases h : b.status = .failed
  · unfold Build.fail
    rw [if_pos h]
  · rw [account_fail b current f h]
    exact .single (.fail h f)

theorem steps_crash (b : Build C) (current : Option Nat) (f : Fault) :
    Steps s b.account (b.crash s current f).account :=
  steps_fail (b.note s.context .error ("Build task failed: " ++ f.message)) current (.fault f)

/-- A source pump that has waited for the end closes its stream. -/
theorem account_closing {b₁ : Build C} {a : Account} (haccount : b₁.account = a) :
    (if b₁.sourcePump = .closing then { b₁ with sourcePump := .working }.schedule 0 .closeSources
      else b₁).account =
      { a with closing := false, duties := if a.closing then a.duties ++ [.close] else a.duties } := by
  subst haccount
  by_cases hclosing : b₁.sourcePump = .closing
  · have hyes : b₁.account.closing = true := decide_eq_true hclosing
    have hduties : (b₁.ready ++ [(0, .closeSources)] : List (Nat × Job C)).filterMap (·.2.duty?) =
        b₁.account.duties ++ [.close] := List.filterMap_append
    rw [if_pos hclosing, if_pos hyes, ← hduties]
    rfl
  · have hno : b₁.account.closing = false := decide_eq_false hclosing
    rw [if_neg hclosing, if_neg (by rw [hno]; nofun), ← hno]

theorem account_succeed (b : Build C) : (b.succeed s).account = b.account.succeed := by
  unfold Build.succeed
  dsimp only
  rw [account_closing ((account_enqueue _ none).trans rfl)]
  rfl

theorem account_foldl {α : Type} {f : Build C → α → Build C} (h : ∀ b x, (f b x).account = b.account)
    (xs : List α) (b : Build C) : (xs.foldl f b).account = b.account := by
  induction xs generalizing b with
  | nil => rfl
  | cons x xs ih => exact (ih _).trans (h b x)

/-- An end of a build that has ended before changes nothing. -/
theorem complete_cases (b : Build C) (current : Option Nat) :
    b.status ≠ .running ∧ b.complete s current = b ∨
      b.status = .running ∧ ((b.complete s current).account = b.account.succeed ∨
        ∃ f, (b.complete s current).account = b.account.fail f) := by
  unfold complete
  by_cases hrunning : b.status = .running
  · refine .inr ⟨hrunning, ?_⟩
    rw [if_neg (by simp [hrunning])]
    have hnotes : (b.noteAll s.context (Warnings.printed b.warnings)).account = b.account := by
      obtain ⟨log, hlog⟩ := noteAll_eq s.context (Warnings.printed b.warnings) b
      rw [hlog]
      rfl
    have hfail : ∀ (b₁ : Build C) (f : Failure), b₁.account = b.account →
        (b₁.fail s current f).account = b.account.fail f := by
      intro b₁ f hb₁
      have hstatus : b₁.status = b.status := congrArg Account.status hb₁
      rw [account_fail _ _ _ (by rw [hstatus, hrunning]; nofun), hb₁]
    dsimp only
    split
    · exact .inr ⟨_, hfail _ _ hnotes⟩
    · split
      · rw [account_succeed, hnotes]
        exact .inl rfl
      · refine .inr ⟨_, hfail _ _ ((account_foldl (fun _ _ => ?_) _ _).trans hnotes)⟩
        rfl
  · rw [if_pos hrunning]
    exact .inl ⟨hrunning, rfl⟩

/-! ### Files -/

theorem account_claim (b : Build C) (f : File) :
    (b.claim f).account = b.account.claim f.path.normal := by
  unfold Account.claim
  rcases claim_cases b f with ⟨hleft, hnew, h⟩ | ⟨hno, h⟩
  · have hanalyses : (b.analyses ++ [(⟨f.path.normal, false, none, none⟩ : Analysis C)]).map
          (fun x => (x.path, x.client)) =
        b.account.analyses ++ [(f.path.normal, false)] := List.map_append
    rw [h, if_pos ⟨hleft, hnew⟩, ← hanalyses]
    exact account_schedule _ 0 rfl
  · rw [h]
    exact (if_neg hno).symm

theorem account_claim_of_register {b₁ : Build C} {f : File} {e : Option Fault}
    (h : b.register s f = (b₁, e)) : (b₁.claim f).account = b.account.claim f.path.normal := by
  rw [account_claim, ← account_register (s := s) b f, h]

theorem account_takeSource {f : File} (h : b.takeSource s f = (b', none)) :
    ∃ o, (b.account.claim f.path.normal).sources.send f = .ok o ∧
      b'.account = { b.account.claim f.path.normal with sources := o } := by
  obtain ⟨b₁, o, hregister, hsend, rfl⟩ := takeSource_eq h
  have hclaim := account_claim_of_register hregister
  refine ⟨o, hclaim ▸ hsend, ?_⟩
  rw [← hclaim]
  rfl

theorem account_takeDependency {f : File} (h : b.takeDependency s f = (b', none)) :
    ∃ o, (b.account.claim f.path.normal).dependencies.send f = .ok o ∧
      b'.account = { b.account.claim f.path.normal with dependencies := o } := by
  obtain ⟨b₁, o, hregister, hsend, rfl⟩ := takeDependency_eq h
  have hclaim := account_claim_of_register hregister
  refine ⟨o, hclaim ▸ hsend, ?_⟩
  rw [← hclaim]
  rfl

/-- A file that cannot be taken. -/
theorem account_take_error {f : File} {e : Fault}
    (h : b.takeSource s f = (b', some e) ∨ b.takeDependency s f = (b', some e)) :
    b'.account = b.account ∨ b'.account = b.account.claim f.path.normal := by
  have hregister := account_register (s := s) b f
  unfold takeSource takeDependency at h
  rcases hb₁ : b.register s f with ⟨b₁, _ | e₁⟩
  · right
    rw [← account_claim_of_register hb₁]
    rw [hb₁] at h
    dsimp only at h
    rcases h with h | h
    · split at h
      · rw [(Prod.mk.inj h).1]
      · cases h
    · split at h
      · rw [(Prod.mk.inj h).1]
      · cases h
  · rw [hb₁] at h hregister
    left
    rcases h with h | h
    · rw [← (Prod.mk.inj h).1, hregister]
    · rw [← (Prod.mk.inj h).1, hregister]

/-! ### The source pump -/

theorem steps_leave (b : Build C) : Steps s b.account { b with sourcePump := .gone }.account :=
  .single (.leave _)

/-- What has arrived is lost in a fault. -/
theorem steps_spoil {a : Account} {item : Arrival} {rest : List Arrival}
    (hitem : a.incoming = item :: rest) (haccount : b.account = { a with incoming := rest })
    (f : Fault) : Steps s a (({ b with sourcePump := .gone } : Build C).crash s none f).account := by
  generalize hb₁ : ({ b with sourcePump := .gone } : Build C) = b₁
  have hleft : b₁.account = { a with incoming := rest, closing := false } := by
    rw [← hb₁]
    exact congrArg (fun a : Account => { a with closing := false }) haccount
  have hstatus : b₁.status = a.status := congrArg Account.status hleft
  refine Relation.ReflTransGen.trans (.single (.leave a)) ?_
  generalize hgone : { a with closing := false } = a₁
  have hitem₁ : a₁.incoming = item :: rest := by rw [← hgone, hitem]
  have hstatus₁ : b₁.status = a₁.status := by rw [hstatus, ← hgone]
  have hb₁ : b₁.account = { a₁ with incoming := rest } := by rw [hleft, ← hgone]
  by_cases hfailed : b₁.status = .failed
  · have hcrash : (b₁.crash s none f).account = b₁.account := by
      unfold crash Build.fail
      rw [if_pos (by exact hfailed)]
      rfl
    rw [hcrash, hb₁]
    exact .single (.skip hitem₁ (hstatus₁ ▸ hfailed))
  · have hcrash : (b₁.crash s none f).account = b₁.account.fail (.fault f) :=
      account_fail (b₁.note _ _ _) none (.fault f) hfailed
    rw [hcrash, hb₁]
    exact (Relation.ReflTransGen.single (.fail (hstatus₁ ▸ hfailed) (.fault f))).tail
      (.skip (a := a₁.fail (.fault f)) hitem₁ rfl)

theorem steps_closeSources (hexhausted : b.exhausted = true) :
    Steps s b.account b.closeSources.account := by
  unfold closeSources
  dsimp only
  split
  · exact (steps_leave b).tail (.endSources (.inl hexhausted) ‹_›)
  · exact steps_leave b

theorem steps_exhaust {a : Account} {rest : List Arrival} (hitem : a.incoming = .finish :: rest)
    (haccount : b.account = { a with incoming := rest }) : Steps s a (b.exhaust s).account := by
  unfold exhaust
  generalize hb₁ : { b with exhausted := true } = b₁
  have hexhausted : b₁.exhausted = true := by rw [← hb₁]
  have hfirst : b₁.account = { a with incoming := rest, exhausted := true } := by
    rw [← hb₁]
    exact congrArg (fun a : Account => { a with exhausted := true }) haccount
  refine Relation.ReflTransGen.trans (.single (.exhaust hitem)) ?_
  rw [← hfirst]
  clear hfirst hb₁
  dsimp only
  split
  · rename_i m ms _
    -- With entries missing, the build fails once they are named; else all that wait are released.
    have hnotes : ∀ b₂ : Build C, b₂.account = b₁.account → ∀ f,
        Steps s b₁.account (({ b₂ with sourcePump := .gone } : Build C).fail s none f).account :=
      fun b₂ hb₂ f => hb₂ ▸ (steps_leave b₂).trans (steps_fail _ none f)
    refine hnotes _ (account_foldl (fun _ _ => ?_) _ _) _
    rfl
  · have hsteps := (requests_releaseSources (s := s) b₁ b₁.waitlist.keys).steps
    have hcalm := calm_releaseSources (s := s) b₁ b₁.waitlist.keys
    rcases hrelease : b₁.releaseSources s b₁.waitlist.keys with ⟨b₂, _ | f⟩ <;>
      rw [hrelease] at hsteps hcalm
    · have hexhausted₂ : b₂.exhausted = true := hcalm.exhausted.trans hexhausted
      refine hsteps.trans ?_
      dsimp only
      split
      · exact .single (.rest hexhausted₂)
      · exact steps_closeSources hexhausted₂
    · exact hsteps.trans ((steps_leave b₂).trans (steps_crash _ none f))

theorem steps_pumpSources (b : Build C) : Steps s b.account (b.pumpSources s).account := by
  have hleave := steps_leave (s := s) b
  unfold pumpSources
  split
  · exact hleave
  · rename_i item rest hincoming
    have hitem : b.account.incoming = item :: rest := hincoming
    dsimp only
    split
    · exact steps_exhaust hitem rfl
    · rename_i f
      refine steps_spoil (b := { b with incoming := rest }) hitem ?_ f
      rfl
    · rename_i f
      split
      · rename_i hfailed
        exact hleave.tail (.skip (a := Build.account { b with sourcePump := .gone }) hitem hfailed)
      · rename_i hfailed
        generalize htaken : ({ b with incoming := rest } : Build C) = b₀
        have haccount : b₀.account = { b.account with incoming := rest } := by
          rw [← htaken]
          rfl
        have hmoved : b₀.account.claim f.path.normal =
            { b.account.claim f.path.normal with incoming := rest } := by
          rw [haccount, Account.claim_incoming]
        -- the file is taken off first, but an account can have it claimed before
        have hclaim : Steps s b.account (b.account.claim f.path.normal) := .single (.claim _ _)
        have hitem' := (b.account.incoming_claim f.path.normal).trans hitem
        rcases htake : b₀.takeSource s f with ⟨b₁, _ | e⟩
        · obtain ⟨o, hsend, hb₁⟩ := account_takeSource htake
          rw [hmoved] at hsend hb₁
          have hstatus' : (b.account.claim f.path.normal).status ≠ .failed := by
            rw [b.account.status_claim]
            exact hfailed
          refine (hclaim.tail (.take hitem' hstatus' hsend)).trans ?_
          dsimp only
          rw [account_goOn b₁ rfl, hb₁]
        · rcases account_take_error (.inl htake) with hb₁ | hb₁
          · exact steps_spoil hitem (hb₁.trans haccount) e
          · exact hclaim.trans (steps_spoil hitem' (hb₁.trans hmoved) e)

/-! ### The dependency pump -/

/-- A dependency that was due is taken, or the build fails. -/
theorem steps_deliver (b : Build C) (p : Path) :
    Steps s (b.goOn (.deliver p)).account (b.deliver s p).account := by
  -- The duty is done if nothing is sent; else it is what the sending takes.
  have hdone : Steps s (b.goOn (.deliver p)).account b.account :=
    .single (.settle (List.sublist_cons_self _ _).subperm)
  cases hread : s.read p with
  | error f =>
    obtain ⟨log, e, -, hdeliver⟩ := b.deliver_of_error hread
    rw [hdeliver]
    exact hdone.trans (steps_fail { b with dependencyPump := .gone, log := log } none e)
  | ok contents =>
    simp only [deliver, hread]
    generalize hfile : (⟨p, contents⟩ : File) = f
    have hpath : f.path = p := by rw [← hfile]
    rcases htake : b.takeDependency s f with ⟨b₁, _ | e⟩
    · obtain ⟨o, hsend, hb₁⟩ := account_takeDependency htake
      have hclaim : Steps s (b.goOn (.deliver p)).account
          { b.account.claim f.path.normal with duties := .deliver f.path :: b.account.duties } := by
        rw [← Account.claim_duties, hpath]
        exact .single (.claim _ _)
      have hduties : (b.account.claim f.path.normal).duties = b.account.duties := by
        unfold Account.claim
        split <;> rfl
      refine (hclaim.tail (.send rfl hsend)).trans ?_
      dsimp only
      rw [account_goOn _ rfl, ← hduties]
      exact hb₁ ▸ .refl
    · have hclaim : Steps s b.account b₁.account := by
        rcases account_take_error (.inr htake) with hb₁ | hb₁
        · rw [hb₁]
        · rw [hb₁]
          exact .single (.claim _ _)
      exact (hdone.trans hclaim).trans (steps_crash { b₁ with dependencyPump := .gone } none e)

theorem steps_pumpDependencies (b : Build C) :
    Steps s b.account (b.pumpDependencies s).account := by
  unfold pumpDependencies
  split
  · exact .refl
  · rename_i rest hqueue
    have hnext : Steps s b.account { b with queue := rest, dependencyPump := .gone }.account :=
      .single (.next hqueue)
    dsimp only
    split
    · exact hnext.tail (.endDependencies ‹_›)
    · exact hnext
  · rename_i p rest hqueue
    dsimp only
    by_cases hgated : s.gated = true
    · rw [if_pos hgated, if_pos hgated]
      exact .single (.fetch (r := ⟨_, p, .pending⟩) hqueue rfl)
    · rw [if_neg hgated, if_neg hgated]
      refine Relation.ReflTransGen.trans ?_ (steps_deliver _ p)
      exact .single (.read (r := ⟨_, p, .delivered⟩) hqueue nofun)

/-! ### Analyses -/

theorem account_analyze (b : Build C) (p : Path) (client : Bool) :
    (b.analyze p client).account = { b.account with analyses := b.account.analyses ++ [(p, client)] } := by
  have hanalyses : (b.analyses ++ [(⟨p, client, none, none⟩ : Analysis C)]).map
      (fun x => (x.path, x.client)) = b.account.analyses ++ [(p, client)] := List.map_append
  rw [← hanalyses]
  exact account_schedule _ 0 rfl

theorem account_set {a : Nat} {x y : Analysis C} (hx : b.analyses[a]? = some x)
    (h : (y.path, y.client) = (x.path, x.client)) :
    Build.account { b with analyses := b.analyses.set a y } = b.account := by
  have hanalyses := map_set_eq_map (f := fun x : Analysis C => (x.path, x.client)) hx h
  exact congrArg (fun as => { b.account with analyses := as }) hanalyses

theorem account_outcome (b : Build C) (a : Nat) (outcome : Option (Except Fault Unit)) :
    Build.account { b with
      analyses := b.analyses.modify a fun x => { x with outcome := outcome } } = b.account := by
  have hanalyses : (b.analyses.modify a fun x => { x with outcome := outcome }).map
      (fun x => (x.path, x.client)) = b.account.analyses := by
    refine List.ext_getElem? fun n => ?_
    change _ = (b.analyses.map fun x => (x.path, x.client))[n]?
    rw [List.getElem?_map, List.getElem?_map, List.getElem?_modify, Option.map_eq_map, Option.map_map]
    refine congrArg (Option.map · b.analyses[n]?) (funext fun x => ?_)
    dsimp only [Function.comp]
    split <;> rfl
  exact congrArg (fun as => { b.account with analyses := as }) hanalyses

theorem steps_settleAnalysis (b : Build C) (a : Nat) (outcome : Except Fault Unit) :
    Steps s b.account (b.settleAnalysis s a outcome).account := by
  unfold settleAnalysis
  rw [← account_outcome b a (some outcome)]
  cases outcome with
  | ok u => exact .refl
  | error f =>
    dsimp only
    split
    · exact .refl
    · exact steps_crash _ (some a) f

theorem mem_of_enter {p : Path} {d : Deps} (h : b.enter p d = .ok b') : p ∈ b.worklist := by
  unfold enter at h
  split at h
  · cases h
  · rename_i hmem
    exact not_not.1 hmem

theorem steps_conclude (b : Build C) (a : Nat) (p : Path) (url : Text) (r : Report) :
    Steps s b.account (b.conclude s a p url r).account := by
  unfold conclude
  dsimp only
  -- Notes do not count, so the account is that of before.
  generalize hnotes : (Deps.ofReferences r.references).1.notes.foldl _ _ = b₁
  have hb₁ : b₁.account = b.account := by
    rw [← hnotes]
    refine (account_foldl (fun _ _ => ?_) _ _).trans ?_
    · rfl
    · rfl
  rw [← hb₁]
  split
  · exact steps_settleAnalysis b₁ a _
  · split
    · exact steps_settleAnalysis (b₁.noteWith _ _ _ _) a _
    · rename_i b₂ henter
      have hmem := mem_of_enter henter
      obtain ⟨i, hadd, hb₂⟩ := enter_eq henter
      have haccount : b₂.account = b₁.account.enter p i := by
        rw [hb₂]
        rfl
      have hstatus : b₂.status = b₁.account.status := congrArg Account.status haccount
      refine Relation.ReflTransGen.trans ?_ (steps_settleAnalysis _ a _)
      split
      -- With nothing left to analyze the build is completed in the same breath, which is a step of its own.
      · rcases complete_cases (s := s) b₂ (some a) with ⟨hended, heq⟩ | ⟨hrunning, heq | ⟨f, heq⟩⟩
        · rw [heq, haccount]
          exact .single (.enter hmem hadd (.inr (hstatus ▸ hended)))
        · rw [heq, haccount]
          exact .single (.last hmem hadd (hstatus ▸ hrunning))
        · rw [heq, haccount]
          exact .single (.lastFails hmem hadd (hstatus ▸ hrunning) f)
      · rename_i hleft
        rw [haccount]
        refine .single (.enter hmem hadd (.inl ?_))
        rw [← haccount]
        exact mt List.isEmpty_iff.2 hleft

theorem steps_begin (b : Build C) (a : Nat) : Steps s b.account (b.begin s a).account := by
  unfold begin
  split
  · exact .refl
  · rename_i x hx
    split
    · exact steps_settleAnalysis b a _
    · have hset : ∀ crawl, Build.account { b with
          analyses := b.analyses.set a { x with crawl := crawl } } = b.account :=
        fun _ => account_set hx rfl
      dsimp only
      rw [account_goOn _ rfl, hset]

theorem steps_turn (b : Build C) (a : Nat) (t : C.Thread) :
    Steps s b.account (b.turn s a t).account := by
  unfold turn
  split
  · exact .refl
  · rename_i x hx
    split
    · exact .refl
    · rename_i url memory _
      dsimp only
      generalize hb₁ : List.foldl _ _ (C.turn memory t).notes = b₁
      have haccount : b₁.account = b.account := by
        rw [← hb₁]
        refine (account_foldl (fun _ _ => ?_) _ _).trans (account_set hx rfl)
        rfl
      rw [← haccount]
      split
      · rename_i u next _
        exact (requests_load b₁ u (.thread a next)).steps
      · rename_i ts _
        rw [account_scheduleAll]
        intro j hj
        obtain ⟨t, -, rfl⟩ := List.mem_map.1 hj
        rfl
      · exact steps_conclude b₁ a _ _ _
      · exact steps_settleAnalysis b₁ a _

/-! ### Steps -/

theorem steps_close (b : Build C) :
    Steps s (b.goOn .closeSources).account b.closeSources.account := by
  have hdone : (b.account.duties).Subperm (.close :: b.account.duties) :=
    (List.sublist_cons_self _ _).subperm
  unfold closeSources
  dsimp only
  split
  · rename_i hstatus
    have hend : Account.Step s (b.goOn .closeSources).account
        { (b.goOn .closeSources).account with sources := b.sources.close .complete } :=
      .endSources (.inr List.mem_cons_self) hstatus
    exact ((Relation.ReflTransGen.single hend).tail (.settle hdone)).tail (.leave _)
  · exact (Relation.ReflTransGen.single (.settle hdone)).tail (.leave _)

/-- A job that has just been taken off the list is done. -/
theorem steps_run (b : Build C) (j : Job C) : Steps s (b.goOn j).account (b.run s j).account := by
  cases j with
  | pumpSources => exact account_goOn b (j := .pumpSources) rfl ▸ steps_pumpSources b
  | closeSources => exact steps_close b
  | pumpDependencies => exact account_goOn b (j := .pumpDependencies) rfl ▸ steps_pumpDependencies b
  | deliver p => exact steps_deliver b p
  | begin a => exact account_goOn b (j := .begin a) rfl ▸ steps_begin b a
  | turn a t => exact account_goOn b (j := .turn a t) rfl ▸ steps_turn b a t
  | load n u => exact account_goOn b (j := .load n u) rfl ▸ (requests_load b u (.client n)).steps
  | loaded n answer => exact account_goOn b (j := .loaded n answer) rfl ▸ .refl
  | expire w =>
    unfold run expire
    dsimp only
    rw [account_goOn _ (duty?_resume _ _), account_release, account_goOn b rfl]
    exact .refl

/-- The jobs come in another order, or may be done sooner or later. -/
theorem steps_ready {js : List (Nat × Job C)} (h : (js.map (·.2)).Perm (b.ready.map (·.2))) :
    Steps s b.account (Build.account { b with ready := js }) := by
  have hduties : (js.filterMap (·.2.duty?)).Perm b.account.duties := by
    have hperm := h.filterMap Job.duty?
    rwa [List.filterMap_map, List.filterMap_map] at hperm
  exact .single (.settle hduties.subperm)

theorem steps_works (h : Works s b b') : Steps s b.account b'.account := by
  cases h with
  | @job before after rounds j hready =>
    have hjobs : (((0, j) :: (before ++ after)).map (·.2)).Perm (b.ready.map (·.2)) := by
      rw [hready, List.map_cons, List.map_append, List.map_append]
      exact List.perm_middle.symm
    exact (steps_ready hjobs).trans (steps_run { b with ready := before ++ after } j)
  | @delay rest rounds j hready =>
    have hjobs : ((rest ++ [(rounds, j)]).map (·.2)).Perm (b.ready.map (·.2)) := by
      rw [hready, List.map_append]
      exact List.perm_append_singleton _ _
    exact steps_ready hjobs
  | @deliver before after r hpending hreads =>
    have hduties : (b.ready ++ [(0, .deliver r.path)] : List (Nat × Job C)).filterMap (·.2.duty?) =
        b.account.duties ++ [.deliver r.path] := List.filterMap_append
    have hstep := Account.Step.letThrough (s := s) (a := b.account) hpending hreads
    rw [← hduties] at hstep
    exact .single hstep
  | @expire before after w _ _ =>
    exact .of_eq (account_schedule (j := .expire w) { b with waiting := before ++ after } 3 rfl)

theorem account_arrive (b : Build C) (item : Arrival) :
    (b.arrive item).account = { b.account with incoming := b.incoming ++ [item] } := by
  unfold arrive
  dsimp only
  split
  · rename_i hidle
    have hclosing : b.account.closing = false := decide_eq_false (by rw [hidle]; nofun)
    rw [account_schedule _ 0 rfl, hclosing]
    rfl
  · rfl

theorem steps_touches (h : Touches s b b') :
    Steps s b.account b'.account ∨ ∃ item, b' = b.arrive item := by
  cases h with
  | arrive item => exact .inr ⟨item, rfl⟩
  | ask url =>
    left
    exact .of_eq (account_schedule (j := .load _ url) { b with loads := b.loads ++ [none] } 0 rfl)
  | push ctx url => exact .inl (requests_push b ctx url).steps
  | register f => exact .inl (.of_eq (account_register b f))
  | analyze p => exact .inl (account_analyze b p true ▸ .single (.analyze _ p))
  | note => exact .inl .refl

theorem steps_enqueueExtras (b : Build C) (ps : List Path) :
    Steps s b.account (b.enqueueExtras s ps).1.account := by
  induction ps generalizing b with
  | nil => exact .refl
  | cons p ps ih =>
    unfold enqueueExtras
    split
    · exact .refl
    · exact ih (b.note _ _ _)
    · exact .refl
    · rename_i u hsource hurl
      exact (steps_enqueueUrl b s.context ⟨hsource, .inr hurl⟩).trans (ih _)

/-- The start of a build that still has fragments, unless it has ended. -/
theorem steps_start (hleft : b.worklist = [] → b.status ≠ .running) :
    Steps s b.account (b.start s).1.account := by
  unfold start
  split
  · exact .refl
  · dsimp only
    split
    · exact .refl
    · rename_i extras hextras
      have hsteps := steps_enqueueExtras (s := s) { b with started := true } extras
      have hcalm := calm_enqueueExtras { b with started := true }
        fun q hq => (.inr ⟨extras, hextras, hq⟩ : Origin s q)
      rcases henqueue : ({ b with started := true } : Build C).enqueueExtras s extras with ⟨b₁, _ | f⟩ <;>
        rw [henqueue] at hsteps hcalm
      · dsimp only
        have hpumps : ((b₁.schedule 0 .pumpSources).schedule 0 .pumpDependencies).account = b₁.account :=
          (account_schedule _ 0 rfl).trans (account_schedule _ 0 rfl)
        refine hsteps.trans ?_
        split
        · rename_i hnone
          have hnone : b.worklist = [] := hcalm.worklist.symm.trans (List.isEmpty_iff.1 hnone)
          rcases complete_cases (s := s) ((b₁.schedule 0 .pumpSources).schedule 0 .pumpDependencies)
            none with ⟨-, heq⟩ | ⟨hrunning, -⟩
          · rw [heq]
            exact Steps.of_eq hpumps
          · exact absurd (hcalm.status.symm.trans hrunning) (hleft hnone)
        · exact Steps.of_eq hpumps
      · exact hsteps

/-! ### Runs -/

/-- What may happen to a build: it is started, or takes a step, or its outstanding work is cancelled. -/
inductive Moves (s : Setup) : Build C → Build C → Prop
  | start (b : Build C) : Moves s b (b.start s).1
  | step {b b' : Build C} (h : Step s b b') : Moves s b b'
  | close (b : Build C) : Moves s b (b.cancel none)

/-- A state that a build can reach. -/
abbrev Reached (s : Setup) (b : Build C) : Prop :=
  Relation.ReflTransGen (Moves s) (initial C s.project) b

theorem Moves.steps (h : Moves s b b') (hb : b.account.Ended) :
    Steps s b.account b'.account ∨ ∃ item, b' = b.arrive item := by
  cases h with
  | start => exact .inl (steps_start hb)
  | step hstep => exact hstep.elim (fun hworks => .inl (steps_works hworks)) steps_touches
  | close => exact .inl (account_cancel b none ▸ .single (.cancel _))

theorem Moves.ended (h : Moves s b b') (hb : b.account.Ended) : b'.account.Ended := by
  rcases h.steps hb with hsteps | ⟨item, rfl⟩
  · exact hsteps.preserve (fun _ _ ha hstep => hstep.ended ha) hb
  · rw [account_arrive]
    exact hb

theorem Reached.ended (h : Reached s b) : b.account.Ended := by
  induction h with
  | refl => exact fun hnone => absurd hnone (allFragments_ne_nil s.project)
  | tail _ hmoves ih => exact hmoves.ended ih

/-- What the steps of accounts and the arrivals preserve holds of all builds that can be reached. -/
theorem Reached.preserve {P : Account → Prop} (h : Reached s b)
    (hinitial : P (initial C s.project).account)
    (hstep : ∀ a a', P a → Account.Step s a a' → P a')
    (harrive : ∀ a item, P a → P { a with incoming := a.incoming ++ [item] }) : P b.account := by
  induction h with
  | refl => exact hinitial
  | tail hreached hmoves ih =>
    rcases hmoves.steps (Reached.ended hreached) with hsteps | ⟨item, rfl⟩
    · exact hsteps.preserve hstep ih
    · rw [account_arrive]
      exact harrive _ item ih

/-- The same for a run that is fed, where an arrival is one of the sources still to come. -/
theorem Fed.preserve {b₀ : Build C} {items rest : List Arrival} {P : List Arrival → Account → Prop}
    (h : Fed s b₀ items b rest) (hstart : P items b₀.account)
    (hstep : ∀ rest a a', P rest a → Account.Step s a a' → P rest a')
    (harrive : ∀ item rest a, P (item :: rest) a →
      P rest { a with incoming := a.incoming ++ [item] }) : P rest b.account := by
  induction h with
  | start => exact hstart
  | works _ hworks ih => exact (steps_works hworks).preserve (hstep _) ih
  | arrive _ ih =>
    rw [account_arrive]
    exact harrive _ _ _ ih
  | note _ ctx l m ih => exact ih

end Build
end HtmlDeps
