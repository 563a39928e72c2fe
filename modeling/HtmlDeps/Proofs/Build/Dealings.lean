import HtmlDeps.Proofs.Build.Deeds

/-!
# What the pumps amount to

Every operation of a build amounts to some deals, with just the deeds that are listed for it, in
whatever state the build is.  Only the end of a build may be something else: the report of the files that
are missing (`Build.deals_complete`).
-/

namespace HtmlDeps.Build

variable {C : Crawler} {s : Setup} {b b' b₁ : Build C} {f : Failure} {p : Path}

/-! ### Operations that do not touch files and tickets -/

theorem steady_enqueue (b : Build C) (item : Option Path) : Steady b (b.enqueue item) := by
  have hqueue : Steady b { b with queue := b.queue ++ [item] } := steady_of_eq rfl rfl rfl rfl rfl rfl rfl
  unfold enqueue
  dsimp only
  split
  · have hworking : Steady b { b with queue := b.queue ++ [item], dependencyPump := .working } :=
      steady_of_eq rfl rfl rfl rfl rfl rfl rfl
    exact hworking.trans (steady_schedule _ 0 rfl)
  · exact hqueue

theorem steady_enqueueUrl (b : Build C) (ctx : Log.Fields) (u : Text) (p : Path) :
    Steady b (b.enqueueUrl ctx u p) := by
  unfold enqueueUrl
  split
  · exact .refl b
  · have hpushed : Steady b { b.note ctx .debug
        ("new dependency found, pushing into dependency stream: " ++ p.toText) with
          pushed := b.pushed ++ [u] } := steady_of_eq rfl rfl rfl rfl rfl rfl rfl
    exact hpushed.trans (steady_enqueue _ _)

theorem steady_analyze (b : Build C) (p : Path) (client : Bool) : Steady b (b.analyze p client) := by
  have hanalyses : Steady b { b with analyses := b.analyses ++ [⟨p, client, none, none⟩] } :=
    steady_of_eq rfl rfl rfl rfl rfl rfl rfl
  exact hanalyses.trans (steady_schedule _ 0 rfl)

theorem steady_claim (b : Build C) (f : File) : Steady b (b.claim f) := by
  rcases claim_cases b f with ⟨-, -, h⟩ | ⟨-, h⟩
  · have hclaimed : Steady b { b with claimed := b.claimed ++ [f.path.normal] } :=
      steady_of_eq rfl rfl rfl rfl rfl rfl rfl
    rw [h]
    exact hclaimed.trans (steady_analyze _ _ _)
  · rw [h]
    exact .refl b

theorem steady_closeSources (b : Build C) : Steady b b.closeSources := by
  unfold closeSources
  dsimp only
  split <;> exact steady_of_eq rfl rfl rfl rfl rfl rfl rfl

theorem steady_enqueueExtras (b : Build C) (ps : List Path) : Steady b (b.enqueueExtras s ps).1 := by
  induction ps generalizing b with
  | nil => exact .refl b
  | cons p ps ih =>
    unfold enqueueExtras
    split
    · exact .refl b
    · exact (steady_note b _ _ _).trans (ih _)
    · exact .refl b
    · exact (steady_enqueueUrl b _ _ _).trans (ih _)

/-! ### Ends -/

/-- Nobody outside loses a request when a build drops its own work. -/
theorem spares_cancel (b : Build C) (current : Option Nat) : Spares none b (b.cancel current) where
  files := rfl
  waitlist := rfl
  waiting _ hw := List.mem_of_mem_filter hw
  loads := rfl
  numbers := by
    refine List.Sublist.subperm ?_
    exact (List.filter_sublist.filterMap _).append (List.filter_sublist.filterMap _)
  kept _ _ _ hdue := by
    obtain ⟨rounds, hmem⟩ := hdue
    exact ⟨rounds, List.mem_filter.2 ⟨hmem, rfl⟩⟩

theorem fails_fail (b : Build C) (current : Option Nat) (f : Failure) (h : b.status ≠ .failed) :
    Fails f b (b.fail s current f) := by
  have hfailed : Spares none b { b.note s.context .error ("Build failed: " ++ f.message) with
      status := .failed
      sources := b.sources.close (.failed f)
      dependencies := b.dependencies.close (.failed f)
      outcome := some (b.outcome.getD (.error f)) } :=
    spares_of_ready rfl rfl rfl rfl (.refl _) fun _ _ _ hdue => hdue
  unfold Build.fail
  rw [if_neg h]
  exact ⟨hfailed.trans (spares_cancel _ current), rfl, rfl⟩

theorem steady_or_fails (b : Build C) (current : Option Nat) (f : Failure) :
    Steady b (b.fail s current f) ∨ Fails f b (b.fail s current f) := by
  by_cases h : b.status = .failed
  · left
    unfold Build.fail
    rw [if_pos h]
    exact .refl b
  · exact .inr (fails_fail b current f h)

/-- A failure that does not report what is missing has no deeds. -/
theorem deals_of_plain (h : Steady b b' ∨ Fails f b b') (hf : Plain f) : Deals s b [] b' := by
  rcases h with h | h
  · exact h.deals
  · exact (Deal.fail hf h).deals

theorem deals_fail (b : Build C) (current : Option Nat) (hf : Plain f) :
    Deals s b [] (b.fail s current f) := deals_of_plain (steady_or_fails b current f) hf

theorem steady_or_crashes (b : Build C) (current : Option Nat) (f : Fault) :
    Steady b (b.crash s current f) ∨ Fails (.fault f) b (b.crash s current f) := by
  have hnote := steady_note b s.context .error ("Build task failed: " ++ f.message)
  rcases steady_or_fails (s := s) (b.note s.context .error ("Build task failed: " ++ f.message)) current
    (.fault f) with h | h
  · exact .inl (hnote.trans h)
  · exact .inr (hnote.trans_fails h)

theorem deals_crash (b : Build C) (current : Option Nat) (f : Fault) :
    Deals s b [] (b.crash s current f) := deals_of_plain (steady_or_crashes b current f) nofun

/-- A build that succeeds has still its streams to close. -/
theorem deal_succeed (b : Build C) : Deal s b [] (b.succeed s) := by
  have hdone : Spares none b { b.note s.context .info ("Analyzed " ++
      Text.ofNat b.index.deps.length ++ " fragments, " ++ Text.ofNat b.files.length ++
      " files registered") with status := .succeeded, outcome := some (.ok b.index) } :=
    spares_of_ready rfl rfl rfl rfl (.refl _) fun _ _ _ hdue => hdue
  have hqueue := steady_enqueue { b.note s.context .info ("Analyzed " ++
      Text.ofNat b.index.deps.length ++ " fragments, " ++ Text.ofNat b.files.length ++
      " files registered") with status := .succeeded, outcome := some (.ok b.index) } none
  have hclose : ∀ b₁ : Build C, Steady b₁ ({ b₁ with sourcePump := .working }.schedule 0 .closeSources) := by
    intro b₁
    have hpump : Steady b₁ { b₁ with sourcePump := .working } := steady_of_eq rfl rfl rfl rfl rfl rfl rfl
    exact hpump.trans (steady_schedule _ 0 rfl)
  have hsteady : ∃ b₁, Spares none b b₁ ∧ b₁.status = .succeeded ∧ b₁.outcome = some (.ok b.index) ∧
      Steady b₁ (b.succeed s) := by
    refine ⟨_, hdone, rfl, rfl, ?_⟩
    unfold succeed
    dsimp only
    split
    · exact hqueue.trans (hclose _)
    · exact hqueue
  obtain ⟨b₁, hspares, hstatus, houtcome, hlast⟩ := hsteady
  exact .succeed b.index (hspares.trans hlast.spares) (hlast.status.trans hstatus)
    (hlast.outcome.trans houtcome)

theorem deals_complete (b : Build C) (current : Option Nat) :
    Deals s b [] (b.complete s current) ∨ Reports s b (b.complete s current) := by
  unfold Build.complete
  by_cases hrunning : b.status ≠ .running
  · rw [if_pos hrunning]
    exact .inl (.refl b)
  · rw [if_neg hrunning]
    obtain ⟨log, hlog⟩ := noteAll_eq s.context (Warnings.printed b.warnings) b
    have hnotes : Steady b { b with log := log } := steady_of_eq rfl rfl rfl rfl rfl rfl rfl
    rw [hlog]
    dsimp only
    split
    · exact .inl (hnotes.trans_deals (deals_fail _ _ nofun))
    · split
      · exact .inl (hnotes.trans_deals (deal_succeed _).deals)
      · rename_i hkeys
        have hrunning : b.status = .running := Decidable.of_not_not hrunning  -- the one end that is no deal
        have hmore := steady_foldl (fun b u => steady_note b s.context .error (u ++ " never loaded"))
          (b.awaited s) { b with log := log }
        refine .inr ⟨hrunning, mt List.isEmpty_iff.2 hkeys, ?_⟩
        refine (hnotes.trans hmore).trans_fails (fails_fail _ current _ ?_)
        rw [(hnotes.trans hmore).status, hrunning]
        nofun

/-! ### Files -/

/-- Whatever is done about a file, nothing else happens to files and tickets once it is registered. -/
theorem deals_taken {f : File} {r : Build C × Option Fault}
    (hrefused : ∀ b₁ e, b.register s f = (b₁, some e) → r = (b₁, some e))
    (hregistered : ∀ b₁, b.register s f = (b₁, none) → Steady b₁ r.1) :
    Deals s (b.register s f).1 [] r.1 := by
  cases heq : b.register s f with
  | mk b₁ fault =>
    cases fault with
    | some e =>
      rw [hrefused b₁ e heq]
      exact .refl b₁
    | none => exact (hregistered b₁ heq).deals

theorem deals_takeSource (b : Build C) (f : File) :
    Deals s (b.register s f).1 [] (b.takeSource s f).1 := by
  refine deals_taken (fun b₁ e h => by simp only [takeSource, h]) fun b₁ h => ?_
  have hclaim := steady_claim b₁ f
  simp only [takeSource, h]
  split
  · exact hclaim
  · exact hclaim.trans (steady_of_eq rfl rfl rfl rfl rfl rfl rfl)

theorem deals_takeDependency (b : Build C) (f : File) :
    Deals s (b.register s f).1 [] (b.takeDependency s f).1 := by
  refine deals_taken (fun b₁ e h => by simp only [takeDependency, h]) fun b₁ h => ?_
  have hclaim := steady_claim b₁ f
  simp only [takeDependency, h]
  split
  · exact hclaim
  · exact hclaim.trans (steady_of_eq rfl rfl rfl rfl rfl rfl rfl)

/-! ### Pumps -/

theorem deals_releaseUnreachable (b : Build C) (ctx : Log.Fields) (p : Path) :
    Deals s b [] (b.releaseUnreachable s ctx p) :=
  (steady_note b _ _ _).trans_deals (Deal.release _ p).deals

theorem deals_releaseSources (b : Build C) (ps : List Path) :
    Deals s b [] (b.releaseSources s ps).1 := by
  induction ps generalizing b with
  | nil => exact .refl b
  | cons p ps ih =>
    unfold releaseSources
    split
    · exact .refl b
    · exact (deals_releaseUnreachable b _ p).trans_nil (ih _)
    · exact ih b

theorem steady_leave (b : Build C) (pump : Pump) : Steady b { b with sourcePump := pump } :=
  steady_of_eq rfl rfl rfl rfl rfl rfl rfl

theorem deals_exhaust (b : Build C) : Deals s b [] (b.exhaust s) := by
  have hexhausted : Steady b { b with exhausted := true } := steady_of_eq rfl rfl rfl rfl rfl rfl rfl
  have hnotes : ∀ ms : List Text, Steady { b with exhausted := true } (ms.foldl (fun b f =>
      b.note s.context .error ("fragment " ++ f ++ " was not found among the sources"))
        { b with exhausted := true }) :=
    fun ms => steady_foldl (fun b f => steady_note b s.context .error _) ms _
  unfold exhaust
  dsimp only
  split
  · rename_i m ms _
    refine ((hexhausted.trans (hnotes (m :: ms))).trans (steady_leave _ .gone)).trans_deals ?_
    exact deals_fail _ _ nofun
  · have hrelease := deals_releaseSources (s := s) { b with exhausted := true } b.waitlist.keys
    cases heq : releaseSources s { b with exhausted := true } b.waitlist.keys with
    | mk b₁ fault =>
      rw [heq] at hrelease
      have hreleased := hexhausted.trans_deals hrelease
      cases fault with
      | none =>
        dsimp only
        split
        · exact hreleased.keep (steady_leave b₁ _)
        · exact hreleased.keep (steady_closeSources b₁)
      | some e => exact (hreleased.keep (steady_leave b₁ .gone)).trans_nil (deals_crash _ _ e)

/-- The source pump registers the file that has arrived. -/
theorem deals_pumpSources_file {f : File} {rest : List Arrival} (hincoming : b.incoming = .file f :: rest)
    (hstatus : b.status ≠ .failed) :
    Deals s ({ b with incoming := rest }.register s f).1 [] (b.pumpSources s) := by
  have htake := deals_takeSource (s := s) { b with incoming := rest } f
  simp only [pumpSources, hincoming, if_neg hstatus]
  cases heq : takeSource s { b with incoming := rest } f with
  | mk b₁ fault =>
    rw [heq] at htake
    cases fault with
    | none => exact htake.keep (steady_goOn b₁ rfl)
    | some e => exact (htake.keep (steady_leave b₁ .gone)).trans_nil (deals_crash _ _ e)

theorem deals_pumpSources (b : Build C) : Deals s b b.pumpSourcesDeeds (b.pumpSources s) := by
  cases hincoming : b.incoming with
  | nil =>
    simp only [pumpSources, pumpSourcesDeeds, hincoming]
    exact Steady.deals (steady_of_eq rfl rfl rfl rfl rfl rfl rfl)
  | cons item rest =>
    have hrest : Steady b { b with incoming := rest } := steady_of_eq rfl rfl rfl rfl rfl rfl rfl
    cases item with
    | finish =>
      simp only [pumpSources, pumpSourcesDeeds, hincoming]
      exact hrest.trans_deals (deals_exhaust _)
    | fault f =>
      simp only [pumpSources, pumpSourcesDeeds, hincoming]
      exact (hrest.trans (steady_leave _ .gone)).trans_deals (deals_crash _ none f)
    | file f =>
      by_cases hstatus : b.status = .failed
      · simp only [pumpSources, pumpSourcesDeeds, hincoming, if_pos hstatus]
        exact (hrest.trans (steady_leave _ _)).deals
      · have hregister := hrest.trans_deals (Deal.register (s := s) _ f).deals
        simp only [pumpSourcesDeeds, hincoming, if_neg hstatus]
        exact hregister.trans_nil (deals_pumpSources_file hincoming hstatus)

theorem steady_pump (b : Build C) (pump : Pump) : Steady b { b with dependencyPump := pump } :=
  steady_of_eq rfl rfl rfl rfl rfl rfl rfl

/-- A dependency that was read is registered. -/
theorem deals_deliver_ok {contents : Bytes} (hread : s.read p = .ok contents) :
    Deals s (b.register s ⟨p, contents⟩).1 [] (b.deliver s p) := by
  have htake := deals_takeDependency (s := s) b ⟨p, contents⟩
  simp only [deliver, hread]
  cases heq : b.takeDependency s ⟨p, contents⟩ with
  | mk b₁ fault =>
    rw [heq] at htake
    cases fault with
    | none => exact (htake.keep (steady_pump b₁ .working)).keep (steady_goOn _ rfl)
    | some e => exact (htake.keep (steady_pump b₁ .gone)).trans_nil (deals_crash _ _ e)

theorem deals_deliver (b : Build C) (p : Path) : Deals s b (deliverDeeds s p) (b.deliver s p) := by
  cases hread : s.read p with
  | error f =>
    obtain ⟨log, e, he, hdeliver⟩ := b.deliver_of_error hread
    have hlog : Steady b { b with dependencyPump := .gone, log := log } :=
      steady_of_eq rfl rfl rfl rfl rfl rfl rfl
    have hplain : Plain e := by rcases he with rfl | rfl <;> exact nofun
    simp only [deliverDeeds, hread]
    rw [hdeliver]
    exact hlog.trans_deals (deals_fail _ _ hplain)
  | ok contents =>
    simp only [deliverDeeds, hread]
    exact (Deal.register b _).deals.trans_nil (deals_deliver_ok hread)

theorem deals_pumpDependencies (b : Build C) :
    Deals s b (b.pumpDependenciesDeeds s) (b.pumpDependencies s) := by
  cases hqueue : b.queue with
  | nil =>
    simp only [pumpDependencies, pumpDependenciesDeeds, hqueue]
    exact Steady.deals (steady_of_eq rfl rfl rfl rfl rfl rfl rfl)
  | cons item rest =>
    cases item with
    | none =>
      have hend : ∀ o, Steady b { b with queue := rest, dependencyPump := .gone, dependencies := o } :=
        fun _ => steady_of_eq rfl rfl rfl rfl rfl rfl rfl
      simp only [pumpDependencies, pumpDependenciesDeeds, hqueue]
      split
      · exact (hend _).deals
      · exact (hend b.dependencies).deals
    | some p =>
      have hread : ∀ reads, Steady b { b with
          queue := rest, reads := reads, dependencyPump := .reading } :=
        fun _ => steady_of_eq rfl rfl rfl rfl rfl rfl rfl
      simp only [pumpDependencies, pumpDependenciesDeeds, hqueue]
      split
      · exact (hread _).deals
      · exact (hread _).trans_deals (deals_deliver _ p)

end HtmlDeps.Build
