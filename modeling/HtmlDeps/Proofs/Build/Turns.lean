import HtmlDeps.Proofs.Build.Dealings

/-!
# What each job amounts to

A job amounts to some deals, with just the deeds that are listed for it, or it ends the build for want
of files (`Build.deals_run`).

A request in hand is put in front of the other jobs, so that it still has its number.
-/

namespace HtmlDeps.Build

variable {C : Crawler} {s : Setup} {b b' b₁ : Build C} {p : Path}

/-! ### Requests

The request stays in hand until it gets its answer or waits. -/

theorem release_goOn (b : Build C) (j : Job C) (p : Path) :
    (b.goOn j).release s p = (b.release s p).goOn j := by
  unfold release goOn wake
  dsimp only
  split <;> rfl

theorem enqueueUrl_goOn (b : Build C) (j : Job C) (ctx : Log.Fields) (u : Text) (p : Path) :
    (b.goOn j).enqueueUrl ctx u p = (b.enqueueUrl ctx u p).goOn j := by
  unfold enqueueUrl enqueue goOn
  dsimp only [note, noteWith, schedule]
  split
  · rfl
  · split <;> rfl

theorem push_goOn (b : Build C) (j : Job C) (ctx : Log.Fields) (u : Text) :
    (b.goOn j).push s ctx u = ((b.push s ctx u).1.goOn j, (b.push s ctx u).2) := by
  have hreleased : ∀ (b : Build C) p,
      (b.goOn j).releaseUnreachable s ctx p = (b.releaseUnreachable s ctx p).goOn j := fun b p =>
    release_goOn (b.note ctx .debug ("releasing unreachable file: " ++ p.toText)) j p
  have hstatus : (b.goOn j).status = b.status := rfl
  have hfile : (b.goOn j).file? = b.file? := rfl
  have hpushed : (b.goOn j).pushed = b.pushed := rfl
  have hnote : ∀ l m, (b.goOn j).note ctx l m = (b.note ctx l m).goOn j := fun _ _ => rfl
  unfold push
  simp only [hstatus, hfile, hpushed, hnote]
  split
  · rfl
  · split
    · rfl
    · split
      · rfl
      · have hexhausted : ∀ l m, ((b.note ctx l m).goOn j).exhausted = (b.note ctx l m).exhausted :=
          fun _ _ => rfl
        simp only [hexhausted]
        split
        · rw [hreleased]
        · rfl
      · rw [enqueueUrl_goOn]

theorem deals_push (b : Build C) (ctx : Log.Fields) (u : Text) : Deals s b [] (b.push s ctx u).1 := by
  have hpushed := push_cases (s := s) b ctx u
  generalize b.push s ctx u = r at hpushed ⊢
  cases hpushed with
  | ended | known | source => exact (steady_note b _ _ _).deals
  | unclear => exact .refl b
  | unreachable => exact (steady_note b _ _ _).trans_deals (deals_releaseUnreachable _ ctx _)
  | dependency => exact (steady_enqueueUrl b ctx _ _).deals

/-- A file that nobody has asked for is pushed, and then the request waits. -/
theorem deals_request (b : Build C) (ctx : Log.Fields) (c : Caller C) {t u : Text}
    (hurl : s.project.url (s.project.path t) = .ok u)
    (hcurrent : b.waitlist.current? (s.project.path t) = none)
    (hfile : b.fileAt s (s.project.path t) = .ok none) :
    Deals s (b.hold c) [.seek (s.project.path t), .push (s.project.path t)]
      (b.request s ctx (s.project.path t) c) := by
  have hcreate : Deals s (b.hold c) [.seek (s.project.path t), .push (s.project.path t)]
      ({ b with waitlist := (b.waitlist.create (s.project.path t)).1 }.hold c) :=
    Deal.deals (.create hurl hcurrent hfile)
  have hpush := hcreate.trans_nil
    (deals_push ({ b with waitlist := (b.waitlist.create (s.project.path t)).1 }.hold c) ctx u)
  rw [hold, hold, push_goOn] at hpush
  have hticket := current?_push (s := s)  -- the ticket that was just given out is still the current one
    { b with waitlist := (b.waitlist.create (s.project.path t)).1 } ctx u (s.project.path t)
  rw [Waitlist.current?_create, if_pos rfl] at hticket
  simp only [Build.request, hcurrent, hurl]
  cases heq : push s { b with waitlist := (b.waitlist.create (s.project.path t)).1 } ctx u with
  | mk b₁ fault =>
    rw [heq] at hpush hticket
    cases fault with
    | some f => exact hpush.keep (steady_resume b₁ c _)
    | none => exact hpush.trans_nil (Deal.await hticket c).deals

/-- A URL that does not lead into the project gets its answer at once. -/
theorem load_of_sought?_none (b : Build C) (c : Caller C) {url : Text} (h : s.sought? url = none) :
    ∃ answer, b.load s url c =
      (b.note (b.contextOf s c) .debug ("loading: " ++ url)).goOn (c.resume answer) := by
  unfold load
  unfold Setup.sought? at h
  cases hexternal : Url.isExternal url with
  | error e => exact ⟨_, rfl⟩
  | ok outside =>
    cases outside with
    | true => exact ⟨_, rfl⟩
    | false =>
      cases hparse : Url.parse url with
      | error e => exact ⟨_, rfl⟩
      | ok u =>
        simp only [hexternal, hparse, Option.map_eq_none_iff] at h
        cases hurl : s.project.url (s.project.path u.path) with
        | error e =>
          simp only [fileAt, hurl]
          exact ⟨_, rfl⟩
        | ok v =>
          rw [hurl] at h
          cases h

/-- A URL that leads into the project gets the file that is there; otherwise the file is asked for. -/
theorem load_of_sought?_some (b : Build C) (c : Caller C) {url : Text} (h : s.sought? url = some p) :
    ∃ t u, p = s.project.path t ∧ s.project.url p = .ok u ∧
      b.load s url c = match b.file? u with
        | some f => (b.note (b.contextOf s c) .debug ("loading: " ++ url)).goOn (c.resume (.ok f.text))
        | none => (b.note (b.contextOf s c) .debug ("loading: " ++ url)).request s (b.contextOf s c) p c := by
  unfold load
  unfold Setup.sought? at h
  cases hexternal : Url.isExternal url with
  | error e => simp [hexternal] at h
  | ok outside =>
    cases outside with
    | true => simp [hexternal] at h
    | false =>
      cases hparse : Url.parse url with
      | error e => simp [hexternal, hparse] at h
      | ok u =>
        simp only [hexternal, hparse] at h
        cases hurl : s.project.url (s.project.path u.path) with
        | error e =>
          rw [hurl] at h
          cases h
        | ok v =>
          rw [hurl] at h
          obtain rfl := Option.some.inj h
          refine ⟨u.path, v, rfl, hurl, ?_⟩
          have hfile : (b.note (b.contextOf s c) .debug ("loading: " ++ url)).fileAt s
              (s.project.path u.path) = .ok (b.file? v) := by
            unfold fileAt
            rw [hurl]
            rfl
          simp only [hfile]
          cases b.file? v <;> rfl

theorem deals_load (b : Build C) (url : Text) (c : Caller C) :
    Deals s (b.hold c) (b.loadDeeds s url) (b.load s url c) := by
  have hnote : Steady (b.hold c) ((b.note (b.contextOf s c) .debug ("loading: " ++ url)).hold c) :=
    steady_of_eq rfl rfl rfl rfl rfl rfl rfl
  have hanswer : ∀ answer, Steady (b.hold c)
      ((b.note (b.contextOf s c) .debug ("loading: " ++ url)).goOn (c.resume answer)) :=
    fun answer => hnote.trans (steady_resume _ c answer)
  unfold loadDeeds
  cases hsought : s.sought? url with
  | none =>
    obtain ⟨answer, hload⟩ := load_of_sought?_none b c hsought
    rw [hload]
    exact (hanswer answer).deals
  | some p =>
    obtain ⟨t, u, rfl, hurl, hload⟩ := load_of_sought?_some b c hsought
    have hfile : b.fileAt s (s.project.path t) = .ok (b.file? u) := by
      unfold fileAt
      rw [hurl]
      rfl
    rw [hload]
    dsimp only
    cases hfound : b.file? u with  -- the deeds are told by what is there before the request is noted in the log
    | some f =>
      rw [hfound] at hfile
      have hseek : Deals s (b.hold c) [.seek (s.project.path t)] (b.hold c) :=
        Deal.deals (.seek hurl (.inr ⟨f, hfile⟩))
      rw [hfile]
      cases b.waitlist.current? (s.project.path t) <;> exact hseek.keep (hanswer _)
    | none =>
      rw [hfound] at hfile
      rw [hfile]
      cases hcurrent : b.waitlist.current? (s.project.path t) with
      | none => exact hnote.trans_deals (deals_request _ _ c hurl hcurrent hfile)
      | some n =>
        have hseek : Deals s (b.hold c) [.seek (s.project.path t)] (b.hold c) :=
          Deal.deals (.seek hurl (.inl (by
            change b.waitlist.current? _ ≠ none
            rw [hcurrent]
            nofun)))
        have hawait := Deal.await (s := s) (b := b.note (b.contextOf s c) .debug ("loading: " ++ url))
          hcurrent c
        simp only [Build.request, note, noteWith, hcurrent]
        exact (hseek.keep hnote).trans_nil hawait.deals

theorem deals_expire (b : Build C) (w : Waiter C) : Deals s (b.goOn (.expire w)) [] (b.expire s w) := by
  have hnote : ∀ m, Steady (b.goOn (.expire w)) ((b.note (b.contextOf s w.caller) .error m).goOn (.expire w)) :=
    fun _ => steady_of_eq rfl rfl rfl rfl rfl rfl rfl
  have hrelease := (hnote ("Timed out after " ++ s.timeout.getD [] ++ "s waiting for " ++
    w.path.toText)).trans_deals (Deal.release (s := s) _ w.path).deals
  rw [release_goOn] at hrelease
  refine hrelease.keep (steady_goOn_goOn _ (.inl (w.caller.number?_resume _)) nofun)

/-! ### Analyses -/

/-- A fault in an analysis is for those who have asked for it, or lets the build fail. -/
theorem steady_or_settles (b : Build C) (a : Nat) (f : Fault) :
    Steady b (b.settleAnalysis s a (.error f)) ∨
      Fails (.fault f) b (b.settleAnalysis s a (.error f)) := by
  have houtcome : Steady b { b with
      analyses := b.analyses.modify a fun x => { x with outcome := some (.error f) } } :=
    steady_of_eq rfl rfl rfl rfl rfl rfl rfl
  unfold settleAnalysis
  dsimp only
  split
  · exact .inl houtcome
  · rcases steady_or_crashes (s := s) { b with
      analyses := b.analyses.modify a fun x => { x with outcome := some (.error f) } } (some a) f with h | h
    · exact .inl (houtcome.trans h)
    · exact .inr (houtcome.trans_fails h)

theorem steady_settleAnalysis (b : Build C) (a : Nat) : Steady b (b.settleAnalysis s a (.ok ())) :=
  steady_of_eq rfl rfl rfl rfl rfl rfl rfl

theorem deals_settleAnalysis (b : Build C) (a : Nat) (f : Fault) :
    Deals s b [] (b.settleAnalysis s a (.error f)) := deals_of_plain (steady_or_settles b a f) nofun

theorem Reports.of_steady (h : Steady b b₁) (h' : Reports s b₁ b') : Reports s b b' := by
  have hawaited : b₁.awaited s = b.awaited s := by
    unfold awaited
    rw [h.spares.waitlist]
  refine ⟨h.status ▸ h'.running, h.spares.waitlist ▸ h'.keys, ?_⟩
  exact h.trans_fails (hawaited ▸ h'.fails)

theorem Reports.keep (h : Reports s b b₁) (h' : Steady b₁ b') : Reports s b b' :=
  ⟨h.running, h.keys, h.fails.spares.trans h'.spares, h'.status.trans h.fails.status,
    h'.outcome.trans h.fails.outcome⟩

theorem deals_conclude (b : Build C) (a : Nat) (p : Path) (url : Text) (r : Report) :
    Deals s b [] (b.conclude s a p url r) ∨ Reports s b (b.conclude s a p url r) := by
  have hwarnings : Steady b { b with warnings := Warnings.addAll b.warnings r.warnings } :=
    steady_of_eq rfl rfl rfl rfl rfl rfl rfl
  have hnotes := hwarnings.trans (steady_foldl
    (fun b n => steady_note b (s.analysisContext url) .debug n) (Deps.ofReferences r.references).1.notes _)
  unfold conclude
  dsimp only
  -- up to the question whether the worklist is empty, only the log, the index and the worklist change
  generalize List.foldl (fun b n => note b (s.analysisContext url) .debug n) _ _ = b₁ at hnotes ⊢
  split
  · exact .inl (hnotes.trans_deals (deals_settleAnalysis b₁ a _))
  · have hnoted := hnotes.trans (steady_of_eq rfl rfl rfl rfl rfl rfl rfl : Steady b₁ (b₁.noteWith
      (s.analysisContext url) .debug ("dependencies analyzed for: " ++ url)
      [(Log.contextMark ++ ("deps" : Text), (Deps.ofReferences r.references).1.deps.value)]))
    generalize noteWith b₁ _ _ _ _ = b₂ at hnoted ⊢
    split
    · rename_i f _
      exact .inl (hnoted.trans_deals (deals_settleAnalysis b₂ a f))
    · rename_i b₃ henter
      obtain ⟨i, -, rfl⟩ := enter_eq henter
      have hentered := hnoted.trans (steady_of_eq rfl rfl rfl rfl rfl rfl rfl : Steady b₂ { b₂ with
        index := i, worklist := b₂.worklist.filter (· ≠ p) })
      generalize ({ b₂ with index := i, worklist := b₂.worklist.filter (· ≠ p) } : Build C) = b₃
        at hentered ⊢
      split
      · rcases deals_complete (s := s) b₃ (some a) with h | h
        · exact .inl ((hentered.trans_deals h).keep (steady_settleAnalysis _ a))
        · exact .inr ((h.of_steady hentered).keep (steady_settleAnalysis _ a))
      · exact .inl (hentered.trans (steady_settleAnalysis b₃ a)).deals

theorem deals_begin (b : Build C) (a : Nat) : Deals s (b.goOn (.begin a)) [] (b.begin s a) := by
  have hdone : Steady (b.goOn (.begin a)) b := steady_done b nofun
  unfold begin
  split
  · exact hdone.deals
  · split
    · exact hdone.trans_deals (deals_settleAnalysis b a _)
    · dsimp only
      have hcrawl : ∀ x, Steady b { b with analyses := b.analyses.set a x } :=
        fun _ => steady_of_eq rfl rfl rfl rfl rfl rfl rfl
      exact ((hdone.trans (hcrawl _)).trans (steady_goOn _ rfl)).deals

theorem deals_turn (b : Build C) (a : Nat) (t : C.Thread) :
    Deals s (b.goOn (.turn a t)) (b.turnDeeds s a t) (b.turn s a t) ∨
      (b.turnDeeds s a t = [] ∧ Reports s (b.goOn (.turn a t)) (b.turn s a t)) := by
  have hdone : Steady (b.goOn (.turn a t)) b := steady_done b nofun
  cases hanalysis : b.analyses[a]? with
  | none =>
    simp only [turn, turnDeeds, hanalysis]
    exact .inl hdone.deals
  | some x =>
    cases hcrawl : x.crawl with
    | none =>
      simp only [turn, turnDeeds, hanalysis, hcrawl]
      exact .inl hdone.deals
    | some state =>
      obtain ⟨url, memory⟩ := state
      obtain ⟨log, hlog⟩ := foldl_note_eq (s.analysisContext url) (C.turn memory t).notes { b with
        analyses := b.analyses.set a { x with crawl := some (url, (C.turn memory t).memory) } }
      have hturn : Steady b { b with
          analyses := b.analyses.set a { x with crawl := some (url, (C.turn memory t).memory) }
          log := log } := steady_of_eq rfl rfl rfl rfl rfl rfl rfl
      simp only [turn, turnDeeds, hanalysis, hcrawl, hlog]
      cases (C.turn memory t).move with
      | ask u next =>
        -- the thread is in hand, with whatever answer it may go on
        have hheld := (hdone.trans hturn).trans (steady_goOn _ (Caller.number?_held (.thread a next)))
        exact .inl (hheld.trans_deals (deals_load _ u (.thread a next)))
      | leave ts =>
        refine .inl ((hdone.trans hturn).trans (steady_scheduleAll _ fun j hj => ?_)).deals
        obtain ⟨t', -, rfl⟩ := List.mem_map.1 hj
        rfl
      | finish outcome =>
        cases outcome with
        | ok r =>
          rcases deals_conclude (s := s) _ a x.path url r with h | h
          · exact .inl ((hdone.trans hturn).trans_deals h)
          · exact .inr ⟨rfl, h.of_steady (hdone.trans hturn)⟩
        | error f =>
          exact .inl ((hdone.trans hturn).trans_deals (deals_settleAnalysis _ a f))

/-! ### Jobs -/

/-- A job amounts to some deals, with its deeds, unless it ends the build for want of files. -/
theorem deals_run (b : Build C) (j : Job C) :
    Deals s (b.goOn j) (b.deeds s j) (b.run s j) ∨
      (b.deeds s j = [] ∧ Reports s (b.goOn j) (b.run s j)) := by
  have hdone : (∀ n answer, j ≠ .loaded n answer) → Steady (b.goOn j) b := steady_done b
  cases j with
  | pumpSources => exact .inl ((hdone nofun).trans_deals (deals_pumpSources b))
  | closeSources => exact .inl ((hdone nofun).trans (steady_closeSources b)).deals
  | pumpDependencies => exact .inl ((hdone nofun).trans_deals (deals_pumpDependencies b))
  | deliver p => exact .inl ((hdone nofun).trans_deals (deals_deliver b p))
  | begin a => exact .inl (deals_begin b a)
  | turn a t => exact deals_turn b a t
  | load n url =>
    have hheld : Steady (b.goOn (.load n url)) (b.hold (.client n)) := steady_goOn_goOn b (.inl rfl) nofun
    exact .inl (hheld.trans_deals (deals_load b url (.client n)))
  | loaded n answer => exact .inl (Deal.settle b n answer).deals
  | expire w => exact .inl (deals_expire b w)

end HtmlDeps.Build
