import HtmlDeps.Proofs.Build.Calm

/-!
# What a job may do to a running build

A fault lets a build fail, and then nothing more need be known of it.  These are the ways in which a
job may leave a build that has not failed: one statement for each job, from which follows what the
job preserves.
-/

namespace HtmlDeps.Build

variable {C : Crawler} {s : Setup} {b b' : Build C}

/-! ### Ends -/

theorem status_fail (b : Build C) (current : Option Nat) (f : Failure) :
    (b.fail s current f).status = .failed := by
  unfold fail
  split
  · assumption
  · rfl

theorem status_crash (b : Build C) (current : Option Nat) (f : Fault) :
    (b.crash s current f).status = .failed := status_fail _ _ _

/-- A fault in an analysis of the build's own. -/
theorem status_settleAnalysis_error {a : Nat} (f : Fault)
    (hown : ∀ x, b.analyses[a]? = some x → x.client = false) :
    (b.settleAnalysis s a (.error f)).status = .failed := by
  have hclient : (b.analyses[a]?).elim false (·.client) = false := by
    cases h : b.analyses[a]? with
    | none => rfl
    | some x => exact hown x h
  unfold settleAnalysis
  simp only [hclient, Bool.false_eq_true, if_false]
  exact status_crash _ _ _

theorem status_succeed (b : Build C) : (b.succeed s).status = .succeeded := by
  unfold succeed enqueue
  dsimp only [note, noteWith, schedule]
  split <;> split <;> rfl

/-- An empty worklist ends a build, one way or the other. -/
theorem status_complete (b : Build C) (current : Option Nat) :
    (b.complete s current).status ≠ .running := by
  intro hrunning
  unfold complete at hrunning
  split at hrunning
  · exact absurd hrunning ‹_›
  · dsimp only at hrunning
    split at hrunning
    · rw [status_fail] at hrunning
      cases hrunning
    · split at hrunning
      · rw [status_succeed] at hrunning
        cases hrunning
      · rw [status_fail] at hrunning
        cases hrunning

theorem noteAll_eq (ctx : Log.Fields) (es : List Log.Entry) (b : Build C) :
    ∃ log, b.noteAll ctx es = { b with log := log } := by
  induction es generalizing b with
  | nil => exact ⟨b.log, rfl⟩
  | cons e es ih =>
    obtain ⟨log, hlog⟩ := ih (b.noteWith ctx e.level e.message e.fields)
    exact ⟨log, hlog⟩

/-- With success nobody waits for a file any more. -/
theorem keys_of_complete (b : Build C) (current : Option Nat) (hrunning : b.status = .running)
    (hsucceeded : (b.complete s current).status = .succeeded) : b.waitlist.keys = [] := by
  obtain ⟨log, hlog⟩ := noteAll_eq s.context (Warnings.printed b.warnings) b
  unfold complete at hsucceeded
  rw [if_neg (by simp [hrunning]), hlog] at hsucceeded
  dsimp only at hsucceeded
  split at hsucceeded
  · rw [status_fail] at hsucceeded
    cases hsucceeded
  · split at hsucceeded
    · rename_i hkeys
      exact List.isEmpty_iff.1 hkeys
    · rw [status_fail] at hsucceeded
      cases hsucceeded

/-! ### Files -/

theorem takeSource_eq {f : File} (h : b.takeSource s f = (b', none)) :
    ∃ b₁ o, b.register s f = (b₁, none) ∧ (b₁.claim f).sources.send f = .ok o ∧
      b' = { b₁.claim f with sources := o } := by
  unfold takeSource at h
  split at h
  · cases h
  · rename_i b₁ hregister
    dsimp only at h
    split at h
    · cases h
    · rename_i o hsend
      exact ⟨b₁, o, hregister, hsend, (Prod.mk.inj h).1.symm⟩

theorem takeDependency_eq {f : File} (h : b.takeDependency s f = (b', none)) :
    ∃ b₁ o, b.register s f = (b₁, none) ∧ (b₁.claim f).dependencies.send f = .ok o ∧
      b' = { b₁.claim f with dependencies := o } := by
  unfold takeDependency at h
  split at h
  · cases h
  · rename_i b₁ hregister
    dsimp only at h
    split at h
    · cases h
    · rename_i o hsend
      exact ⟨b₁, o, hregister, hsend, (Prod.mk.inj h).1.symm⟩

theorem status_closeSources (b : Build C) : b.closeSources.status = b.status := by
  unfold closeSources
  dsimp only
  split <;> rfl

/-- The source pump waits, or the sources are exhausted, or a file is taken. -/
theorem pumpSources_cases (h : b.pumpSources s = b') (hrunning : b'.status = .running) :
    (b.incoming = [] ∧ b' = { b with sourcePump := .idle }) ∨
    (∃ rest b₁, b.incoming = .finish :: rest ∧ b.missing = [] ∧
      { b with incoming := rest, exhausted := true }.releaseSources s b.waitlist.keys = (b₁, none) ∧
      b' = { b₁ with sourcePump := .closing }) ∨
    ∃ f rest b₁ o, b.incoming = .file f :: rest ∧
      { b with incoming := rest }.register s f = (b₁, none) ∧
      (b₁.claim f).sources.send f = .ok o ∧
      b' = { b₁.claim f with sources := o }.goOn .pumpSources := by
  unfold pumpSources at h
  split at h  -- Each way to crash ends the build, which contradicts that it runs.
  · exact .inl ⟨‹_›, h.symm⟩
  · rename_i item rest hincoming
    dsimp only at h
    split at h
    · right
      left
      unfold exhaust at h
      dsimp only at h
      split at h
      · rw [← h, status_fail] at hrunning
        cases hrunning
      · rename_i hmissing
        split at h
        · rw [← h, status_crash] at hrunning
          cases hrunning
        · rename_i b₁ hrelease
          refine ⟨rest, b₁, hincoming, hmissing, hrelease, ?_⟩
          split at h
          · exact h.symm
          · rename_i hstatus
            rw [← h, status_closeSources] at hrunning
            exact absurd hrunning hstatus
    · rw [← h, status_crash] at hrunning
      cases hrunning
    · rename_i f
      right
      right
      split at h
      · rename_i hfailed
        rw [← h] at hrunning
        exact absurd (hfailed.symm.trans hrunning) nofun
      · split at h
        · rw [← h, status_crash] at hrunning
          cases hrunning
        · rename_i b₂ htake
          obtain ⟨b₁, o, hregister, hsend, rfl⟩ := takeSource_eq htake
          exact ⟨f, rest, b₁, o, hincoming, hregister, hsend, h.symm⟩

/-- A dependency that was delivered is taken. -/
theorem deliver_cases {p : Path} (h : b.deliver s p = b') (hrunning : b'.status = .running) :
    ∃ contents b₁ o, s.read p = .ok contents ∧ b.register s ⟨p, contents⟩ = (b₁, none) ∧
      (b₁.claim ⟨p, contents⟩).dependencies.send ⟨p, contents⟩ = .ok o ∧
      b' = { b₁.claim ⟨p, contents⟩ with dependencies := o, dependencyPump := .working }.goOn
        .pumpDependencies := by
  cases hread : s.read p with
  | error f =>
    obtain ⟨log, e, -, hdeliver⟩ := b.deliver_of_error hread
    rw [← h, hdeliver, status_fail] at hrunning
    cases hrunning
  | ok contents =>
    simp only [deliver, hread] at h
    split at h
    · rw [← h, status_crash] at hrunning
      cases hrunning
    · rename_i b₂ htake
      obtain ⟨b₁, o, hregister, hsend, rfl⟩ := takeDependency_eq htake
      exact ⟨contents, b₁, o, rfl, hregister, hsend, h.symm⟩

/-- A dependency has been taken off the queue and read. -/
def fetched (b : Build C) (rest : List (Option Path)) (r : Read) : Build C :=
  { b with queue := rest, reads := b.reads ++ [r], dependencyPump := .reading }

/-- The dependency pump waits, or reads a dependency; the end of the queue is not there yet. -/
theorem pumpDependencies_cases (h : b.pumpDependencies s = b') (hqueue : none ∉ b.queue) :
    (b.queue = [] ∧ b' = { b with dependencyPump := .idle }) ∨
    ∃ (p : Path) (rest : List (Option Path)) (url : Text), b.queue = some p :: rest ∧
      (s.gated = true ∧ b' = b.fetched rest ⟨url, p, .pending⟩ ∨
        s.gated = false ∧ b' = (b.fetched rest ⟨url, p, .delivered⟩).deliver s p) := by
  unfold pumpDependencies at h
  split at h
  · exact .inl ⟨‹_›, h.symm⟩
  · rename_i rest hnone
    rw [hnone] at hqueue
    exact absurd List.mem_cons_self hqueue
  · rename_i p rest hsome
    right
    refine ⟨p, rest, (s.project.url p).toOption.getD p.toText, hsome, ?_⟩
    dsimp only at h
    cases hgated : s.gated with
    | true => exact .inl ⟨rfl, by simpa [hgated, fetched] using h.symm⟩
    | false => exact .inr ⟨rfl, by simpa [hgated, fetched] using h.symm⟩

/-! ### Analyses -/

/-- Notes change the log and nothing else. -/
theorem foldl_note_eq (ctx : Log.Fields) (notes : List Text) (b : Build C) :
    ∃ log, notes.foldl (fun b n => b.note ctx .debug n) b = { b with log := log } := by
  induction notes generalizing b with
  | nil => exact ⟨b.log, rfl⟩
  | cons n notes ih =>
    obtain ⟨log, hlog⟩ := ih (b.note ctx .debug n)
    exact ⟨log, hlog⟩

theorem map_set_eq_map {α β : Type} {f : α → β} {l : List α} {x y : α} {a : Nat} (hy : l[a]? = some y)
    (h : f x = f y) : (l.set a x).map f = l.map f := by
  obtain ⟨ha, rfl⟩ := List.getElem?_eq_some_iff.1 hy
  have ha' : a < (l.map f).length := by rwa [List.length_map]
  have hget : f l[a] = (l.map f)[a] := (List.getElem_map f).symm
  rw [List.map_set, h, hget, List.set_getElem_self]

/-- An analysis has been changed, and something was noted. -/
def moved (b : Build C) (a : Nat) (x : Analysis C) (log : List Log.Entry) : Build C :=
  { b with analyses := b.analyses.set a x, log := log }

theorem own_of_moved {a : Nat} {x : Analysis C} (hx : b.analyses[a]? = some x) {x' : Analysis C}
    {log : List Log.Entry} (hown : x'.client = false) :
    ∀ y, (b.moved a x' log).analyses[a]? = some y → y.client = false := by
  intro y hy
  rw [moved, List.getElem?_set_self (List.getElem?_eq_some_iff.1 hx).1] at hy
  exact (Option.some.inj hy) ▸ hown

/-- An analysis begins. -/
theorem begin_cases {a : Nat} {x : Analysis C} (hx : b.analyses[a]? = some x)
    (hown : x.client = false) (h : b.begin s a = b') (hrunning : b'.status = .running) :
    ∃ url, s.project.url x.path = .ok url ∧
      b' = (b.moved a { x with crawl := some (url, (C.start url).1) } b.log).goOn
        (.turn a (C.start url).2) := by
  unfold begin at h
  simp only [hx] at h
  split at h
  · rw [← h, status_settleAnalysis_error] at hrunning
    · cases hrunning
    · intro y hy
      rw [hx] at hy
      exact (Option.some.inj hy) ▸ hown
  · rename_i url hurl
    exact ⟨url, hurl, h.symm⟩

theorem enter_eq {p : Path} {d : Deps} (h : b.enter p d = .ok b') :
    ∃ i, b.index.add p.toText d = .ok i ∧
      b' = { b with index := i, worklist := b.worklist.filter (· ≠ p) } := by
  unfold enter at h
  by_cases hmem : p ∉ b.worklist
  · rw [if_pos hmem] at h
    cases h
  · rw [if_neg hmem] at h
    split at h
    · cases h
    · rename_i i hadd
      exact ⟨i, hadd, (Except.ok.inj h).symm⟩

/-- A fragment with this index and these notes has been entered. -/
def entered (b : Build C) (p : Path) (ws : List Warning) (i : Index) (log : List Log.Entry) :
    Build C :=
  { b with warnings := ws, log := log, index := i, worklist := b.worklist.filter (· ≠ p) }

/-- The report on a fragment is entered into the index, and the fragment leaves the worklist; if it
was the last one, the build ends. -/
theorem conclude_cases {a : Nat} {p : Path} {url : Text} {r : Report}
    (hown : ∀ x, b.analyses[a]? = some x → x.client = false) (h : b.conclude s a p url r = b')
    (hstatus : b'.status ≠ .failed) :
    ∃ i ws log, (Deps.ofReferences r.references).2 = none ∧
      b.index.add p.toText (Deps.ofReferences r.references).1.deps = .ok i ∧
      b' = (if (b.entered p ws i log).worklist.isEmpty then (b.entered p ws i log).complete s (some a)
        else b.entered p ws i log).settleAnalysis s a (.ok ()) := by
  have hfail : ∀ b₁ : Build C, b₁.analyses = b.analyses → ∀ f,
      (b₁.settleAnalysis s a (.error f)).status = .failed :=
    fun b₁ hb₁ f => status_settleAnalysis_error f (hb₁ ▸ hown)
  unfold conclude at h
  dsimp only at h
  obtain ⟨log, hlog⟩ := foldl_note_eq (s.analysisContext url) (Deps.ofReferences r.references).1.notes
    { b with warnings := Warnings.addAll b.warnings r.warnings }
  rw [hlog] at h
  split at h
  · rw [← h] at hstatus
    refine (hstatus (hfail _ ?_ _)).elim
    rfl
  · rename_i hnone
    split at h
    · rw [← h] at hstatus
      refine (hstatus (hfail _ ?_ _)).elim
      rfl
    · rename_i b₁ henter
      obtain ⟨i, hadd, rfl⟩ := enter_eq henter
      exact ⟨i, _, _, hnone, hadd, h.symm⟩

theorem status_settleAnalysis_ok (b : Build C) (a : Nat) :
    (b.settleAnalysis s a (.ok ())).status = b.status := rfl

/-- As long as the build goes on, some fragment is left. -/
theorem conclude_running {a : Nat} {p : Path} {url : Text} {r : Report}
    (hown : ∀ x, b.analyses[a]? = some x → x.client = false) (h : b.conclude s a p url r = b')
    (hrunning : b'.status = .running) :
    ∃ i ws log, (Deps.ofReferences r.references).2 = none ∧
      b.index.add p.toText (Deps.ofReferences r.references).1.deps = .ok i ∧
      (b.entered p ws i log).worklist ≠ [] ∧
      b' = (b.entered p ws i log).settleAnalysis s a (.ok ()) := by
  have hstatus : b'.status ≠ .failed := by
    rw [hrunning]
    nofun
  obtain ⟨i, ws, log, hnone, hadd, hb'⟩ := conclude_cases hown h hstatus
  split at hb'
  · rw [hb', status_settleAnalysis_ok] at hrunning
    exact absurd hrunning (status_complete _ _)
  · rename_i hleft
    exact ⟨i, ws, log, hnone, hadd, mt List.isEmpty_iff.2 hleft, hb'⟩

/-- A thread takes its turn: it asks, or leaves threads behind, or ends the crawl with a report. -/
theorem turn_cases {a : Nat} {t : C.Thread} {x : Analysis C} {url : Text} {m : C.Memory}
    (hx : b.analyses[a]? = some x) (hown : x.client = false) (hcrawl : x.crawl = some (url, m))
    (h : b.turn s a t = b') (hstatus : b'.status ≠ .failed) :
    ∃ b₁ log, b₁ = b.moved a { x with crawl := some (url, (C.turn m t).memory) } log ∧
      ((∃ u next, (C.turn m t).move = .ask u next ∧ b' = b₁.load s u (.thread a next)) ∨
        (∃ ts, (C.turn m t).move = .leave ts ∧ b' = b₁.scheduleAll (ts.map (.turn a))) ∨
        ∃ r, (C.turn m t).move = .finish (.ok r) ∧ b' = b₁.conclude s a x.path url r) := by
  unfold turn at h
  simp only [hx, hcrawl] at h
  obtain ⟨log, hlog⟩ := foldl_note_eq (s.analysisContext url) (C.turn m t).notes
    { b with analyses := b.analyses.set a { x with crawl := some (url, (C.turn m t).memory) } }
  rw [hlog] at h
  refine ⟨_, log, rfl, ?_⟩
  split at h
  · rename_i u next hmove
    exact .inl ⟨u, next, hmove, h.symm⟩
  · rename_i ts hmove
    exact .inr (.inl ⟨ts, hmove, h.symm⟩)
  · rename_i r hmove
    exact .inr (.inr ⟨r, hmove, h.symm⟩)
  · rename_i f hmove
    rw [← h, status_settleAnalysis_error] at hstatus
    · exact absurd rfl hstatus
    · intro y hy
      rw [List.getElem?_set_self (List.getElem?_eq_some_iff.1 hx).1] at hy
      exact (Option.some.inj hy) ▸ hown

/-! ### The status after a job -/

theorem status_register (b : Build C) (f : File) : (b.register s f).1.status = b.status := by
  rcases register_cases (s := s) b f with hcalm | hnone
  · exact hcalm.status
  · obtain ⟨u, -, hcalm⟩ := register_eq (Prod.ext rfl hnone : b.register s f = (_, none))
    exact hcalm.status

/-- A fragment that was not started is started. -/
theorem claim_cases (b : Build C) (f : File) :
    (f.path.normal ∈ b.worklist ∧ f.path.normal ∉ b.claimed ∧ b.claim f =
      { b with claimed := b.claimed ++ [f.path.normal] }.analyze f.path.normal false) ∨
    ¬ (f.path.normal ∈ b.worklist ∧ f.path.normal ∉ b.claimed) ∧ b.claim f = b := by
  unfold claim
  dsimp only
  split
  · rename_i h
    exact .inl ⟨h.1, h.2, rfl⟩
  · rename_i h
    exact .inr ⟨h, rfl⟩

theorem status_claim (b : Build C) (f : File) : (b.claim f).status = b.status := by
  rcases claim_cases b f with ⟨-, -, h⟩ | ⟨-, h⟩
  · rw [h]
    rfl
  · rw [h]

theorem status_takeSource (b : Build C) (f : File) : (b.takeSource s f).1.status = b.status := by
  have hregister := status_register (s := s) b f
  unfold takeSource
  split
  · rename_i heq
    rwa [heq] at hregister
  · rename_i heq
    rw [heq] at hregister
    dsimp only
    split <;> exact (status_claim _ f).trans hregister

theorem status_takeDependency (b : Build C) (f : File) :
    (b.takeDependency s f).1.status = b.status := by
  have hregister := status_register (s := s) b f
  unfold takeDependency
  split
  · rename_i heq
    rwa [heq] at hregister
  · rename_i heq
    rw [heq] at hregister
    dsimp only
    split <;> exact (status_claim _ f).trans hregister

theorem status_settleAnalysis (b : Build C) (a : Nat) (outcome : Except Fault Unit) :
    (b.settleAnalysis s a outcome).status = b.status ∨
      (b.settleAnalysis s a outcome).status = .failed := by
  unfold settleAnalysis
  dsimp only
  split
  · split
    · exact .inl rfl
    · exact .inr (status_crash _ _ _)
  · exact .inl rfl

theorem status_pumpSources (b : Build C) :
    (b.pumpSources s).status = b.status ∨ (b.pumpSources s).status = .failed := by
  unfold pumpSources exhaust
  split
  · exact .inl rfl
  · rename_i item rest _
    dsimp only
    split
    · split
      · exact .inr (status_fail _ _ _)
      · have hcalm := calm_releaseSources (s := s)
          { b with incoming := rest, exhausted := true } b.waitlist.keys
        split
        · exact .inr (status_crash _ _ _)
        · rename_i heq
          rw [heq] at hcalm
          split
          · exact .inl hcalm.status
          · exact .inl ((status_closeSources _).trans hcalm.status)
    · exact .inr (status_crash _ _ _)
    · rename_i f _
      have htake := status_takeSource (s := s) { b with incoming := rest } f
      split
      · exact .inl rfl
      · split
        · exact .inr (status_crash _ _ _)
        · rename_i heq
          rw [heq] at htake
          exact .inl htake

theorem status_deliver (b : Build C) (p : Path) :
    (b.deliver s p).status = b.status ∨ (b.deliver s p).status = .failed := by
  cases hread : s.read p with
  | error f =>
    obtain ⟨log, e, -, hdeliver⟩ := b.deliver_of_error hread
    rw [hdeliver]
    exact .inr (status_fail _ _ _)
  | ok contents =>
    simp only [deliver, hread]
    have htake := status_takeDependency (s := s) b ⟨p, contents⟩
    split
    · exact .inr (status_crash _ _ _)
    · rename_i heq
      rw [heq] at htake
      exact .inl htake

theorem status_pumpDependencies (b : Build C) :
    (b.pumpDependencies s).status = b.status ∨ (b.pumpDependencies s).status = .failed := by
  unfold pumpDependencies
  split
  · exact .inl rfl
  · dsimp only
    split <;> exact .inl rfl
  · dsimp only
    split
    · exact .inl rfl
    · exact status_deliver _ _

theorem status_begin (b : Build C) (a : Nat) :
    (b.begin s a).status = b.status ∨ (b.begin s a).status = .failed := by
  unfold begin
  split
  · exact .inl rfl
  · split
    · exact status_settleAnalysis b a _
    · exact .inl rfl

/-- Only a turn can let a build succeed. -/
theorem status_run {j : Job C} (hj : ∀ a t, j ≠ .turn a t) :
    (b.run s j).status = b.status ∨ (b.run s j).status = .failed := by
  cases j with
  | pumpSources => exact status_pumpSources b
  | closeSources => exact .inl (status_closeSources b)
  | pumpDependencies => exact status_pumpDependencies b
  | deliver p => exact status_deliver b p
  | begin a => exact status_begin b a
  | turn a t => exact absurd rfl (hj a t)
  | load n u => exact .inl (calm_load b u _).status
  | loaded n answer => exact .inl rfl
  | expire w => exact .inl (calm_expire b w).status

/-! ### The start -/

theorem allFragments_ne_nil (p : Project) : p.allFragments ≠ [] := by
  have hkeep : ∀ (fs seen : List Path), seen ≠ [] →
      fs.foldl (fun seen f => if f ∈ seen then seen else seen ++ [f]) seen ≠ [] := by
    intro fs
    induction fs with
    | nil => exact fun _ h => h
    | cons f fs ih =>
      intro seen hseen
      refine ih _ ?_
      dsimp only
      split
      · exact hseen
      · simp
  exact hkeep _ [p.entrypoint] nofun

/-- A build that has just started has its extra dependencies on the queue and its pumps ready. -/
theorem start_eq {p : Project} (h : (initial C p).start s = (b', none)) :
    ∃ ps b₁, s.extras = .ok ps ∧
      { initial C p with started := true }.enqueueExtras s ps = (b₁, none) ∧
      b' = (b₁.schedule 0 .pumpSources).schedule 0 .pumpDependencies := by
  unfold start at h
  rw [if_neg (by simp [initial])] at h
  dsimp only at h
  split at h
  · cases h
  · rename_i ps hextras
    have hcalm := calm_enqueueExtras { initial C p with started := true }
      fun q hq => (.inr ⟨ps, hextras, hq⟩ : Origin s q)
    split at h
    · cases h
    · rename_i b₁ heq
      rw [heq] at hcalm
      have hworklist : ((b₁.schedule 0 .pumpSources).schedule 0 .pumpDependencies).worklist ≠ [] := by
        change b₁.worklist ≠ []
        rw [hcalm.worklist]
        exact allFragments_ne_nil p
      rw [if_neg (mt List.isEmpty_iff.1 hworklist)] at h
      exact ⟨ps, b₁, hextras, heq, (Prod.mk.inj h).1.symm⟩

end HtmlDeps.Build
