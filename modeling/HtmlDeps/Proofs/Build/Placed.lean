import HtmlDeps.Proofs.Build.Cases
import HtmlDeps.Proofs.Build.Step
import HtmlDeps.Proofs.Path.Project

/-!
# The files of a build

A build handles regular paths only (`Placed`), and a file that was registered or sent stays so
(`Keeps`).  This holds of all steps, also once the build is over (`keeps_works`).
-/

namespace HtmlDeps.Build

variable {C : Crawler} {s : Setup} {b b' : Build C} {f : File} {p : Path}

def sent (b : Build C) : List File := b.sources.sent ++ b.dependencies.sent

structure Placed (s : Setup) (b : Build C) : Prop where
  sent : ∀ f ∈ b.sent, s.project.Regular f.path
  incoming : ∀ f, .file f ∈ b.incoming → s.project.Regular f.path
  queue : ∀ p, some p ∈ b.queue → s.project.Regular p
  reads : ∀ r ∈ b.reads, s.project.Regular r.path
  ready : ∀ n p, (n, .deliver p) ∈ b.ready → s.project.Regular p

structure Keeps (s : Setup) (b b' : Build C) : Prop where
  files : ∀ u, b.files.has u → b'.files.has u
  sent : ∀ f ∈ b.sent, f ∈ b'.sent
  placed : Placed s b → Placed s b'

theorem Keeps.trans {b₁ b₂ b₃ : Build C} (h : Keeps s b₁ b₂) (h' : Keeps s b₂ b₃) :
    Keeps s b₁ b₃ :=
  ⟨fun u hu => h'.files u (h.files u hu), fun f hf => h'.sent f (h.sent f hf),
    fun hp => h'.placed (h.placed hp)⟩

theorem keeps_of_subset (hfiles : b'.files = b.files) (hsent : b'.sent = b.sent)
    (hincoming : ∀ f, .file f ∈ b'.incoming → .file f ∈ b.incoming)
    (hqueue : ∀ p, some p ∈ b'.queue → some p ∈ b.queue)
    (hreads : ∀ r ∈ b'.reads, ∃ r₀ ∈ b.reads, r₀.path = r.path)
    (hready : ∀ n p, (n, .deliver p) ∈ b'.ready → (n, .deliver p) ∈ b.ready) : Keeps s b b' := by
  refine ⟨fun u hu => hfiles ▸ hu, fun f hf => hsent ▸ hf, fun h => ⟨?_, ?_, ?_, ?_, ?_⟩⟩
  · rw [hsent]
    exact h.sent
  · exact fun f hf => h.incoming f (hincoming f hf)
  · exact fun p hp => h.queue p (hqueue p hp)
  · intro r hr
    obtain ⟨r₀, hr₀, hpath⟩ := hreads r hr
    exact hpath ▸ h.reads r₀ hr₀
  · exact fun n p hp => h.ready n p (hready n p hp)

/-- Neither files nor deliveries are touched. -/
theorem keeps_same (hfiles : b'.files = b.files) (hsources : b'.sources.sent = b.sources.sent)
    (hdependencies : b'.dependencies.sent = b.dependencies.sent) (hincoming : b'.incoming = b.incoming)
    (hqueue : b'.queue = b.queue) (hreads : b'.reads = b.reads)
    (hready : ∀ n p, (n, .deliver p) ∈ b'.ready → (n, .deliver p) ∈ b.ready) : Keeps s b b' := by
  refine keeps_of_subset hfiles ?_ ?_ ?_ ?_ hready
  · rw [sent, sent, hsources, hdependencies]
  · rw [hincoming]
    exact fun _ hf => hf
  · rw [hqueue]
    exact fun _ hp => hp
  · rw [hreads]
    exact fun r hr => ⟨r, hr, rfl⟩

theorem Keeps.refl (b : Build C) : Keeps s b b :=
  keeps_same rfl rfl rfl rfl rfl rfl fun _ _ h => h

section

variable (horigin : ∀ p, Origin s p → s.project.Regular p)

include horigin

theorem keeps_calm (h : Calm s b b') : Keeps s b b' := by
  have hsent : b'.sent = b.sent := by rw [sent, sent, h.sources, h.dependencies]
  obtain ⟨ps, hps, hpaths⟩ := h.queue
  refine ⟨fun u hu => h.files ▸ hu, fun f hf => hsent ▸ hf, fun hplaced => ⟨hsent ▸ hplaced.sent, ?_, fun p hp => ?_, ?_,
    fun n p hp => ?_⟩⟩
  · rw [h.incoming]
    exact hplaced.incoming
  · rw [hps, List.mem_append] at hp
    rcases hp with hp | hp
    · exact hplaced.queue p hp
    · obtain ⟨q, hq, heq⟩ := List.mem_map.1 hp
      obtain rfl := Option.some.inj heq
      exact horigin q (hpaths q hq)
  · rw [h.reads]
    exact hplaced.reads
  · rcases h.ready _ hp with hp | hfollows
    · exact hplaced.ready n p hp
    · exact hfollows.elim

end

/-! ### Ends -/

theorem keeps_fail (b : Build C) (current : Option Nat) (f : Failure) :
    Keeps s b (b.fail s current f) := by
  unfold fail
  split
  · exact .refl b
  · refine keeps_of_subset rfl ?_ (fun _ hf => hf) (fun _ hp => hp) (fun r hr => ?_)
      fun n p hp => (List.mem_filter.1 hp).1
    · simp only [sent, cancel, note, noteWith, Outlet.sent_close]
    · obtain ⟨r₀, hr₀, rfl⟩ := List.mem_map.1 hr
      refine ⟨r₀, hr₀, ?_⟩
      split <;> rfl

theorem keeps_note (b : Build C) (ctx : Log.Fields) (l : Log.Level) (m : Text) :
    Keeps s b (b.note ctx l m) := keeps_same rfl rfl rfl rfl rfl rfl fun _ _ h => h

theorem keeps_crash (b : Build C) (current : Option Nat) (f : Fault) :
    Keeps s b (b.crash s current f) := (keeps_note b _ _ _).trans (keeps_fail _ _ _)

theorem keeps_settleAnalysis (b : Build C) (a : Nat) (outcome : Except Fault Unit) :
    Keeps s b (b.settleAnalysis s a outcome) := by
  have hset : Keeps s b
      { b with analyses := b.analyses.modify a fun x => { x with outcome := some outcome } } :=
    keeps_same rfl rfl rfl rfl rfl rfl fun _ _ h => h
  unfold settleAnalysis
  dsimp only
  split
  · split
    · exact hset
    · exact hset.trans (keeps_crash _ _ _)
  · exact hset

theorem keeps_schedule (b : Build C) (n : Nat) {j : Job C} (hj : ∀ p, j ≠ .deliver p) :
    Keeps s b (b.schedule n j) := by
  refine keeps_same rfl rfl rfl rfl rfl rfl fun k p hp => ?_
  rcases List.mem_append.1 hp with hp | hp
  · exact hp
  · exact absurd (Prod.mk.inj (List.mem_singleton.1 hp)).2.symm (hj p)

theorem keeps_goOn (b : Build C) {j : Job C} (hj : ∀ p, j ≠ .deliver p) :
    Keeps s b (b.goOn j) := by
  refine keeps_same rfl rfl rfl rfl rfl rfl fun k p hp => ?_
  rcases List.mem_cons.1 hp with hp | hp
  · exact absurd (Prod.mk.inj hp).2.symm (hj p)
  · exact hp

theorem keeps_succeed (b : Build C) : Keeps s b (b.succeed s) := by
  have hqueue : ∀ (b : Build C), Keeps s b { b with queue := b.queue ++ [none] } := by
    refine fun b => keeps_of_subset rfl rfl (fun _ hf => hf) (fun p hp => ?_)
      (fun r hr => ⟨r, hr, rfl⟩) fun _ _ h => h
    simpa using hp
  have henqueue : ∀ b : Build C, Keeps s b (b.enqueue none) := by
    intro b
    unfold enqueue
    dsimp only
    split
    · have hworking : Keeps s { b with queue := b.queue ++ [none] }
          { b with queue := b.queue ++ [none], dependencyPump := .working } :=
        keeps_same rfl rfl rfl rfl rfl rfl fun _ _ h => h
      exact ((hqueue b).trans hworking).trans (keeps_schedule _ 0 nofun)
    · exact hqueue b
  unfold succeed
  dsimp only
  have hdone : ∀ log, Keeps s b
      { b with status := .succeeded, outcome := some (.ok b.index), log := log } :=
    fun _ => keeps_same rfl rfl rfl rfl rfl rfl fun _ _ h => h
  split
  · have hworking : ∀ b : Build C, Keeps s b { b with sourcePump := .working } := fun b =>
      keeps_same rfl rfl rfl rfl rfl rfl fun _ _ h => h
    exact (((hdone _).trans (henqueue _)).trans (hworking _)).trans (keeps_schedule _ 0 nofun)
  · exact (hdone _).trans (henqueue _)

theorem keeps_closeSources (b : Build C) : Keeps s b b.closeSources := by
  unfold closeSources
  dsimp only
  split
  · exact keeps_same rfl (Outlet.sent_close _ _) rfl rfl rfl rfl fun _ _ h => h
  · exact keeps_same rfl rfl rfl rfl rfl rfl fun _ _ h => h

theorem keeps_claim (b : Build C) (f : File) : Keeps s b (b.claim f) := by
  unfold claim
  dsimp only
  split
  · have hfresh : Keeps s b { b with
        claimed := b.claimed ++ [f.path.normal]
        analyses := b.analyses ++ [⟨f.path.normal, false, none, none⟩] } :=
      keeps_same rfl rfl rfl rfl rfl rfl fun _ _ h => h
    exact hfresh.trans (keeps_schedule _ 0 nofun)
  · exact .refl b

theorem keeps_enter {d : Deps} (h : b.enter p d = .ok b') : Keeps s b b' := by
  obtain ⟨i, -, rfl⟩ := enter_eq h
  exact keeps_same rfl rfl rfl rfl rfl rfl fun _ _ h => h

/-! ### Steps -/

theorem keeps_arrive (b : Build C) (item : Arrival)
    (hitem : ∀ f, item = .file f → s.project.Regular f.path) : Keeps s b (b.arrive item) := by
  have harrived : ∀ pump, Keeps s b
      { b with incoming := b.incoming ++ [item], sourcePump := pump } := by
    refine fun pump => ⟨fun _ hu => hu, fun _ hf => hf, fun h => ⟨h.sent, fun f hf => ?_, h.queue,
      h.reads, h.ready⟩⟩
    rcases List.mem_append.1 hf with hf | hf
    · exact h.incoming f hf
    · exact hitem f (List.mem_singleton.1 hf).symm
  unfold arrive
  dsimp only
  split
  · exact (harrived .working).trans (keeps_schedule _ 0 nofun)
  · exact harrived _

theorem keeps_begin (b : Build C) (a : Nat) : Keeps s b (b.begin s a) := by
  unfold begin
  split
  · exact .refl b
  · split
    · exact keeps_settleAnalysis b a _
    · rename_i x _ _ url _
      have hcrawl : Keeps s b
          { b with analyses := b.analyses.set a { x with crawl := some (url, (C.start url).1) } } :=
        keeps_same rfl rfl rfl rfl rfl rfl fun _ _ h => h
      exact hcrawl.trans (keeps_goOn _ nofun)

section

variable (horigin : ∀ p, Origin s p → s.project.Regular p)

include horigin

theorem keeps_complete (b : Build C) (current : Option Nat) :
    Keeps s b (b.complete s current) := by
  unfold complete
  split
  · exact .refl b
  · have hnotes : Keeps s b (b.noteAll s.context (Warnings.printed b.warnings)) :=
      keeps_calm horigin (calm_noteAll b _ _)
    dsimp only
    split
    · exact hnotes.trans (keeps_fail _ _ _)
    · split
      · exact hnotes.trans (keeps_succeed _)
      · exact (hnotes.trans (keeps_calm horigin (calm_foldl (fun b u =>
          calm_note b s.context .error (u ++ " never loaded")) _ _))).trans (keeps_fail _ _ _)

theorem keeps_conclude (b : Build C) (a : Nat) (p : Path) (url : Text) (r : Report) :
    Keeps s b (b.conclude s a p url r) := by
  have hwarnings : Keeps s b { b with warnings := Warnings.addAll b.warnings r.warnings } :=
    keeps_same rfl rfl rfl rfl rfl rfl fun _ _ h => h
  have hnotes := hwarnings.trans (keeps_calm horigin (calm_foldl
    (fun b n => calm_note b (s.analysisContext url) .debug n)
    (Deps.ofReferences r.references).1.notes _))
  unfold conclude
  dsimp only
  split
  · exact hnotes.trans (keeps_settleAnalysis _ a _)
  · have hdeps := hnotes.trans (keeps_calm horigin (calm_noteWith _ (s.analysisContext url)
      .debug ("dependencies analyzed for: " ++ url)
      [(Log.contextMark ++ ("deps" : Text), (Deps.ofReferences r.references).1.deps.value)]))
    split
    · exact hdeps.trans (keeps_settleAnalysis _ a _)
    · rename_i henter
      have hentered := hdeps.trans (keeps_enter henter)
      split
      · exact (hentered.trans (keeps_complete horigin _ _)).trans (keeps_settleAnalysis _ a _)
      · exact hentered.trans (keeps_settleAnalysis _ a _)

theorem keeps_turn (b : Build C) (a : Nat) (t : C.Thread) : Keeps s b (b.turn s a t) := by
  unfold turn
  split
  · exact .refl b
  · split
    · exact .refl b
    · rename_i x _ _ url memory _
      have hcrawl : Keeps s b { b with
          analyses := b.analyses.set a { x with crawl := some (url, (C.turn memory t).memory) } } :=
        keeps_same rfl rfl rfl rfl rfl rfl fun _ _ h => h
      have hnotes := hcrawl.trans (keeps_calm horigin (calm_foldl
        (fun b n => calm_note b (s.analysisContext url) .debug n) (C.turn memory t).notes _))
      dsimp only
      split
      · exact hnotes.trans (keeps_calm horigin (calm_load _ _ _))
      · refine hnotes.trans (keeps_same rfl rfl rfl rfl rfl rfl fun n p hp => ?_)
        rcases List.mem_append.1 hp with hp | hp
        · exact hp
        · obtain ⟨j, hj, heq⟩ := List.mem_map.1 hp
          obtain ⟨t', -, rfl⟩ := List.mem_map.1 hj
          cases heq
      · exact hnotes.trans (keeps_conclude horigin _ a _ _ _)
      · exact hnotes.trans (keeps_settleAnalysis _ a _)

theorem keeps_register (b : Build C) (f : File) : Keeps s b (b.register s f).1 := by
  rcases register_cases (s := s) b f with hcalm | hnone
  · exact keeps_calm horigin hcalm
  · obtain ⟨u, -, hcalm⟩ := register_eq (Prod.ext rfl hnone : b.register s f = (_, none))
    have hfiles : Keeps s b { b with files := b.files.put u f } :=
      ⟨fun _ hu => Table.has_put_of_has f hu, fun _ hf => hf, fun h =>
        ⟨h.sent, h.incoming, h.queue, h.reads, h.ready⟩⟩
    exact hfiles.trans (keeps_calm horigin hcalm)

theorem keeps_takeSource (b : Build C) (hf : s.project.Regular f.path) :
    Keeps s b (b.takeSource s f).1 := by
  have hregister := keeps_register horigin b f
  unfold takeSource
  split
  · rename_i heq
    rwa [heq] at hregister
  · rename_i b₁ heq
    rw [heq] at hregister
    have hclaim := hregister.trans (keeps_claim _ f)
    dsimp only
    split
    · exact hclaim
    · rename_i o hsend
      have ho := Outlet.sent_of_send hsend
      refine hclaim.trans ⟨fun _ hu => hu, fun g hg => ?_, fun h => ⟨fun g hg => ?_, h.incoming,
        h.queue, h.reads, h.ready⟩⟩
      · rw [sent, ho]
        exact (List.mem_append.1 hg).elim
          (fun h => List.mem_append_left _ (List.mem_append_left _ h)) (List.mem_append_right _)
      · rw [sent, ho, List.append_assoc, List.mem_append, List.singleton_append,
          List.mem_cons] at hg
        rcases hg with hg | rfl | hg
        · exact h.sent g (List.mem_append_left _ hg)
        · exact hf
        · exact h.sent g (List.mem_append_right _ hg)

theorem keeps_takeDependency (b : Build C) (hf : s.project.Regular f.path) :
    Keeps s b (b.takeDependency s f).1 := by
  have hregister := keeps_register horigin b f
  unfold takeDependency
  split
  · rename_i heq
    rwa [heq] at hregister
  · rename_i b₁ heq
    rw [heq] at hregister
    have hclaim := hregister.trans (keeps_claim _ f)
    dsimp only
    split
    · exact hclaim
    · rename_i o hsend
      have ho := Outlet.sent_of_send hsend
      refine hclaim.trans ⟨fun _ hu => hu, fun g hg => ?_, fun h => ⟨fun g hg => ?_, h.incoming,
        h.queue, h.reads, h.ready⟩⟩
      · rw [sent, ho, ← List.append_assoc]
        exact List.mem_append_left _ hg
      · rw [sent, ho, ← List.append_assoc, List.mem_append, List.mem_singleton] at hg
        rcases hg with hg | rfl
        · exact h.sent g hg
        · exact hf

theorem keeps_exhaust (b : Build C) : Keeps s b (b.exhaust s) := by
  have hexhausted : Keeps s b { b with exhausted := true } :=
    keeps_same rfl rfl rfl rfl rfl rfl fun _ _ h => h
  have hgone : ∀ b : Build C, Keeps s b { b with sourcePump := .gone } := fun _ =>
    keeps_same rfl rfl rfl rfl rfl rfl fun _ _ h => h
  unfold exhaust
  dsimp only
  split
  · rename_i m ms _
    have hnotes := hexhausted.trans (keeps_calm horigin (calm_foldl (fun b f =>
      calm_note b s.context .error ("fragment " ++ f ++ " was not found among the sources"))
      (m :: ms) _))
    exact (hnotes.trans (hgone _)).trans (keeps_fail _ _ _)
  · have hrelease := hexhausted.trans (keeps_calm horigin
      (calm_releaseSources { b with exhausted := true } b.waitlist.keys))
    split
    · rename_i heq
      rw [heq] at hrelease
      exact (hrelease.trans (hgone _)).trans (keeps_crash _ _ _)
    · rename_i heq
      rw [heq] at hrelease
      split
      · exact hrelease.trans (keeps_same rfl rfl rfl rfl rfl rfl fun _ _ h => h)
      · exact hrelease.trans (keeps_closeSources _)

theorem Placed.pumpSources (h : Placed s b) : Keeps s b (b.pumpSources s) := by
  have hgone : ∀ b : Build C, Keeps s b { b with sourcePump := .gone } := fun _ =>
    keeps_same rfl rfl rfl rfl rfl rfl fun _ _ h => h
  unfold Build.pumpSources
  split
  · exact keeps_same rfl rfl rfl rfl rfl rfl fun _ _ h => h
  · rename_i item rest hincoming
    have hrest : Keeps s b { b with incoming := rest } :=
      keeps_of_subset rfl rfl (fun f hf => hincoming ▸ List.mem_cons_of_mem item hf)
        (fun _ hp => hp) (fun r hr => ⟨r, hr, rfl⟩) fun _ _ h => h
    dsimp only
    split
    · exact hrest.trans (keeps_exhaust horigin _)
    · exact (hrest.trans (hgone _)).trans (keeps_crash _ _ _)
    · rename_i f
      split
      · exact hrest.trans (hgone _)
      · have hf : s.project.Regular f.path := h.incoming f (hincoming ▸ List.mem_cons_self)
        have htake := hrest.trans (keeps_takeSource horigin { b with incoming := rest } hf)
        split
        · rename_i heq
          rw [heq] at htake
          exact (htake.trans (hgone _)).trans (keeps_crash _ _ _)
        · rename_i heq
          rw [heq] at htake
          exact htake.trans (keeps_goOn _ nofun)

theorem keeps_deliver (b : Build C) (hp : s.project.Regular p) : Keeps s b (b.deliver s p) := by
  have hpump : ∀ (b : Build C) (pump : Pump), Keeps s b { b with dependencyPump := pump } :=
    fun _ _ => keeps_same rfl rfl rfl rfl rfl rfl fun _ _ h => h
  cases hread : s.read p with
  | error f =>
    obtain ⟨log, e, -, hdeliver⟩ := b.deliver_of_error hread
    have hgone : Keeps s b { b with dependencyPump := .gone, log := log } :=
      keeps_same rfl rfl rfl rfl rfl rfl fun _ _ h => h
    rw [hdeliver]
    exact hgone.trans (keeps_fail _ _ _)
  | ok contents =>
    simp only [deliver, hread]
    have hfile : s.project.Regular (File.path ⟨p, contents⟩) := hp
    have htake := keeps_takeDependency horigin b hfile
    split
    · rename_i heq
      rw [heq] at htake
      exact (htake.trans (hpump _ _)).trans (keeps_crash _ _ _)
    · rename_i heq
      rw [heq] at htake
      refine (htake.trans (hpump _ _)).trans (keeps_goOn _ ?_)
      intro q hq
      cases hq

theorem Placed.pumpDependencies (h : Placed s b) : Keeps s b (b.pumpDependencies s) := by
  unfold Build.pumpDependencies
  split
  · exact keeps_same rfl rfl rfl rfl rfl rfl fun _ _ h => h
  · rename_i rest hqueue
    have hrest : Keeps s b { b with queue := rest, dependencyPump := .gone } :=
      keeps_of_subset rfl rfl (fun _ hf => hf) (fun p hp => hqueue ▸ List.mem_cons_of_mem _ hp)
        (fun r hr => ⟨r, hr, rfl⟩) fun _ _ h => h
    dsimp only
    split
    · exact hrest.trans (keeps_same rfl rfl (Outlet.sent_close _ _) rfl rfl rfl fun _ _ h => h)
    · exact hrest
  · rename_i p rest hqueue
    have hp : s.project.Regular p := h.queue p (hqueue ▸ List.mem_cons_self)
    have hread : ∀ r : Read, r.path = p → Keeps s b (b.fetched rest r) := by
      rintro r rfl
      refine ⟨fun _ hu => hu, fun _ hf => hf, fun h => ⟨h.sent, h.incoming,
        fun q hq => h.queue q (hqueue ▸ List.mem_cons_of_mem _ hq), fun r' hr' => ?_, h.ready⟩⟩
      rcases List.mem_append.1 hr' with hr' | hr'
      · exact h.reads r' hr'
      · rw [List.mem_singleton.1 hr']
        exact hp
    dsimp only
    split
    · exact hread ⟨_, p, _⟩ rfl
    · exact (hread ⟨_, p, _⟩ rfl).trans (keeps_deliver horigin _ hp)

theorem keeps_run {j : Job C} (h : Placed s b) (hj : ∀ p, j = .deliver p → s.project.Regular p) :
    Keeps s b (b.run s j) := by
  cases j with
  | pumpSources => exact h.pumpSources horigin
  | closeSources => exact keeps_closeSources b
  | pumpDependencies => exact h.pumpDependencies horigin
  | deliver p => exact keeps_deliver horigin b (hj p rfl)
  | begin a => exact keeps_begin b a
  | turn a t => exact keeps_turn horigin b a t
  | load n u => exact keeps_calm horigin (calm_load b u _)
  | loaded n answer => exact keeps_same rfl rfl rfl rfl rfl rfl fun _ _ h => h
  | expire w => exact keeps_calm horigin (calm_expire b w)

theorem Placed.works (h : Placed s b) (hworks : Works s b b') : Keeps s b b' := by
  cases hworks with
  | @job before after n j hready =>
    -- Taking a job off the list drops one of the paths and adds none.
    have hrest : Keeps s b { b with ready := before ++ after } := by
      refine keeps_same rfl rfl rfl rfl rfl rfl fun k p hp => ?_
      rw [hready]
      rcases List.mem_append.1 hp with hp | hp
      · exact List.mem_append_left _ hp
      · exact List.mem_append_right _ (List.mem_cons_of_mem _ hp)
    refine hrest.trans (keeps_run horigin (hrest.placed h) ?_)
    rintro p rfl
    exact h.ready n p (by simp [hready])
  | @delay rest n j hready =>
    refine ⟨fun _ hu => hu, fun _ hf => hf, fun h => ⟨h.sent, h.incoming, h.queue, h.reads,
      fun k p hp => ?_⟩⟩
    rcases List.mem_append.1 hp with hp | hp
    · exact h.ready k p (hready ▸ List.mem_cons_of_mem _ hp)
    · obtain ⟨-, hj⟩ := Prod.mk.inj (List.mem_singleton.1 hp)
      exact h.ready (n + 1) p (hready ▸ hj ▸ List.mem_cons_self)
  | @deliver before after r hpending hreads =>
    have hr : s.project.Regular r.path := h.reads r (by simp [hreads])
    refine ⟨fun _ hu => hu, fun _ hf => hf, fun h => ⟨h.sent, h.incoming, h.queue,
      fun r' hr' => ?_, fun k p hp => ?_⟩⟩
    · rcases List.mem_append.1 hr' with hr' | hr'
      · exact h.reads r' (hreads ▸ List.mem_append_left _ hr')
      · rcases List.mem_cons.1 hr' with rfl | hr'
        · exact hr
        · exact h.reads r' (hreads ▸ List.mem_append_right _ (List.mem_cons_of_mem _ hr'))
    · rcases List.mem_append.1 hp with hp | hp
      · exact h.ready k p hp
      · obtain ⟨-, hj⟩ := Prod.mk.inj (List.mem_singleton.1 hp)
        exact (Job.deliver.inj hj) ▸ hr
  | expire _ _ =>
    refine keeps_same rfl rfl rfl rfl rfl rfl fun k p hp => ?_
    rcases List.mem_append.1 hp with hp | hp
    · exact hp
    · cases List.mem_singleton.1 hp

end

end HtmlDeps.Build
