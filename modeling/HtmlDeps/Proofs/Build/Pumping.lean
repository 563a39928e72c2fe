import HtmlDeps.Proofs.Build.Orderly

/-!
# The pumps of a running build

The source pump waits only if nothing has arrived, or if the sources are exhausted; the dependency
pump waits only if the queue is empty, or for a file that is being read (`Sourcing`, `Fetching`).
-/

namespace HtmlDeps

/-- A job of the pumps. -/
def Job.Pumps {C : Crawler} : Job C → Prop
  | .pumpSources | .closeSources | .pumpDependencies | .deliver _ => True
  | _ => False

namespace Build

open Imports

variable {s : Setup} {b b' b₁ : Build importer} {j : Job importer} {a : Nat} {f : File}
  {rest : List Arrival}

/-- What the analyses themselves leave alone. -/
def rim (b : Build importer) : Build importer :=
  { b with
    warnings := []
    worklist := []
    index := .empty
    analyses := []
    loads := []
    log := [] }

/-- Apart from its analysis, a job of an analysis does nothing but ask. -/
theorem exists_calm_of_run (hj : ¬ j.Pumps) (hwoven : Woven s (b.goOn j))
    (hrunning : (b.run s j).status = .running) :
    ∃ b₁ : Build importer, b₁.rim = b.rim ∧ Calm s b₁ (b.run s j) := by
  cases j with
  | pumpSources | closeSources | pumpDependencies | deliver => exact absurd trivial hj
  | begin a =>
    obtain ⟨x, hx, -⟩ : ∃ x, b.analyses[a]? = some x ∧ x.crawl = none :=
      hwoven.ready _ List.mem_cons_self
    obtain ⟨url, -, hb'⟩ := begin_cases hx (hwoven.own a x hx) rfl hrunning
    refine ⟨b.moved a { x with crawl := some (url, (importer.start url).1) } b.log, rfl, ?_⟩
    rw [Build.run, hb']
    exact calm_goOn _ trivial
  | turn a t =>
    obtain ⟨x, url, m, m', log, hx, hown, -, -, -, -, hturned⟩ :=
      hwoven.turned (by rw [show (b.turn s a t).status = .running from hrunning]; exact Status.noConfusion)
    rw [Build.run]
    cases hturned with
    | ask hb' _ _ =>
      refine ⟨b.moved a { x with crawl := some (url, m') } log, rfl, ?_⟩
      rw [hb']
      exact calm_load _ _ _
    | @leave ts hb' _ =>  -- The threads left are jobs to turn, and those do not pump.
      refine ⟨b.moved a { x with crawl := some (url, m') } log, rfl, ?_⟩
      rw [hb']
      refine calm_of_queue rfl rfl rfl (fun y hy => ?_) fun y hy => List.mem_append_left _ hy
      refine (List.mem_append.1 hy).imp_right fun hy => ?_
      obtain ⟨j, hj, rfl⟩ := List.mem_map.1 hy
      obtain ⟨t', -, rfl⟩ := List.mem_map.1 hj
      trivial
    | finish hb' _ _ _ =>
      obtain ⟨i, ws, log', -, -, -, hb'⟩ :=
        conclude_running (own_of_moved hx (by exact hown)) hb'.symm hrunning
      refine ⟨((b.moved a { x with crawl := some (url, m') } log).entered x.path ws i
        log').settleAnalysis s a (.ok ()), rfl, ?_⟩
      rw [hb']
      exact .refl _
  | load n u => exact ⟨b, rfl, calm_load b u _⟩
  | loaded n answer => exact ⟨{ b with loads := b.loads.set n (some answer) }, rfl, .refl _⟩
  | expire w => exact ⟨b, rfl, calm_expire b w⟩

/-! ### The source pump -/

/-- The source pump goes on, unless nothing has arrived or nothing more will; the end of the sources
is still to come until they are exhausted. -/
structure Sourcing (b : Build importer) (rest : List Arrival) : Prop where
  pump : b.sourcePump = .idle ∧ b.incoming = [] ∨
    b.sourcePump = .working ∧ (∃ n, (n, .pumpSources) ∈ b.ready) ∨
    b.sourcePump = .closing ∧ b.exhausted = true
  supply : b.exhausted = true ∨ ∃ item ∈ b.incoming ++ rest, ∀ f, item ≠ .file f

theorem Sourcing.keep (h : Sourcing b rest) (hpump : b'.sourcePump = b.sourcePump)
    (hincoming : b'.incoming = b.incoming) (hexhausted : b'.exhausted = b.exhausted)
    (hkept : ∀ n, (n, .pumpSources) ∈ b.ready → ∃ n, (n, .pumpSources) ∈ b'.ready) :
    Sourcing b' rest := by
  refine ⟨?_, ?_⟩
  · rw [hpump, hincoming, hexhausted]
    exact h.pump.imp_right (Or.imp_left (And.imp_right fun ⟨n, hn⟩ => hkept n hn))
  · rw [hincoming, hexhausted]
    exact h.supply

theorem Sourcing.drop (h : Sourcing (b.goOn j) rest) (hj : j ≠ .pumpSources) : Sourcing b rest := by
  refine h.keep rfl rfl rfl fun n hn => ?_
  rcases List.mem_cons.1 hn with hn | hn
  · exact absurd (Prod.mk.inj hn).2.symm hj
  · exact ⟨n, hn⟩

theorem Sourcing.calm (h : Sourcing b rest) {fs : Table Text File}
    (hcalm : Calm s { b with files := fs } b') : Sourcing b' rest :=
  h.keep hcalm.sourcePump hcalm.incoming hcalm.exhausted fun n hn => ⟨n, hcalm.kept _ hn⟩

theorem Sourcing.claim (h : Sourcing b rest) (f : File) : Sourcing (b.claim f) rest := by
  rcases claim_cases b f with ⟨-, -, hclaim⟩ | ⟨-, hclaim⟩
  · rw [hclaim]
    exact h.keep rfl rfl rfl fun n hn => ⟨n, List.mem_append_left _ hn⟩
  · rw [hclaim]
    exact h

theorem Sourcing.pumpSources (h : Sourcing (b.goOn .pumpSources) rest)
    (hrunning : (b.pumpSources s).status = .running) : Sourcing (b.pumpSources s) rest := by
  have hsupply : b.exhausted = true ∨ ∃ item ∈ b.incoming ++ rest, ∀ f, item ≠ .file f := h.supply
  obtain ⟨hincoming, hb'⟩ | ⟨left, b₁, hincoming, -, hrelease, hb'⟩ |
    ⟨f, left, b₁, o, hincoming, hregister, -, hb'⟩ := pumpSources_cases rfl hrunning
  · rw [hb']
    exact ⟨.inl ⟨rfl, hincoming⟩, hsupply⟩
  · have hcalm := calm_releaseSources (s := s) { b with incoming := left, exhausted := true }
      b.waitlist.keys
    rw [hrelease] at hcalm
    rw [hb']
    exact ⟨.inr (.inr ⟨rfl, hcalm.exhausted⟩), .inl hcalm.exhausted⟩
  · obtain ⟨u, -, hcalm⟩ := register_eq hregister
    have hpump : b.sourcePump = .idle ∧ b.incoming = [] ∨
      b.sourcePump = .working ∧ (∃ n, (n, .pumpSources) ∈ (b.goOn .pumpSources).ready) ∨
      b.sourcePump = .closing ∧ b.exhausted = true := h.pump
    -- the job stays in hand while the file is taken
    have hleft : Sourcing (Build.goOn { b with incoming := left } .pumpSources) rest := by
      refine ⟨?_, ?_⟩
      · rcases hpump with ⟨-, hnone⟩ | hworking | hclosing
        · rw [hincoming] at hnone
          cases hnone
        · exact .inr (.inl hworking)
        · exact .inr (.inr hclosing)
      · refine hsupply.imp_right fun ⟨item, hitem, hend⟩ => ⟨item, ?_, hend⟩
        rw [hincoming] at hitem
        rcases List.mem_cons.1 hitem with rfl | hitem
        · exact absurd rfl (hend f)
        · exact hitem
    have hcore : b₁.sourcePump = b.sourcePump ∧ b₁.incoming = left ∧ b₁.exhausted = b.exhausted :=
      ⟨hcalm.sourcePump, hcalm.incoming, hcalm.exhausted⟩
    have htaken : Sourcing (b₁.goOn .pumpSources) rest :=
      hleft.keep hcore.1 hcore.2.1 hcore.2.2 fun n hn => ⟨0, List.mem_cons_self⟩
    rw [hb']
    rcases claim_cases b₁ f with ⟨-, -, hclaim⟩ | ⟨-, hclaim⟩
    · rw [hclaim]
      exact htaken.keep rfl rfl rfl fun n hn => ⟨0, List.mem_cons_self⟩
    · rw [hclaim]
      exact htaken.keep rfl rfl rfl fun n hn => ⟨0, List.mem_cons_self⟩

theorem Sourcing.deliver {p : Path} (h : Sourcing b rest)
    (hrunning : (b.deliver s p).status = .running) : Sourcing (b.deliver s p) rest := by
  obtain ⟨contents, b₁, o, -, hregister, -, hb'⟩ := deliver_cases rfl hrunning
  obtain ⟨u, -, hcalm⟩ := register_eq hregister
  rw [hb']
  exact ((h.calm hcalm).claim _).keep rfl rfl rfl fun n hn => ⟨n, List.mem_cons_of_mem _ hn⟩

theorem Sourcing.run (h : Sourcing (b.goOn j) rest) (hwoven : Woven s (b.goOn j))
    (hqueue : none ∉ b.queue) (hj : j ≠ .closeSources) (hrunning : (b.run s j).status = .running) :
    Sourcing (b.run s j) rest := by
  by_cases hpumps : j.Pumps  -- Jobs that do not pump leave the sources alone, but for what they ask.
  · cases j with
    | pumpSources => exact h.pumpSources hrunning
    | closeSources => exact absurd rfl hj
    | pumpDependencies =>
      have hrest : Sourcing b rest := h.drop nofun
      unfold Build.run at hrunning ⊢
      obtain ⟨-, hb'⟩ | ⟨p, left, url, -, ⟨-, hb'⟩ | ⟨-, hb'⟩⟩ := pumpDependencies_cases rfl hqueue
      · rw [hb']
        exact hrest.keep rfl rfl rfl fun n hn => ⟨n, hn⟩
      · rw [hb']
        exact hrest.keep rfl rfl rfl fun n hn => ⟨n, hn⟩
      · rw [hb'] at hrunning ⊢
        have hread : Sourcing (b.fetched left ⟨url, p, .delivered⟩) rest :=
          hrest.keep rfl rfl rfl fun n hn => ⟨n, hn⟩
        exact hread.deliver hrunning
    | deliver p =>
      have hrest : Sourcing b rest := h.drop nofun
      exact hrest.deliver hrunning
    | begin | turn | load | loaded | expire => exact hpumps.elim
  · obtain ⟨b₁, hrim, hcalm⟩ := exists_calm_of_run hpumps hwoven hrunning
    have hrest : Sourcing b rest := h.drop (by rintro rfl; exact hpumps trivial)
    have hready : b₁.ready = b.ready := (congrArg Build.ready hrim :)
    have hmoved : Sourcing b₁ rest := by
      refine hrest.keep (congrArg Build.sourcePump hrim :) (congrArg Build.incoming hrim :)
        (congrArg Build.exhausted hrim :) fun n hn => ⟨n, ?_⟩
      rw [hready]
      exact hn
    exact hmoved.calm hcalm

/-! ### The dependency pump -/

/-- A file was read, or is being read. -/
def Arriving (b : Build importer) (p : Path) : Prop :=
  (∃ r ∈ b.reads, r.path = p ∧ r.delivery = .pending) ∨ ∃ n, (n, .deliver p) ∈ b.ready

/-- A file is on its way to the build. -/
def Coming (b : Build importer) (p : Path) : Prop := some p ∈ b.queue ∨ b.Arriving p

/-- The dependency pump goes on, unless the queue is empty. -/
def Fetching (b : Build importer) : Prop :=
  b.dependencyPump = .idle ∧ b.queue = [] ∨
    b.dependencyPump = .working ∧ (∃ n, (n, .pumpDependencies) ∈ b.ready) ∨
    b.dependencyPump = .reading ∧ ∃ p, b.Arriving p

theorem Arriving.keep {p : Path} (h : b.Arriving p) (hreads : b'.reads = b.reads)
    (hkept : ∀ n, (n, .deliver p) ∈ b.ready → ∃ n, (n, .deliver p) ∈ b'.ready) : b'.Arriving p := by
  rcases h with hpending | ⟨n, hn⟩
  · exact .inl (hreads ▸ hpending)
  · exact .inr (hkept n hn)

theorem Fetching.keep (h : Fetching b) (hpump : b'.dependencyPump = b.dependencyPump)
    (hqueue : b'.queue = b.queue) (hreads : b'.reads = b.reads)
    (hkept : ∀ n j, (n, j) ∈ b.ready → ∃ n, (n, j) ∈ b'.ready) : Fetching b' := by
  rw [Fetching, hpump, hqueue]
  refine h.imp_right (Or.imp ?_ ?_)
  · exact And.imp_right fun ⟨n, hn⟩ => hkept n _ hn
  · exact And.imp_right fun ⟨p, hp⟩ => ⟨p, hp.keep hreads fun n hn => hkept n _ hn⟩

theorem Fetching.calm (h : Fetching b) {fs : Table Text File}
    (hcalm : Calm s { b with files := fs } b') : Fetching b' := by
  rcases hcalm.pump with ⟨hpump, hqueue⟩ | ⟨-, hworking, hjob⟩
  · rw [Fetching, hpump]
    refine h.imp (fun ⟨hidle, hnone⟩ => ⟨hidle, (hqueue hidle).trans hnone⟩) (Or.imp ?_ ?_)
    · exact And.imp_right fun ⟨n, hn⟩ => ⟨n, hcalm.kept _ hn⟩
    · exact And.imp_right fun ⟨p, hp⟩ =>
        ⟨p, hp.keep hcalm.reads fun n hn => ⟨n, hcalm.kept _ hn⟩⟩
  · exact .inr (.inl ⟨hworking, hjob⟩)

theorem Fetching.claim (h : Fetching b) (f : File) : Fetching (b.claim f) := by
  rcases claim_cases b f with ⟨-, -, hclaim⟩ | ⟨-, hclaim⟩
  · rw [hclaim]
    exact h.keep rfl rfl rfl fun n j hn => ⟨n, List.mem_append_left _ hn⟩
  · rw [hclaim]
    exact h

theorem Fetching.drop (h : Fetching (b.goOn j)) (hpump : j ≠ .pumpDependencies)
    (hdeliver : ∀ p, j ≠ .deliver p) : Fetching b := by
  have hrest : ∀ n k, k ≠ j → (n, k) ∈ (b.goOn j).ready → (n, k) ∈ b.ready := by
    intro n k hk hn
    rcases List.mem_cons.1 hn with hn | hn
    · exact absurd (Prod.mk.inj hn).2 hk
    · exact hn
  refine Or.imp_right (Or.imp ?_ ?_) h
  · exact And.imp_right fun ⟨n, hn⟩ => ⟨n, hrest n _ (Ne.symm hpump) hn⟩
  · exact And.imp_right fun ⟨p, hp⟩ =>
      ⟨p, hp.keep rfl fun n hn => ⟨n, hrest n _ (Ne.symm (hdeliver p)) hn⟩⟩

/-- Once a file is delivered, the pump goes on. -/
theorem fetching_deliver {p : Path} (hrunning : (b.deliver s p).status = .running) :
    Fetching (b.deliver s p) := by
  obtain ⟨contents, b₁, o, -, -, -, hb'⟩ := deliver_cases rfl hrunning
  rw [hb']
  exact .inr (.inl ⟨rfl, 0, List.mem_cons_self⟩)

theorem fetching_pumpDependencies (hqueue : none ∉ b.queue)
    (hrunning : (b.pumpDependencies s).status = .running) : Fetching (b.pumpDependencies s) := by
  obtain ⟨hnone, hb'⟩ | ⟨p, left, url, -, ⟨-, hb'⟩ | ⟨-, hb'⟩⟩ := pumpDependencies_cases rfl hqueue
  · rw [hb']
    exact .inl ⟨rfl, hnone⟩
  · rw [hb']
    exact .inr (.inr ⟨rfl, p, .inl ⟨_, List.mem_append_right _ List.mem_cons_self, rfl, rfl⟩⟩)
  · rw [hb'] at hrunning ⊢
    exact fetching_deliver hrunning

theorem Fetching.pumpSources (h : Fetching b) (hrunning : (b.pumpSources s).status = .running) :
    Fetching (b.pumpSources s) := by
  obtain ⟨-, hb'⟩ | ⟨left, b₁, -, -, hrelease, hb'⟩ | ⟨f, left, b₁, o, -, hregister, -, hb'⟩ :=
    pumpSources_cases rfl hrunning
  · rw [hb']
    exact h.keep rfl rfl rfl fun n j hn => ⟨n, hn⟩
  · have hcalm := calm_releaseSources (s := s) { b with incoming := left, exhausted := true }
      b.waitlist.keys
    rw [hrelease] at hcalm
    have hexhausted : Fetching { b with incoming := left, exhausted := true } := h
    rw [hb']
    exact (hexhausted.calm hcalm).keep rfl rfl rfl fun n j hn => ⟨n, hn⟩
  · obtain ⟨u, -, hcalm⟩ := register_eq hregister
    have hleft : Fetching { b with incoming := left } := h
    rw [hb']
    exact ((hleft.calm hcalm).claim f).keep rfl rfl rfl fun n j hn => ⟨n, List.mem_cons_of_mem _ hn⟩

theorem Fetching.run (h : Fetching (b.goOn j)) (hwoven : Woven s (b.goOn j))
    (hqueue : none ∉ b.queue) (hj : j ≠ .closeSources) (hrunning : (b.run s j).status = .running) :
    Fetching (b.run s j) := by
  by_cases hpumps : j.Pumps
  · cases j with
    | pumpSources =>
      have hrest : Fetching b := h.drop nofun nofun
      exact hrest.pumpSources hrunning
    | closeSources => exact absurd rfl hj
    | pumpDependencies => exact fetching_pumpDependencies hqueue hrunning
    | deliver p => exact fetching_deliver hrunning
    | begin | turn | load | loaded | expire => exact hpumps.elim
  · obtain ⟨b₁, hrim, hcalm⟩ := exists_calm_of_run hpumps hwoven hrunning
    have hrest : Fetching b := h.drop (by rintro rfl; exact hpumps trivial)
      (by rintro p rfl; exact hpumps trivial)
    have hready : b₁.ready = b.ready := (congrArg Build.ready hrim :)
    have hmoved : Fetching b₁ := by
      refine hrest.keep (congrArg Build.dependencyPump hrim :) (congrArg Build.queue hrim :)
        (congrArg Build.reads hrim :) fun n k hn => ⟨n, ?_⟩
      rw [hready]
      exact hn
    exact hmoved.calm hcalm

end Build
end HtmlDeps
