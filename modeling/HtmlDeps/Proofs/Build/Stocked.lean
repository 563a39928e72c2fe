import HtmlDeps.Proofs.Build.Agreement
import HtmlDeps.Proofs.Build.Placed
import HtmlDeps.Proofs.Build.Sorting
import HtmlDeps.Proofs.Build.Woven

/-!
# What a successful build has sent

As long as a build is running, every file that is registered was sent, and every URL in the index was
sought (`Stocked`).  A build succeeds only when nobody waits for a file.  Then every URL in the index
leads to a file that is registered and was sent (`Closed`).
-/

namespace HtmlDeps.Build

open Imports

variable {s : Setup} {b b' : Build importer} {j : Job importer} {a : Nat} {u : Text} {f : File}

structure Stocked (s : Setup) (b : Build importer) : Prop where
  files : ∀ u, b.files.has u → ∃ f ∈ b.sent, s.project.url f.path = .ok u
  index : ∀ x ∈ b.index.deps, ∀ u ∈ x.2.urls, Sought s b u

/-- The file to which a URL leads is registered and was sent. -/
def Provides (s : Setup) (b : Build importer) (u : Text) : Prop :=
  ∃ v w, Url.parse u = .ok v ∧ s.project.url (s.project.path v.path) = .ok w ∧ b.files.has w ∧
    ∃ f ∈ b.sent, s.project.url f.path = .ok w

/-- All files that the fragments of an index depend on are provided. -/
def Closed (s : Setup) (b : Build importer) (i : Index) : Prop :=
  ∀ x ∈ i.deps, ∀ u ∈ x.2.urls, b.Provides s u

theorem Closed.keeps {i : Index} (h : Closed s b i) (hkeeps : Keeps s b b') : Closed s b' i := by
  intro x hx u hu
  obtain ⟨v, w, hv, hw, hfile, f, hf, hurl⟩ := h x hx u hu
  exact ⟨v, w, hv, hw, hkeeps.files w hfile, f, hkeeps.sent f hf, hurl⟩

/-- With nobody waiting for a file, what was sought is provided. -/
theorem Stocked.provides (h : Stocked s b) (hkeys : b.waitlist.keys = []) (hu : Sought s b u) :
    b.Provides s u := by
  obtain ⟨v, w, hv, hw, hfile | hwaits⟩ := hu
  · exact ⟨v, w, hv, hw, hfile, h.files w hfile⟩
  · have hkey := (Table.mem_keys_iff b.waitlist.entries _).2 hwaits
    rw [Waitlist.keys] at hkeys
    rw [hkeys] at hkey
    cases hkey

/-! ### Steps of a running build -/

theorem Stocked.same (h : Stocked s b) (hsought : ∀ u, Sought s b u → Sought s b' u)
    (hfiles : b'.files = b.files) (hsent : b'.sent = b.sent) (hindex : b'.index = b.index) :
    Stocked s b' := by
  refine ⟨fun u hu => ?_, fun x hx u hu => ?_⟩
  · rw [hsent]
    exact h.files u (hfiles ▸ hu)
  · rw [hindex] at hx
    exact hsought u (h.index x hx u hu)

theorem Stocked.calm (h : Stocked s b) (hsought : ∀ u, Sought s b u → Sought s b' u)
    (hcalm : Calm s b b') : Stocked s b' :=
  h.same hsought hcalm.files (by rw [sent, sent, hcalm.sources, hcalm.dependencies]) hcalm.index

/-- A file is registered and sent. -/
theorem Stocked.take (h : Stocked s b) (hsought : ∀ u, Sought s b u → Sought s b' u)
    (hurl : s.project.url f.path = .ok u) (hfiles : b'.files = b.files.put u f)
    (hsent : ∀ g ∈ b.sent, g ∈ b'.sent) (hf : f ∈ b'.sent) (hindex : b'.index = b.index) :
    Stocked s b' := by
  refine ⟨fun v hv => ?_, fun x hx v hv => ?_⟩
  · by_cases hu : v = u
    · exact ⟨f, hf, hu ▸ hurl⟩
    · rw [hfiles, Table.has, Table.get?_put, if_neg (Ne.symm hu)] at hv
      obtain ⟨g, hg, hgurl⟩ := h.files v hv
      exact ⟨g, hsent g hg, hgurl⟩
  · rw [hindex] at hx
    exact hsought v (h.index x hx v hv)

/-- What registering a file and starting its analysis leave alone. -/
theorem claim_eq (b : Build importer) (f : File) : (b.claim f).files = b.files ∧
    (b.claim f).sources = b.sources ∧ (b.claim f).dependencies = b.dependencies ∧
    (b.claim f).index = b.index := by
  rcases claim_cases b f with ⟨-, -, h⟩ | ⟨-, h⟩ <;> rw [h] <;> exact ⟨rfl, rfl, rfl, rfl⟩

theorem Stocked.pumpSources (h : Stocked s b) (hplaced : Placed s b)
    (hrunning : (b.pumpSources s).status = .running)
    (hsought : ∀ u, Sought s b u → Sought s (b.pumpSources s) u) :
    Stocked s (b.pumpSources s) := by
  obtain ⟨-, hb'⟩ | ⟨rest, b₁, -, -, hrelease, hb'⟩ |
    ⟨f, rest, b₁, o, hincoming, hregister, hsend, hb'⟩ := pumpSources_cases rfl hrunning
  · exact h.same hsought (by rw [hb']) (by rw [hb']; rfl) (by rw [hb'])
  · have hcalm := calm_releaseSources (s := s) { b with incoming := rest, exhausted := true }
      b.waitlist.keys
    rw [hrelease] at hcalm
    have hsent : b₁.sent = b.sent := by rw [sent, sent, hcalm.sources, hcalm.dependencies]
    exact h.same hsought (by rw [hb']; exact hcalm.files) (by rw [hb']; exact hsent)
      (by rw [hb']; exact hcalm.index)
  · obtain ⟨u, hu, hcalm⟩ := register_eq hregister
    obtain ⟨hfiles, hsources, hdependencies, hindex⟩ := claim_eq b₁ f
    -- A file that comes in stands under its normal path already.
    rw [(hplaced.incoming f (hincoming ▸ List.mem_cons_self)).plain.normal_eq] at hu
    have ho : o.sent = b.sources.sent ++ [f] := by
      rw [Outlet.sent_of_send hsend, hsources, hcalm.sources]
    have hsent : (b.pumpSources s).sent = b.sources.sent ++ [f] ++ b.dependencies.sent := by
      rw [hb', sent]
      change o.sent ++ (b₁.claim f).dependencies.sent = _
      rw [ho, hdependencies, hcalm.dependencies]
    refine h.take hsought hu ?_ (fun g hg => ?_) ?_ ?_
    · rw [hb']
      exact hfiles.trans hcalm.files
    · rw [hsent]
      exact (List.mem_append.1 hg).elim
        (fun h => List.mem_append_left _ (List.mem_append_left _ h)) (List.mem_append_right _)
    · rw [hsent]
      simp
    · rw [hb']
      exact hindex.trans hcalm.index

theorem Stocked.deliver {p : Path} (h : Stocked s b) (hp : s.project.Regular p)
    (hrunning : (b.deliver s p).status = .running)
    (hsought : ∀ u, Sought s b u → Sought s (b.deliver s p) u) : Stocked s (b.deliver s p) := by
  obtain ⟨contents, b₁, o, -, hregister, hsend, hb'⟩ := deliver_cases rfl hrunning
  obtain ⟨u, hu, hcalm⟩ := register_eq hregister
  obtain ⟨hfiles, hsources, hdependencies, hindex⟩ := claim_eq b₁ ⟨p, contents⟩
  rw [hp.plain.normal_eq] at hu
  have ho : o.sent = b.dependencies.sent ++ [⟨p, contents⟩] := by
    rw [Outlet.sent_of_send hsend, hdependencies, hcalm.dependencies]
  have hsent : (b.deliver s p).sent = b.sources.sent ++ (b.dependencies.sent ++ [⟨p, contents⟩]) := by
    rw [hb', sent]
    change (b₁.claim ⟨p, contents⟩).sources.sent ++ o.sent = _
    rw [ho, hsources, hcalm.sources]
  have hurl : s.project.url (File.path ⟨p, contents⟩) = .ok u := hu
  refine h.take hsought hurl ?_ (fun g hg => ?_) ?_ ?_
  · rw [hb']
    exact hfiles.trans hcalm.files
  · rw [hsent, ← List.append_assoc]
    exact List.mem_append_left _ hg
  · rw [hsent]
    simp
  · rw [hb']
    exact hindex.trans hcalm.index

theorem Stocked.pumpDependencies (h : Stocked s b) (hplaced : Placed s b) (hqueue : none ∉ b.queue)
    (hrunning : (b.pumpDependencies s).status = .running)
    (hsought : ∀ u, Sought s b u → Sought s (b.pumpDependencies s) u) :
    Stocked s (b.pumpDependencies s) := by
  obtain ⟨-, hb'⟩ | ⟨p, rest, url, hsome, ⟨-, hb'⟩ | ⟨-, hb'⟩⟩ := pumpDependencies_cases rfl hqueue
  · exact h.same hsought (by rw [hb']) (by rw [hb']; rfl) (by rw [hb'])
  · exact h.same hsought (by rw [hb']; rfl) (by rw [hb']; rfl) (by rw [hb']; rfl)
  · rw [hb'] at hrunning hsought ⊢
    have hread : Stocked s (b.fetched rest ⟨url, p, .delivered⟩) :=
      h.same (fun _ hu => hu) rfl rfl rfl
    exact hread.deliver (hplaced.queue p (hsome ▸ List.mem_cons_self)) hrunning hsought

/-- What the crawl of a fragment found was asked for, so its local references were sought. -/
theorem sought_of_references {r : Report} {i : Index} {p : Path}
    (hasked : ∀ y : Reference, y ∈ r.references → Asked s b y.url)
    (hnone : (Deps.ofReferences r.references).2 = none)
    (hadd : b.index.add p.toText (Deps.ofReferences r.references).1.deps = .ok i)
    (h : ∀ x ∈ b.index.deps, ∀ u ∈ x.2.urls, Sought s b u) :
    ∀ x ∈ i.deps, ∀ u ∈ x.2.urls, Sought s b u := by
  intro x hx u hu
  unfold Index.add at hadd
  split at hadd
  · cases hadd
  · obtain rfl := Except.ok.inj hadd
    rcases Table.mem_of_mem_put hx with hx | rfl
    · exact h x hx u hu
    · obtain ⟨y, hy, rfl, hlocal⟩ := Deps.exists_of_mem_urls hnone hu
      rcases hasked y hy with hexternal | hsought
      · rw [hlocal] at hexternal
        cases hexternal
      · exact hsought

theorem Stocked.turn {t : Thread} (h : Stocked s b) (hwoven : Woven s (b.goOn (.turn a t)))
    (hrunning : (b.turn s a t).status = .running)
    (hsought : ∀ u, Sought s b u → Sought s (b.turn s a t) u) : Stocked s (b.turn s a t) := by
  obtain ⟨x, url, m, m', log, hx, hown, -, -, -, -, hturned⟩ :=
    hwoven.turned (by rw [hrunning]; nofun)
  have hmoved : Stocked s (b.moved a { x with crawl := some (url, m') } log) :=
    h.same (fun _ hu => hu) rfl rfl rfl
  cases hturned with
  | ask hb' _ _ =>
    rw [hb'] at hsought ⊢
    exact hmoved.calm hsought (calm_load _ _ _)
  | leave hb' _ =>
    rw [hb']
    exact hmoved.same (fun _ hu => hu) rfl rfl rfl
  | finish hb' _ _ hasked =>
    obtain ⟨i, ws, log', hnone, hadd, -, hb'⟩ := conclude_running (own_of_moved hx (by exact hown)) hb'.symm hrunning
    have hindex : ∀ x ∈ i.deps, ∀ u ∈ x.2.urls, Sought s b u :=
      sought_of_references hasked hnone hadd h.index
    rw [hb']
    exact ⟨h.files, hindex⟩

theorem Stocked.run (hp : s.project.Rooted) (h : Stocked s b) (hwoven : Woven s (b.goOn j))
    (hplaced : Placed s (b.goOn j)) (hqueue : none ∉ b.queue)
    (hrunning : (b.run s j).status = .running) : Stocked s (b.run s j) := by
  have hsought : ∀ u, Sought s b u → Sought s (b.run s j) u :=
    (weaves_run hp hqueue hrunning).sought hwoven
  have hrest : Placed s b := ⟨hplaced.sent, hplaced.incoming, hplaced.queue, hplaced.reads,
    fun n q hq => hplaced.ready n q (List.mem_cons_of_mem _ hq)⟩
  cases j with
  | pumpSources => exact h.pumpSources hrest hrunning hsought
  | closeSources =>
    unfold Build.run closeSources
    dsimp only
    split
    · refine h.same (fun _ hu => hu) rfl ?_ rfl
      rw [sent, sent, Outlet.sent_close]
    · exact h.same (fun _ hu => hu) rfl rfl rfl
  | pumpDependencies => exact h.pumpDependencies hrest hqueue hrunning hsought
  | deliver p => exact h.deliver (hplaced.ready 0 p List.mem_cons_self) hrunning hsought
  | begin a =>
    obtain ⟨x, hx, -⟩ : ∃ x, b.analyses[a]? = some x ∧ x.crawl = none :=
      hwoven.ready _ List.mem_cons_self
    obtain ⟨url, -, hb'⟩ := begin_cases hx (hwoven.own a x hx) rfl hrunning
    exact h.same hsought (by rw [Build.run, hb']; rfl) (by rw [Build.run, hb']; rfl)
      (by rw [Build.run, hb']; rfl)
  | turn a t => exact h.turn hwoven hrunning hsought
  | load n u => exact h.calm hsought (calm_load b u _)
  | loaded n answer => exact h.same (fun _ hu => hu) rfl rfl rfl
  | expire w => exact h.calm hsought (calm_expire b w)

/-! ### Success -/

theorem index_complete (b : Build importer) (current : Option Nat) :
    (b.complete s current).index = b.index := by
  have hfail : ∀ (b : Build importer) f, (b.fail s current f).index = b.index := by
    intro b f
    unfold fail
    split <;> rfl
  have hnotes := (calm_noteAll (s := s) b s.context (Warnings.printed b.warnings)).index
  unfold complete
  split
  · rfl
  · dsimp only
    split
    · exact (hfail _ _).trans hnotes
    · split
      · unfold succeed enqueue
        dsimp only [note, noteWith, schedule]
        split <;> split <;> exact hnotes
      · exact (hfail _ _).trans ((calm_foldl (s := s) (fun b u =>
          calm_note b s.context .error (u ++ " never loaded")) _ _).index.trans hnotes)

/-- When a turn lets the build succeed, the index is closed. -/
theorem Stocked.closed {t : Thread} (h : Stocked s b) (hwoven : Woven s (b.goOn (.turn a t)))
    (horigin : ∀ p, Origin s p → s.project.Regular p) (hrunning : b.status = .running)
    (hsucceeded : (b.turn s a t).status = .succeeded) :
    Closed s (b.turn s a t) (b.turn s a t).index := by
  have hkeeps := keeps_turn horigin b a t
  obtain ⟨x, url, m, m', log, hx, hown, -, -, -, -, hturned⟩ :=
    hwoven.turned (by rw [hsucceeded]; nofun)
  cases hturned with
  | ask hb' _ _ =>
    rw [hb', (calm_load _ _ _).status] at hsucceeded
    exact absurd (hrunning.symm.trans hsucceeded) nofun
  | leave hb' _ =>
    rw [hb'] at hsucceeded
    exact absurd (hrunning.symm.trans hsucceeded) nofun
  | finish hb' _ _ hasked =>
    obtain ⟨i, ws, log', hnone, hadd, hb'⟩ :=
      conclude_cases (own_of_moved hx (by exact hown)) hb'.symm (by rw [hsucceeded]; nofun)
    split at hb'
    · have hstatus := hsucceeded
      rw [hb', status_settleAnalysis_ok] at hstatus
      -- A build that succeeds leaves nobody to wait for a file, so all that was sought is there.
      have hkeys : ((b.moved a { x with crawl := some (url, m') } log).entered x.path ws i
          log').waitlist.keys = [] := keys_of_complete _ _ hrunning hstatus
      have hindex : (b.turn s a t).index = i := by
        rw [hb']
        exact index_complete _ _
      rw [hindex]
      refine Closed.keeps (fun y hy u hu => ?_) hkeeps
      exact h.provides hkeys (sought_of_references hasked hnone hadd h.index y hy u hu)
    · rw [hb', status_settleAnalysis_ok] at hsucceeded
      exact absurd (hrunning.symm.trans hsucceeded) nofun

end HtmlDeps.Build
