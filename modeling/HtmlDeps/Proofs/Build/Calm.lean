import HtmlDeps.Build.Schedule
import HtmlDeps.Proofs.Table

/-!
# What requests change

Asking for a file, pushing a dependency and giving up waiting all change the same few things: the
log, the queue, those who wait, and the list of jobs.  They leave the rest of a build alone, its
core, and they add no jobs but answers and turns of the dependency pump (`Calm`).  Once a file is
stored, registering it changes nothing else either (`register_eq`).
-/

namespace HtmlDeps

variable {C : Crawler} {s : Setup}

/-- A job that gives an answer, or that lets the dependency pump go on. -/
def Job.Follows : Job C → Prop
  | .turn _ _ | .loaded _ _ | .pumpDependencies => True
  | _ => False

theorem Caller.resume_follows (answer : Except Fault Text) (c : Caller C) :
    (c.resume answer).Follows := by
  cases c <;> trivial

namespace Build

/-- What requests leave alone. -/
def core (b : Build C) : Build C :=
  { b with
    queue := []
    pushed := []
    waitlist := .empty
    waiting := []
    dependencyPump := .idle
    ready := []
    log := [] }

/-- A path that was asked for by a URL, or that of an extra dependency. -/
def Origin (s : Setup) (p : Path) : Prop :=
  (∃ t, p = s.project.path t) ∨ ∃ ps, s.extras = .ok ps ∧ p ∈ ps

/-- `b'` comes from `b` by requests. -/
structure Calm (s : Setup) (b b' : Build C) : Prop where
  core : b'.core = b.core
  queue : ∃ ps : List Path, b'.queue = b.queue ++ ps.map some ∧ ∀ p ∈ ps, Origin s p
  pump : b'.dependencyPump = b.dependencyPump ∧ (b.dependencyPump = .idle → b'.queue = b.queue) ∨
    b.dependencyPump = .idle ∧ b'.dependencyPump = .working ∧
      ∃ n, (n, .pumpDependencies) ∈ b'.ready
  ready : ∀ x ∈ b'.ready, x ∈ b.ready ∨ x.2.Follows
  kept : ∀ x ∈ b.ready, x ∈ b'.ready

/-- Requests that put nothing on the queue. -/
theorem calm_of_queue {b b' : Build C} (hcore : b'.core = b.core) (hqueue : b'.queue = b.queue)
    (hpump : b'.dependencyPump = b.dependencyPump)
    (hready : ∀ x ∈ b'.ready, x ∈ b.ready ∨ x.2.Follows) (hkept : ∀ x ∈ b.ready, x ∈ b'.ready) :
    Calm s b b' :=
  ⟨hcore, ⟨[], by simp [hqueue], nofun⟩, .inl ⟨hpump, fun _ => hqueue⟩, hready, hkept⟩

theorem Calm.refl (b : Build C) : Calm s b b :=
  calm_of_queue rfl rfl rfl (fun _ h => .inl h) fun _ h => h

theorem Calm.trans {b₁ b₂ b₃ : Build C} (h : Calm s b₁ b₂) (h' : Calm s b₂ b₃) : Calm s b₁ b₃ := by
  obtain ⟨hcore, ⟨ps, hps, hpaths⟩, hpump, hready, hkept⟩ := h
  obtain ⟨hcore', ⟨qs, hqs, hpaths'⟩, hpump', hready', hkept'⟩ := h'
  refine ⟨hcore'.trans hcore, ⟨ps ++ qs, by simp [hqs, hps], ?_⟩, ?_, fun x hx => ?_, fun x hx => hkept' x (hkept x hx)⟩
  · exact List.forall_mem_append.2 ⟨hpaths, hpaths'⟩
  · rcases hpump with ⟨hpump, hqueue⟩ | ⟨hidle, hworking, n, hjob⟩
    · rw [hpump] at hpump'
      rcases hpump' with ⟨hpump', hqueue'⟩ | hwoken
      · exact .inl ⟨hpump', fun hidle => (hqueue' hidle).trans (hqueue hidle)⟩
      · exact .inr hwoken
    · rcases hpump' with ⟨hpump', -⟩ | ⟨hidle', -⟩
      · exact .inr ⟨hidle, hpump'.trans hworking, n, hkept' _ hjob⟩
      · rw [hworking] at hidle'
        cases hidle'
  · rcases hready' x hx with h | h
    · exact hready x h
    · exact .inr h

/-! ### What stays -/

section

variable {b b' : Build C}

theorem Calm.status (h : Calm s b b') : b'.status = b.status := (congrArg Build.status h.core :)

theorem Calm.started (h : Calm s b b') : b'.started = b.started := (congrArg Build.started h.core :)

theorem Calm.files (h : Calm s b b') : b'.files = b.files := (congrArg Build.files h.core :)

theorem Calm.worklist (h : Calm s b b') : b'.worklist = b.worklist := (congrArg Build.worklist h.core :)

theorem Calm.claimed (h : Calm s b b') : b'.claimed = b.claimed := (congrArg Build.claimed h.core :)

theorem Calm.index (h : Calm s b b') : b'.index = b.index := (congrArg Build.index h.core :)

theorem Calm.sources (h : Calm s b b') : b'.sources = b.sources := (congrArg Build.sources h.core :)

theorem Calm.dependencies (h : Calm s b b') : b'.dependencies = b.dependencies := (congrArg Build.dependencies h.core :)

theorem Calm.exhausted (h : Calm s b b') : b'.exhausted = b.exhausted := (congrArg Build.exhausted h.core :)

theorem Calm.outcome (h : Calm s b b') : b'.outcome = b.outcome := (congrArg Build.outcome h.core :)

theorem Calm.analyses (h : Calm s b b') : b'.analyses = b.analyses := (congrArg Build.analyses h.core :)

theorem Calm.loads (h : Calm s b b') : b'.loads = b.loads := (congrArg Build.loads h.core :)

theorem Calm.incoming (h : Calm s b b') : b'.incoming = b.incoming := (congrArg Build.incoming h.core :)

theorem Calm.sourcePump (h : Calm s b b') : b'.sourcePump = b.sourcePump := (congrArg Build.sourcePump h.core :)

theorem Calm.reads (h : Calm s b b') : b'.reads = b.reads := (congrArg Build.reads h.core :)

end

/-! ### The single operations -/

theorem calm_noteWith (b : Build C) (ctx : Log.Fields) (l : Log.Level) (m : Text)
    (own : Log.Fields) : Calm s b (b.noteWith ctx l m own) :=
  calm_of_queue rfl rfl rfl (fun _ hx => .inl hx) fun _ hx => hx

theorem calm_note (b : Build C) (ctx : Log.Fields) (l : Log.Level) (m : Text) :
    Calm s b (b.note ctx l m) := calm_noteWith b ctx l m []

/-- Entries for each of several things. -/
theorem calm_foldl {α : Type} {f : Build C → α → Build C} (h : ∀ b x, Calm s b (f b x))
    (xs : List α) (b : Build C) : Calm s b (xs.foldl f b) := by
  induction xs generalizing b with
  | nil => exact .refl b
  | cons x xs ih => exact (h b x).trans (ih _)

theorem calm_noteAll (b : Build C) (ctx : Log.Fields) (es : List Log.Entry) :
    Calm s b (b.noteAll ctx es) := calm_foldl (fun b _ => calm_noteWith b ctx _ _ _) es b

theorem calm_schedule (b : Build C) (n : Nat) {j : Job C} (h : j.Follows) :
    Calm s b (b.schedule n j) := by
  refine calm_of_queue rfl rfl rfl (fun x hx => ?_)
    fun _ hx => List.mem_append_left _ hx
  rcases List.mem_append.1 hx with hx | hx
  · exact .inl hx
  · rw [List.mem_singleton] at hx
    exact .inr (hx ▸ h)

theorem calm_goOn (b : Build C) {j : Job C} (h : j.Follows) : Calm s b (b.goOn j) := by
  refine calm_of_queue rfl rfl rfl (fun x hx => ?_)
    fun _ hx => List.mem_cons_of_mem _ hx
  rcases List.mem_cons.1 hx with rfl | hx
  · exact .inr h
  · exact .inl hx

theorem calm_enqueue (b : Build C) {p : Path} (hp : Origin s p) :
    Calm s b (b.enqueue (some p)) := by
  by_cases hidle : b.dependencyPump = .idle
  · rw [enqueue, if_pos hidle]
    refine ⟨rfl, ⟨[p], rfl, by simpa using hp⟩,
      .inr ⟨hidle, rfl, 0, List.mem_append_right _ List.mem_cons_self⟩, fun x hx => ?_,
      fun _ hx => List.mem_append_left _ hx⟩
    rcases List.mem_append.1 hx with hx | hx
    · exact .inl hx
    · rw [List.mem_singleton] at hx
      subst hx
      exact .inr trivial
  · rw [enqueue, if_neg hidle]
    exact ⟨rfl, ⟨[p], rfl, by simpa using hp⟩, .inl ⟨rfl, fun h => absurd h hidle⟩,
      fun _ hx => .inl hx, fun _ hx => hx⟩

theorem calm_wake (b : Build C) (n : Nat) (t : Text) : Calm s b (b.wake s n t) := by
  refine calm_of_queue rfl rfl rfl (fun x hx => ?_)
    fun _ hx => List.mem_append_left _ hx
  rcases List.mem_append.1 hx with hx | hx
  · exact .inl hx
  · obtain ⟨w, -, rfl⟩ := List.mem_map.1 hx
    exact .inr (Caller.resume_follows _ _)

/-- The waitlist and those who wait do not belong to the core. -/
theorem calm_waiting (b : Build C) (l : Waitlist Path) (ws : List (Waiter C)) :
    Calm s b { b with waitlist := l, waiting := ws } :=
  calm_of_queue rfl rfl rfl (fun _ hx => .inl hx) fun _ hx => hx

theorem calm_pushed (b : Build C) (us : List Text) : Calm s b { b with pushed := us } :=
  calm_of_queue rfl rfl rfl (fun _ hx => .inl hx) fun _ hx => hx

/-! ### Requests -/

theorem calm_release (b : Build C) (p : Path) : Calm s b (b.release s p) := by
  unfold release
  split
  · exact .refl b
  · exact (calm_waiting b _ b.waiting).trans (calm_wake _ _ _)

theorem calm_releaseUnreachable (b : Build C) (ctx : Log.Fields) (p : Path) :
    Calm s b (b.releaseUnreachable s ctx p) := (calm_note b _ _ _).trans (calm_release _ p)

/-- A file is stored, and those who wait for it are answered. -/
theorem register_eq {b b' : Build C} {f : File} (h : b.register s f = (b', none)) :
    ∃ u, s.project.url f.path.normal = .ok u ∧
      Calm s { b with files := b.files.put u f } b' := by
  unfold register at h
  dsimp only at h
  split at h
  · cases h
  · rename_i u hu
    have hnote := calm_note (s := s) { b with files := b.files.put u f } s.context .debug
      ("register_file: " ++ f.path.normal.toText)
    refine ⟨u, hu, ?_⟩
    split at h
    · rw [← (Prod.mk.inj h).1]
      exact hnote.trans ((calm_waiting _ _ _).trans (calm_wake _ _ _))
    · rw [← (Prod.mk.inj h).1]
      exact hnote

theorem register_cases (b : Build C) (f : File) :
    Calm s b (b.register s f).1 ∨ (b.register s f).2 = none := by
  unfold register
  dsimp only
  split
  · exact .inl (calm_note b _ _ _)
  · split
    · exact .inr rfl
    · exact .inr rfl

theorem calm_enqueueUrl (b : Build C) (ctx : Log.Fields) (url : Text) {p : Path}
    (hp : Origin s p) : Calm s b (b.enqueueUrl ctx url p) := by
  unfold enqueueUrl
  split
  · exact .refl b
  · exact ((calm_note b _ _ _).trans (calm_pushed _ _)).trans (calm_enqueue _ hp)

/-- What comes of asking for a dependency, given its URL without the slashes in front. -/
inductive Pushed (s : Setup) (b : Build C) (ctx : Log.Fields) (u : Text) :
    Build C × Option Fault → Prop where
  | ended (h : b.status ≠ .running) (text : Text) : Pushed s b ctx u (b.note ctx .warning text, none)
  | known (h : (b.file? u).isSome ∨ u ∈ b.pushed) (text : Text) :
      Pushed s b ctx u (b.note ctx .debug text, none)
  | unclear {f : Project.MatchFault} (h : s.project.isSource (s.project.path u) = .error f) :
      Pushed s b ctx u (b, some (.ofMatch f))
  | source (h : s.project.isSource (s.project.path u) = .ok true) (hexhausted : b.exhausted = false)
      (text : Text) : Pushed s b ctx u (b.note ctx .debug text, none)
  | unreachable (text : Text) :
      Pushed s b ctx u ((b.note ctx .debug text).releaseUnreachable s ctx (s.project.path u), none)
  | dependency (h : u ∉ b.pushed) : Pushed s b ctx u (b.enqueueUrl ctx u (s.project.path u), none)

theorem push_cases (b : Build C) (ctx : Log.Fields) (url : Text) :
    Pushed s b ctx (url.dropLeading (.char '/')) (b.push s ctx url) := by
  unfold push
  split
  · exact .ended ‹_› _
  · dsimp only
    split
    · rename_i hknown
      exact .known (by simpa using hknown) _
    · rename_i hnew
      split
      · exact .unclear ‹_›
      · split
        · exact .unreachable _
        · rename_i hsource hlater
          have hexhausted : b.exhausted = false := Bool.eq_false_iff.2 hlater
          exact .source hsource hexhausted _
      · refine .dependency fun hmem => hnew ?_
        rw [List.contains_iff_mem.2 hmem, Bool.or_true]

theorem calm_push (b : Build C) (ctx : Log.Fields) (url : Text) : Calm s b (b.push s ctx url).1 := by
  have hpushed := push_cases (s := s) b ctx url
  generalize b.push s ctx url = r at hpushed ⊢
  cases hpushed with
  | ended | known | source => exact calm_note b _ _ _
  | unclear => exact .refl b
  | unreachable text => exact (calm_note b _ _ text).trans (calm_releaseUnreachable _ _ _)
  | dependency => exact calm_enqueueUrl b _ _ (.inl ⟨_, rfl⟩)

/-- A dependency that cannot be read lets the build fail. -/
theorem deliver_of_error (b : Build C) {p : Path} {f : AccessFault} (hread : s.read p = .error f) :
    ∃ log e, (e = .fault (.access f) ∨ e = .dependency p f) ∧
      b.deliver s p = { b with dependencyPump := .gone, log := log }.fail s none e := by
  unfold deliver
  rw [hread]
  dsimp only
  split
  · exact ⟨_, _, .inl rfl, rfl⟩
  · exact ⟨_, _, .inr rfl, rfl⟩

theorem calm_await (b : Build C) (n : Nat) (p : Path) (c : Caller C) :
    Calm s b (b.await s n p c) := by
  unfold await
  split
  · split
    · exact calm_schedule b 1 (Caller.resume_follows _ _)
    · exact calm_goOn b (Caller.resume_follows _ _)
  · exact calm_waiting b b.waitlist _

theorem calm_request (b : Build C) (ctx : Log.Fields) (p : Path) (c : Caller C) :
    Calm s b (b.request s ctx p c) := by
  unfold request
  split
  · exact calm_await b _ p c
  · dsimp only
    refine (calm_waiting b (b.waitlist.create p).1 b.waiting).trans ?_
    split
    · exact calm_goOn _ (Caller.resume_follows _ _)
    · rename_i u _
      have hpush := calm_push (s := s)
        { b with waitlist := (b.waitlist.create p).1, waiting := b.waiting } ctx u
      split
      · rename_i hfault
        rw [hfault] at hpush
        exact hpush.trans (calm_goOn _ (Caller.resume_follows _ _))
      · rename_i hdone
        rw [hdone] at hpush
        exact hpush.trans (calm_await _ _ p c)

theorem calm_load (b : Build C) (url : Text) (c : Caller C) : Calm s b (b.load s url c) := by
  have hanswer : ∀ (b : Build C) a, Calm s b (b.goOn (c.resume a)) := fun b a =>
    calm_goOn b (Caller.resume_follows a c)
  refine (calm_note b (b.contextOf s c) .debug ("loading: " ++ url)).trans ?_
  unfold load
  dsimp only
  split
  · exact hanswer _ _
  · exact hanswer _ _
  · exact hanswer _ _
  · split
    · exact hanswer _ _
    · exact hanswer _ _
    · exact calm_request _ _ _ c

theorem calm_expire (b : Build C) (w : Waiter C) : Calm s b (b.expire s w) :=
  ((calm_note b _ _ _).trans (calm_release _ w.path)).trans
    (calm_goOn _ (Caller.resume_follows _ _))

theorem calm_releaseSources (b : Build C) (ps : List Path) :
    Calm s b (b.releaseSources s ps).1 := by
  induction ps generalizing b with
  | nil => exact .refl b
  | cons p ps ih =>
    unfold releaseSources
    split
    · exact .refl b
    · exact (calm_releaseUnreachable b _ p).trans (ih _)
    · exact ih b

theorem calm_enqueueExtras (b : Build C) {ps : List Path} (hps : ∀ p ∈ ps, Origin s p) :
    Calm s b (b.enqueueExtras s ps).1 := by
  induction ps generalizing b with
  | nil => exact .refl b
  | cons p ps ih =>
    unfold enqueueExtras
    split
    · exact .refl b
    · exact (calm_note b _ _ _).trans (ih _ fun q hq => hps q (List.mem_cons_of_mem p hq))
    · exact .refl b
    · exact (calm_enqueueUrl b _ _ (hps p List.mem_cons_self)).trans
        (ih _ fun q hq => hps q (List.mem_cons_of_mem p hq))

end Build
end HtmlDeps
