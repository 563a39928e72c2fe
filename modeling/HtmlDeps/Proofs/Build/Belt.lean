import Mathlib.Data.List.Perm.Basic
import Mathlib.Logic.Relation
import HtmlDeps.Build.Schedule

/-!
# The belt of the dependency pump

Of all that a build holds, its belt keeps the way of a dependency from the queue to the stream: the queue,
what was read, the stream, what the pump is doing and the jobs of the pump; and besides who has had
anything analyzed or asked for anything.

As long as the pump goes on, it has at most one file in hand, and what was sent together with that file is
what was read (`Belt.Carries`).  So when the stream ends cleanly, everything on the queue was read and sent.
-/

namespace HtmlDeps

/-- A job of the dependency pump: its next turn, or the delivery of a file. -/
def Job.haul? {C : Crawler} : Job C → Option (Option Path)
  | .pumpDependencies => some none
  | .deliver p => some (some p)
  | _ => none

/-- The way of a dependency from the queue to the stream. -/
structure Belt where
  started : Bool
  status : Status
  clients : List Bool  -- for each analysis, whether somebody outside asked for it
  loads : Nat          -- how many requests came from outside
  queue : List (Option Path)
  pushed : List Text
  reads : List Read
  dependencies : Outlet Failure
  pump : Pump
  hauls : List (Option Path)

def Build.belt {C : Crawler} (b : Build C) : Belt where
  started := b.started
  status := b.status
  clients := b.analyses.map (·.client)
  loads := b.loads.length
  queue := b.queue
  pushed := b.pushed
  reads := b.reads
  dependencies := b.dependencies
  pump := b.dependencyPump
  hauls := b.ready.filterMap (·.2.haul?)

namespace Belt

/-- Something is put on the queue, and the pump is woken if it waits. -/
def enqueue (a : Belt) (item : Option Path) : Belt :=
  if a.pump = .idle then
    { a with queue := a.queue ++ [item], pump := .working, hauls := a.hauls ++ [none] }
  else { a with queue := a.queue ++ [item] }

def cancel (a : Belt) : Belt :=
  { a with
    pump := .gone
    hauls := []
    reads := a.reads.map fun r =>
      if r.delivery = .pending then { r with delivery := .cancelled } else r }

def fail (a : Belt) (f : Failure) : Belt :=
  { a with status := .failed, dependencies := a.dependencies.close (.failed f) }.cancel

def succeed (a : Belt) : Belt := { a with status := .succeeded }.enqueue none

/-- How a belt changes while the status stays as it is. -/
inductive Step (s : Setup) : Belt → Belt → Prop
  | push {a : Belt} (hrunning : a.status = .running) (u : Text) (p : Path) :
      Step s a ({ a with pushed := a.pushed ++ [u] }.enqueue (some p))
  | analyze (a : Belt) (clients : List Bool) : Step s a { a with clients := a.clients ++ clients }
  | ask (a : Belt) : Step s a { a with loads := a.loads + 1 }
  | cancel (a : Belt) : Step s a a.cancel
  | order {a : Belt} {hs : List (Option Path)} (h : hs.Perm a.hauls) : Step s a { a with hauls := hs }
  -- The queue is empty, and the pump waits.
  | rest {a : Belt} {hs : List (Option Path)} (h : a.hauls = none :: hs) (hqueue : a.queue = []) :
      Step s a { a with hauls := hs, pump := .idle }
  | finish {a : Belt} {hs rest : List (Option Path)} (h : a.hauls = none :: hs)  -- The end of the queue.
      (hqueue : a.queue = none :: rest) : Step s a { a with
        hauls := hs
        queue := rest
        pump := .gone
        dependencies :=
          if a.status = .succeeded then a.dependencies.close .complete else a.dependencies }
  -- A dependency is read, and held back.
  | fetch {a : Belt} {hs rest : List (Option Path)} {r : Read} (h : a.hauls = none :: hs)
      (hqueue : a.queue = some r.path :: rest) (hr : r.delivery = .pending) : Step s a { a with
        hauls := hs
        queue := rest
        pump := .reading
        reads := a.reads ++ [r] }
  -- A dependency is read, and is delivered next.
  | read {a : Belt} {hs rest : List (Option Path)} {r : Read} (h : a.hauls = none :: hs)
      (hqueue : a.queue = some r.path :: rest) (hr : r.delivery ≠ .pending) : Step s a { a with
        hauls := some r.path :: hs
        queue := rest
        pump := .reading
        reads := a.reads ++ [r] }
  | letThrough {a : Belt} {before after : List Read} {r : Read} (hr : r.delivery = .pending)
      (h : a.reads = before ++ r :: after) : Step s a { a with
        reads := before ++ { r with delivery := .delivered } :: after
        hauls := a.hauls ++ [some r.path] }
  | send {a : Belt} {hs : List (Option Path)} {f : File} {o : Outlet Failure}
      (h : a.hauls = some f.path :: hs) (hread : s.read f.path = .ok f.contents)
      (hsend : a.dependencies.send f = .ok o) : Step s a { a with
        hauls := none :: hs
        dependencies := o
        pump := .working }
  -- A file cannot be taken, and the pump stops.
  | drop {a : Belt} {hs : List (Option Path)} {p : Path} (h : a.hauls = some p :: hs) :
      Step s a { a with hauls := hs, pump := .gone }

abbrev Steps (s : Setup) : Belt → Belt → Prop := Relation.ReflTransGen (Step s)

/-- Some changes, and then perhaps the end of the build. -/
inductive Course (s : Setup) (a : Belt) : Belt → Prop
  | goesOn {a' : Belt} (h : Steps s a a') : Course s a a'
  | succeeds {a' : Belt} (h : Steps s a a') (hrunning : a'.status = .running) : Course s a a'.succeed
  | fails {a' : Belt} (h : Steps s a a') (hstatus : a'.status ≠ .failed) (f : Failure) :
      Course s a (a'.fail f)

variable {s : Setup} {a a' a'' : Belt}

theorem Steps.of_eq (h : a' = a) : Steps s a a' := h ▸ .refl

theorem Steps.trans_course (h : Steps s a a') (h' : Course s a' a'') : Course s a a'' := by
  cases h' with
  | goesOn h' => exact .goesOn (h.trans h')
  | succeeds h' hrunning => exact .succeeds (h.trans h') hrunning
  | fails h' hstatus f => exact .fails (h.trans h') hstatus f

theorem Course.of_eq (h : a' = a) : Course s a a' := .goesOn (.of_eq h)

/-! ### What stays -/

/-- The paths that were ever put on the queue, in order. -/
def fetches (a : Belt) : List Path := a.reads.map (·.path) ++ a.queue.filterMap id

@[simp] theorem status_enqueue (a : Belt) (item : Option Path) : (a.enqueue item).status = a.status := by
  unfold enqueue
  split <;> rfl

@[simp] theorem started_enqueue (a : Belt) (item : Option Path) :
    (a.enqueue item).started = a.started := by
  unfold enqueue
  split <;> rfl

@[simp] theorem clients_enqueue (a : Belt) (item : Option Path) :
    (a.enqueue item).clients = a.clients := by
  unfold enqueue
  split <;> rfl

@[simp] theorem loads_enqueue (a : Belt) (item : Option Path) : (a.enqueue item).loads = a.loads := by
  unfold enqueue
  split <;> rfl

@[simp] theorem queue_enqueue (a : Belt) (item : Option Path) :
    (a.enqueue item).queue = a.queue ++ [item] := by
  unfold enqueue
  split <;> rfl

@[simp] theorem pushed_enqueue (a : Belt) (item : Option Path) :
    (a.enqueue item).pushed = a.pushed := by
  unfold enqueue
  split <;> rfl

@[simp] theorem reads_enqueue (a : Belt) (item : Option Path) : (a.enqueue item).reads = a.reads := by
  unfold enqueue
  split <;> rfl

@[simp] theorem dependencies_enqueue (a : Belt) (item : Option Path) :
    (a.enqueue item).dependencies = a.dependencies := by
  unfold enqueue
  split <;> rfl

theorem paths_cancel (a : Belt) : a.cancel.reads.map (·.path) = a.reads.map (·.path) := by
  unfold cancel
  rw [List.map_map]
  refine List.map_congr_left fun r _ => ?_
  dsimp only [Function.comp]
  split <;> rfl

/-- What a change leaves as it is. -/
theorem Step.kept (h : Step s a a') : a'.status = a.status ∧ a'.started = a.started ∧
    a.clients <+: a'.clients ∧ a.loads ≤ a'.loads := by
  cases h <;> simp [Belt.cancel]

/-- Nothing is put on the queue of a build that has ended. -/
theorem Step.fetched (h : Step s a a') (hended : a.status ≠ .running) :
    a'.pushed = a.pushed ∧ a'.fetches = a.fetches := by
  cases h with
  | push hrunning => exact absurd hrunning hended
  | cancel => exact ⟨rfl, by rw [fetches, paths_cancel]; rfl⟩
  | finish _ hqueue => exact ⟨rfl, by simp [fetches, hqueue]⟩
  | fetch _ hqueue | read _ hqueue => exact ⟨rfl, by simp [fetches, hqueue]⟩
  | letThrough _ hreads => exact ⟨rfl, by simp [fetches, hreads]⟩
  | _ => exact ⟨rfl, rfl⟩

theorem Steps.kept (h : Steps s a a') : a'.status = a.status ∧ a'.started = a.started ∧
    a.clients <+: a'.clients ∧ a.loads ≤ a'.loads := by
  induction h with
  | refl => exact ⟨rfl, rfl, List.prefix_rfl, Nat.le_refl _⟩
  | tail _ hstep ih =>
    obtain ⟨hstatus, hstarted, hclients, hloads⟩ := hstep.kept
    exact ⟨hstatus.trans ih.1, hstarted.trans ih.2.1, ih.2.2.1.trans hclients,
      Nat.le_trans ih.2.2.2 hloads⟩

theorem Course.kept (h : Course s a a') : a'.started = a.started ∧ a.clients <+: a'.clients ∧
    a.loads ≤ a'.loads ∧ (a.status ≠ .running → a'.status ≠ .running) := by
  cases h with
  | goesOn h =>
    obtain ⟨hstatus, hstarted, hclients, hloads⟩ := h.kept
    exact ⟨hstarted, hclients, hloads, fun hended => hstatus ▸ hended⟩
  | succeeds h =>
    obtain ⟨-, hstarted, hclients, hloads⟩ := h.kept
    unfold succeed
    simp only [started_enqueue, clients_enqueue, loads_enqueue, status_enqueue]
    exact ⟨hstarted, hclients, hloads, fun _ => nofun⟩
  | fails h =>
    obtain ⟨-, hstarted, hclients, hloads⟩ := h.kept
    exact ⟨hstarted, hclients, hloads, fun _ => nofun⟩

theorem Steps.fetched (h : Steps s a a') (hended : a.status ≠ .running) :
    a'.pushed = a.pushed ∧ a'.fetches = a.fetches := by
  induction h with
  | refl => exact ⟨rfl, rfl⟩
  | tail hsteps hstep ih =>
    obtain ⟨hpushed, hfetches⟩ := hstep.fetched ((Steps.kept hsteps).1 ▸ hended)
    exact ⟨hpushed.trans ih.1, hfetches.trans ih.2⟩

theorem Course.fetched (h : Course s a a') (hended : a.status ≠ .running) :
    a'.pushed = a.pushed ∧ a'.fetches = a.fetches := by
  cases h with
  | goesOn h => exact h.fetched hended
  | succeeds h hrunning => exact absurd (h.kept.1.symm.trans hrunning) hended
  | @fails a' h _ f =>
    obtain ⟨hpushed, hfetches⟩ := h.fetched hended
    refine ⟨hpushed, Eq.trans ?_ hfetches⟩
    exact congrArg (· ++ a'.queue.filterMap id)
      (paths_cancel { a' with status := .failed, dependencies := a'.dependencies.close (.failed f) })

/-! ### What the pump has in hand -/

/-- The pump has stopped for good. -/
structure Stopped (a : Belt) : Prop where
  hauls : a.hauls = []
  pump : a.pump ≠ .idle
  reads : ∀ r ∈ a.reads, r.delivery ≠ .pending

/-- The pump goes on, with these files in hand. -/
inductive Holds (a : Belt) : List Path → Prop
  | waits (hauls : a.hauls = []) (pump : a.pump = .idle) (queue : a.queue = [])
      (reads : ∀ r ∈ a.reads, r.delivery ≠ .pending) : Holds a []
  | turns (hauls : a.hauls = [none]) (pump : a.pump ≠ .idle)
      (reads : ∀ r ∈ a.reads, r.delivery ≠ .pending) : Holds a []
  | delivers {p : Path} (hauls : a.hauls = [some p]) (pump : a.pump ≠ .idle)
      (reads : ∀ r ∈ a.reads, r.delivery ≠ .pending) : Holds a [p]
  | reads {r : Read} {rs : List Read} (hauls : a.hauls = []) (pump : a.pump ≠ .idle)
      (last : a.reads = rs ++ [r]) (pending : r.delivery = .pending)
      (reads : ∀ r ∈ rs, r.delivery ≠ .pending) : Holds a [r.path]

/-- The paths of the files that were sent. -/
def sent (a : Belt) : List Path := a.dependencies.sent.map (·.path)

theorem sent_of_dependencies (h : a'.dependencies = a.dependencies) : a'.sent = a.sent := by
  rw [sent, sent, h]

/-- Nothing comes behind the end of the queue, what was sent is what the reader gave, and as long as the
pump goes on, what was read was sent or is in hand.  A stream that has ended cleanly has passed on
everything. -/
structure Carries (s : Setup) (a : Belt) : Prop where
  queue : ∃ ps : List Path,
    a.queue = ps.map some ∨ a.queue = ps.map some ++ [none] ∧ a.status ≠ .running
  texts : ∀ f ∈ a.dependencies.sent, s.read f.path = .ok f.contents
  failed : a.status = .failed → a.Stopped
  hand : a.Stopped ∨ ∃ hand, a.Holds hand ∧ a.sent ++ hand = a.reads.map (·.path)
  ended : a.dependencies.ending = some .complete →
    a.Stopped ∧ a.status ≠ .running ∧ a.queue = [] ∧ a.sent = a.reads.map (·.path)

theorem stopped_cancel (a : Belt) : a.cancel.Stopped := by
  refine ⟨rfl, nofun, fun r hr => ?_⟩
  obtain ⟨r, -, rfl⟩ := List.mem_map.1 hr
  by_cases hpending : r.delivery = .pending
  · simp [hpending]
  · simp [hpending]

/-- A pump that has stopped does nothing any more. -/
theorem Stopped.step (h : a.Stopped) (hstep : Step s a a') :
    a'.Stopped ∧ a'.dependencies = a.dependencies ∧ a'.reads.map (·.path) = a.reads.map (·.path) := by
  have hnone : ∀ {item : Option Path} {hs : List (Option Path)}, a.hauls ≠ item :: hs := by
    intro item hs hhauls
    rw [h.hauls] at hhauls
    cases hhauls
  cases hstep with
  | push _ u p =>
    rw [enqueue, if_neg (by exact h.pump)]
    exact ⟨⟨h.hauls, h.pump, h.reads⟩, rfl, rfl⟩
  | analyze | ask => exact ⟨⟨h.hauls, h.pump, h.reads⟩, rfl, rfl⟩
  | cancel => exact ⟨stopped_cancel a, rfl, paths_cancel a⟩
  | order hperm =>
    exact ⟨⟨List.perm_nil.1 (h.hauls ▸ hperm), h.pump, h.reads⟩, rfl, rfl⟩
  | letThrough hr hreads =>
    exact absurd hr (h.reads _ (hreads ▸ List.mem_append_right _ List.mem_cons_self))
  | rest hhauls | finish hhauls | fetch hhauls | read hhauls | send hhauls | drop hhauls =>
    exact absurd hhauls hnone

theorem Stopped.steps (h : a.Stopped) (hsteps : Steps s a a') :
    a'.Stopped ∧ a'.dependencies = a.dependencies ∧ a'.reads.map (·.path) = a.reads.map (·.path) := by
  induction hsteps with
  | refl => exact ⟨h, rfl, rfl⟩
  | tail _ hstep ih =>
    obtain ⟨hstopped, hdependencies, hreads⟩ := ih.1.step hstep
    exact ⟨hstopped, hdependencies.trans ih.2.1, hreads.trans ih.2.2⟩

/-- A job of the pump is the only one. -/
theorem Carries.of_haul (h : Carries s a) {item : Option Path} {hs : List (Option Path)}
    (hhauls : a.hauls = item :: hs) : hs = [] ∧ a.status ≠ .failed ∧
      a.dependencies.ending ≠ some .complete ∧ (∀ r ∈ a.reads, r.delivery ≠ .pending) ∧
      a.sent ++ item.toList = a.reads.map (·.path) := by
  have hgoes : ¬ a.Stopped := by
    intro hstopped
    rw [hstopped.hauls] at hhauls
    cases hhauls
  have hstatus : a.status ≠ .failed := mt h.failed hgoes
  have hending : a.dependencies.ending ≠ some .complete := fun hended => hgoes (h.ended hended).1
  obtain ⟨hand, hholds, hsent⟩ := h.hand.resolve_left hgoes
  cases hholds with
  | waits hauls | reads hauls =>
    rw [hauls] at hhauls
    cases hhauls
  | turns hauls _ reads | delivers hauls _ reads =>
    rw [hauls] at hhauls
    cases hhauls
    exact ⟨rfl, hstatus, hending, reads, hsent⟩

/-- Only the way of the dependencies matters. -/
theorem Carries.same (h : Carries s a) (hfailed : a'.status = .failed → a.status = .failed)
    (hrunning : a.status ≠ .running → a'.status ≠ .running) (hqueue : a'.queue = a.queue) (hreads : a'.reads = a.reads)
    (hdependencies : a'.dependencies = a.dependencies) (hpump : a'.pump = a.pump) (hhauls : a'.hauls = a.hauls) : Carries s a' := by
  have hstopped : a.Stopped → a'.Stopped := fun hstopped =>
    ⟨hhauls ▸ hstopped.hauls, hpump ▸ hstopped.pump, hreads ▸ hstopped.reads⟩
  refine ⟨?_, ?_, fun h' => hstopped (h.failed (hfailed h')), ?_, fun hended => ?_⟩
  · rw [hqueue]
    exact h.queue.imp fun ps => Or.imp_right fun hps => ⟨hps.1, hrunning hps.2⟩
  · rw [hdependencies]
    exact h.texts
  · refine h.hand.imp hstopped fun ⟨hand, hholds, hsent⟩ => ⟨hand, ?_, ?_⟩
    · cases hholds with
      | waits hauls pump queue reads =>
        exact .waits (hhauls.trans hauls) (hpump.trans pump) (hqueue.trans queue) (hreads ▸ reads)
      | turns hauls pump reads => exact .turns (hhauls.trans hauls) (hpump ▸ pump) (hreads ▸ reads)
      | delivers hauls pump reads =>
        exact .delivers (hhauls.trans hauls) (hpump ▸ pump) (hreads ▸ reads)
      | reads hauls pump last pending reads =>
        exact .reads (hhauls.trans hauls) (hpump ▸ pump) (hreads.trans last) pending reads
    · rw [hreads, sent_of_dependencies hdependencies]
      exact hsent
  · rw [hdependencies] at hended
    obtain ⟨hgone, hdone, hempty, hsent⟩ := h.ended hended
    refine ⟨hstopped hgone, hrunning hdone, hqueue.trans hempty, ?_⟩
    rw [hreads, sent_of_dependencies hdependencies]
    exact hsent

theorem Carries.enqueue (h : Carries s a) {item : Option Path}
    (hqueue : ∃ ps : List Path, a.queue ++ [item] = ps.map some ∨
      a.queue ++ [item] = ps.map some ++ [none] ∧ a.status ≠ .running)
    (hending : a.dependencies.ending ≠ some .complete) : Carries s (a.enqueue item) := by
  by_cases hidle : a.pump = .idle
  · have hgoes : ¬ a.Stopped := fun hstopped => hstopped.pump hidle
    obtain ⟨hand, hholds, hsent⟩ := h.hand.resolve_left hgoes
    rw [Belt.enqueue, if_pos hidle]
    refine ⟨hqueue, h.texts, fun hfailed => absurd (h.failed hfailed) hgoes, .inr ⟨hand, ?_, hsent⟩,
      fun hended => absurd hended hending⟩
    cases hholds with
    | waits hauls _ _ reads => exact .turns (by simp [hauls]) nofun reads
    | turns _ pump | delivers _ pump | reads _ pump => exact absurd hidle pump
  · rw [Belt.enqueue, if_neg hidle]
    refine ⟨hqueue, h.texts, fun hfailed => ?_, ?_, fun hended => absurd hended hending⟩
    · obtain ⟨hauls, pump, reads⟩ := h.failed hfailed
      exact ⟨hauls, pump, reads⟩
    · rcases h.hand with ⟨hauls, pump, reads⟩ | ⟨hand, hholds, hsent⟩
      · exact .inl ⟨hauls, pump, reads⟩
      · refine .inr ⟨hand, ?_, hsent⟩
        cases hholds with
        | waits _ pump => exact absurd pump hidle
        | turns hauls pump reads => exact .turns hauls pump reads
        | delivers hauls pump reads => exact .delivers hauls pump reads
        | reads hauls pump last pending reads => exact .reads hauls pump last pending reads

theorem Carries.cancel (h : Carries s a) : Carries s a.cancel := by
  refine ⟨h.queue, h.texts, fun _ => stopped_cancel a, .inl (stopped_cancel a), fun hended => ?_⟩
  obtain ⟨-, hstatus, hqueue, hsent⟩ := h.ended hended
  exact ⟨stopped_cancel a, hstatus, hqueue, hsent.trans (paths_cancel a).symm⟩

/-- The pump takes what is next on the queue. -/
theorem Carries.queue_tail (h : Carries s a) {item : Option Path} {rest : List (Option Path)}
    (hqueue : a.queue = item :: rest) : (∃ ps : List Path,
      rest = ps.map some ∨ rest = ps.map some ++ [none] ∧ a.status ≠ .running) ∧
      (item = none → rest = [] ∧ a.status ≠ .running) := by
  obtain ⟨ps, hps | ⟨hps, hstatus⟩⟩ := h.queue
  · cases ps with
    | nil =>
      rw [hqueue] at hps
      cases hps
    | cons p ps =>
      obtain ⟨rfl, rfl⟩ := List.cons.inj (hqueue.symm.trans hps)
      exact ⟨⟨ps, .inl rfl⟩, nofun⟩
  · cases ps with
    | nil =>
      obtain ⟨rfl, rfl⟩ := List.cons.inj (hqueue.symm.trans hps)
      exact ⟨⟨[], .inl rfl⟩, fun _ => ⟨rfl, hstatus⟩⟩
    | cons p ps =>
      obtain ⟨rfl, rfl⟩ := List.cons.inj (hqueue.symm.trans hps)
      exact ⟨⟨ps, .inr ⟨rfl, hstatus⟩⟩, nofun⟩

/-- The pump goes on with these files in hand. -/
theorem carries_of_holds {hand : List Path} (h : a.Holds hand)
    (hsent : a.sent ++ hand = a.reads.map (·.path)) (hqueue : ∃ ps : List Path,
      a.queue = ps.map some ∨ a.queue = ps.map some ++ [none] ∧ a.status ≠ .running)
    (hfailed : a.status ≠ .failed) (hending : a.dependencies.ending ≠ some .complete)
    (htexts : ∀ f ∈ a.dependencies.sent, s.read f.path = .ok f.contents) : Carries s a :=
  ⟨hqueue, htexts, fun h => absurd h hfailed, .inr ⟨hand, h, hsent⟩, fun h => absurd h hending⟩

theorem forall_mem_concat {rs : List Read} {r : Read} (hrs : ∀ r ∈ rs, r.delivery ≠ .pending)
    (hr : r.delivery ≠ .pending) : ∀ x ∈ rs ++ [r], x.delivery ≠ .pending :=
  List.forall_mem_append.2 ⟨hrs, List.forall_mem_singleton.2 hr⟩

/-- If only the last of several reads may be held back, then a read that is held back is the last. -/
theorem eq_last_of_pending {before after rs : List Read} {r r' : Read} (hreads : before ++ r :: after = rs ++ [r'])
    (hrs : ∀ x ∈ rs, x.delivery ≠ .pending) (hr : r.delivery = .pending) :
    before = rs ∧ r = r' ∧ after = [] := by
  rcases List.eq_nil_or_concat after with rfl | ⟨after', r'', rfl⟩
  · obtain ⟨hbefore, hlast⟩ := List.append_inj' hreads rfl
    exact ⟨hbefore, (List.cons.inj hlast).1, rfl⟩
  · have hlast : (before ++ r :: after') ++ [r''] = rs ++ [r'] := by
      rw [← hreads]
      simp
    obtain ⟨rfl, -⟩ := List.append_inj' hlast rfl
    exact absurd hr (hrs r (List.mem_append_right _ List.mem_cons_self))

/-- The read that is held back is let through. -/
theorem Carries.letThrough (h : Carries s a) {before after : List Read} {r : Read} (hr : r.delivery = .pending)
    (hreads : a.reads = before ++ r :: after) : Carries s { a with
      reads := before ++ { r with delivery := .delivered } :: after
      hauls := a.hauls ++ [some r.path] } := by
  have hmem : r ∈ a.reads := hreads ▸ List.mem_append_right _ List.mem_cons_self
  have hgoes : ¬ a.Stopped := fun hstopped => hstopped.reads r hmem hr
  have hending : a.dependencies.ending ≠ some .complete := fun hended => hgoes (h.ended hended).1
  obtain ⟨hand, hholds, hsent⟩ := h.hand.resolve_left hgoes
  cases hholds with
  | waits _ _ _ reads | turns _ _ reads | delivers _ _ reads => exact absurd hr (reads r hmem)
  | reads hauls pump last pending reads =>
    obtain ⟨rfl, rfl, rfl⟩ := eq_last_of_pending (hreads.symm.trans last) reads hr
    have hhauls : a.hauls ++ [some r.path] = [some r.path] := congrArg (· ++ [some r.path]) hauls
    refine carries_of_holds (.delivers hhauls pump (forall_mem_concat reads nofun)) ?_ h.queue
      (mt h.failed hgoes) hending h.texts
    rw [hreads] at hsent
    rw [List.map_append] at hsent ⊢
    exact hsent

/-- The pump comes to the end of the queue. -/
theorem Carries.finish (h : Carries s a) {hs rest : List (Option Path)} (hhauls : a.hauls = none :: hs)
    (hqueue : a.queue = none :: rest) {o : Outlet Failure} (ho : o.sent = a.dependencies.sent) : Carries s { a with
      queue := rest, dependencies := o, pump := .gone, hauls := hs } := by
  obtain ⟨rfl, hfailed, hending, hreads, hsent⟩ := h.of_haul hhauls
  obtain ⟨hrest, hnone⟩ := h.queue_tail hqueue
  obtain ⟨rfl, hstatus⟩ := hnone rfl
  have hstopped : Stopped { a with queue := [], dependencies := o, pump := .gone, hauls := [] } :=
    ⟨rfl, nofun, hreads⟩
  refine ⟨hrest, fun f hf => h.texts f (ho ▸ hf), fun _ => hstopped, .inl hstopped,
    fun _ => ⟨hstopped, hstatus, rfl, ?_⟩⟩
  rw [sent, ho, ← hsent]
  exact (List.append_nil _).symm

theorem Carries.step (h : Carries s a) (hstep : Step s a a') : Carries s a' := by
  cases hstep with
  | push hrunning u p =>
    have hpushed : Carries s { a with pushed := a.pushed ++ [u] } :=
      h.same id id rfl rfl rfl rfl rfl
    refine hpushed.enqueue ?_ fun hended => (h.ended hended).2.1 hrunning
    obtain ⟨ps, hps | ⟨-, hstatus⟩⟩ := h.queue
    · exact ⟨ps ++ [p], .inl (by simp [hps])⟩
    · exact absurd hrunning hstatus
  | analyze | ask => exact h.same id id rfl rfl rfl rfl rfl
  | cancel => exact h.cancel
  | order hperm =>
    refine h.same id id rfl rfl rfl rfl ?_  -- there is at most one job of the pump
    cases hhauls : a.hauls with
    | nil => exact List.perm_nil.1 (hhauls ▸ hperm)
    | cons item hs =>
      obtain rfl := (h.of_haul hhauls).1
      exact List.perm_singleton.1 (hhauls ▸ hperm)
  | rest hhauls hqueue =>
    obtain ⟨rfl, hfailed, hending, hreads, hsent⟩ := h.of_haul hhauls
    exact carries_of_holds (.waits rfl rfl hqueue hreads) hsent h.queue hfailed hending h.texts
  | finish hhauls hqueue =>
    refine h.finish hhauls hqueue ?_
    split
    · exact Outlet.sent_close _ _
    · rfl
  | @fetch hs rest r hhauls hqueue hr =>
    obtain ⟨rfl, hfailed, hending, hreads, hsent⟩ := h.of_haul hhauls
    refine carries_of_holds (.reads rfl nofun rfl hr hreads) ?_ (h.queue_tail hqueue).1 hfailed hending
      h.texts
    rw [List.map_append, ← hsent]
    simp [sent]
  | @read hs rest r hhauls hqueue hr =>
    obtain ⟨rfl, hfailed, hending, hreads, hsent⟩ := h.of_haul hhauls
    refine carries_of_holds (.delivers rfl nofun (forall_mem_concat hreads hr)) ?_ (h.queue_tail hqueue).1
      hfailed hending h.texts
    rw [List.map_append, ← hsent]
    simp [sent]
  | letThrough hr hreads => exact h.letThrough hr hreads
  | @send hs f o hhauls hread hsend =>
    obtain ⟨rfl, hfailed, hending, hreads, hsent⟩ := h.of_haul hhauls
    refine carries_of_holds (.turns rfl nofun hreads) ?_ h.queue hfailed ?_ ?_
    · rw [← hsent, sent, Outlet.sent_of_send hsend]
      simp [sent]
    · rw [Outlet.ending_of_send hsend]
      exact hending
    · rw [Outlet.sent_of_send hsend]
      exact List.forall_mem_append.2 ⟨h.texts, List.forall_mem_singleton.2 hread⟩
  | drop hhauls =>
    obtain ⟨rfl, hfailed, hending, hreads, hsent⟩ := h.of_haul hhauls
    exact ⟨h.queue, h.texts, fun _ => ⟨rfl, nofun, hreads⟩, .inl ⟨rfl, nofun, hreads⟩,
      fun hended => absurd hended hending⟩

theorem Carries.steps (h : Carries s a) (hsteps : Steps s a a') : Carries s a' := by
  induction hsteps with
  | refl => exact h
  | tail _ hstep ih => exact ih.step hstep

theorem Carries.succeed (h : Carries s a) (hrunning : a.status = .running) : Carries s a.succeed := by
  have hending : a.dependencies.ending ≠ some .complete := fun hended => (h.ended hended).2.1 hrunning
  have hdone : Carries s { a with status := .succeeded } :=
    h.same nofun (fun _ => nofun) rfl rfl rfl rfl rfl
  refine hdone.enqueue ?_ hending
  obtain ⟨ps, hps | ⟨-, hstatus⟩⟩ := h.queue
  · exact ⟨ps, .inr ⟨congrArg (· ++ [none]) hps, nofun⟩⟩
  · exact absurd hrunning hstatus

theorem Carries.fail (h : Carries s a) (f : Failure) : Carries s (a.fail f) := by
  have hstopped : (a.fail f).Stopped := stopped_cancel _
  obtain ⟨ps, hps⟩ := h.queue
  refine ⟨⟨ps, hps.imp_right fun hps => ⟨hps.1, nofun⟩⟩, ?_, fun _ => hstopped, .inl hstopped,
    fun hended => ?_⟩
  · unfold Belt.fail Belt.cancel
    dsimp only
    rw [Outlet.sent_close]
    exact h.texts
  · -- a stream that is closed stays as it is
    have hclosed := Outlet.eq_of_close_failed hended
    have hdependencies : (a.fail f).dependencies = a.dependencies := hclosed
    rw [hdependencies] at hended
    obtain ⟨-, -, hqueue, hsent⟩ := h.ended hended
    refine ⟨hstopped, nofun, hqueue, ?_⟩
    rw [sent, hdependencies]
    exact hsent.trans (paths_cancel { a with status := .failed }).symm

theorem Carries.course (h : Carries s a) (hcourse : Course s a a') : Carries s a' := by
  cases hcourse with
  | goesOn hsteps => exact h.steps hsteps
  | succeeds hsteps hrunning => exact (h.steps hsteps).succeed hrunning
  | fails hsteps _ f => exact (h.steps hsteps).fail f

/-- A pump that has not done anything takes its first turn. -/
theorem Carries.begin (h : Carries s a) (hstopped : a.Stopped) (hsent : a.sent = a.reads.map (·.path))
    (hstatus : a.status ≠ .failed) (hending : a.dependencies.ending ≠ some .complete) :
    Carries s { a with hauls := a.hauls ++ [none] } := by
  have hhauls : a.hauls ++ [none] = [none] := congrArg (· ++ [none]) hstopped.hauls
  exact carries_of_holds (.turns hhauls hstopped.pump hstopped.reads)
    ((List.append_nil _).trans hsent) h.queue hstatus hending h.texts

end Belt
end HtmlDeps
