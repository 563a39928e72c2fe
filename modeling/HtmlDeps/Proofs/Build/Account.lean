import Mathlib.Data.List.Perm.Subperm
import Mathlib.Logic.Relation
import HtmlDeps.Proofs.Build.Replies

/-!
# The account of a build

Of all that a build holds, its account keeps what decides which fragments are analyzed and which files are
sent: the fragments and the index, the two streams, the queue, what has arrived and what was read, and
those jobs on which a file or the end of a stream depends, its duties.  Who asks for which file, what was
noted and the memory of the crawls are left out.

An account changes in a few ways only (`Account.Step`).  Every step of a build amounts to some of them, so
that what they preserve holds of builds.
-/

namespace HtmlDeps

/-- Something that has to be done for a stream. -/
inductive Duty where
  | deliver (path : Path)  -- a dependency that was read is to be sent
  | close                  -- the stream of sources is to be closed
deriving DecidableEq, Repr

def Job.duty? {C : Crawler} : Job C → Option Duty
  | .deliver p => some (.deliver p)
  | .closeSources => some .close
  | _ => none

/-- What decides which fragments are analyzed and which files are sent. -/
structure Account where
  status : Status
  worklist : List Path
  claimed : List Path
  index : Index
  analyses : List (Path × Bool)  -- The path of each analysis, and whether somebody outside asked for it.
  sources : Outlet Failure
  dependencies : Outlet Failure
  queue : List (Option Path)
  pushed : List Text
  exhausted : Bool
  incoming : List Arrival
  closing : Bool  -- whether the source pump waits for the end of the build
  reads : List Read
  duties : List Duty

def Build.account {C : Crawler} (b : Build C) : Account where
  status := b.status
  worklist := b.worklist
  claimed := b.claimed
  index := b.index
  analyses := b.analyses.map fun x => (x.path, x.client)
  sources := b.sources
  dependencies := b.dependencies
  queue := b.queue
  pushed := b.pushed
  exhausted := b.exhausted
  incoming := b.incoming
  closing := decide (b.sourcePump = .closing)
  reads := b.reads
  duties := b.ready.filterMap (·.2.duty?)

namespace Account

/-- A fragment that was not started is started. -/
def claim (a : Account) (p : Path) : Account :=
  if p ∈ a.worklist ∧ p ∉ a.claimed then
    { a with claimed := a.claimed ++ [p], analyses := a.analyses ++ [(p, false)] }
  else a

/-- A fragment leaves the worklist. -/
def enter (a : Account) (p : Path) (i : Index) : Account :=
  { a with index := i, worklist := a.worklist.filter (· ≠ p) }

/-- The work of the build is dropped, and with it all duties. -/
def cancel (a : Account) : Account :=
  { a with
    closing := false
    duties := []
    reads := a.reads.map fun r =>
      if r.delivery = .pending then { r with delivery := .cancelled } else r }

def fail (a : Account) (f : Failure) : Account :=
  { a with
    status := .failed
    sources := a.sources.close (.failed f)
    dependencies := a.dependencies.close (.failed f) }.cancel

def succeed (a : Account) : Account :=
  { a with
    status := .succeeded
    queue := a.queue ++ [none]
    closing := false
    duties := if a.closing then a.duties ++ [.close] else a.duties }

/-- How an account changes, unless something arrives. -/
inductive Step (s : Setup) : Account → Account → Prop
  | push {a : Account} {u : Text} {p : Path} (hnew : u ∉ a.pushed) (h : Build.LeadsTo s u p) :
      Step s a { a with pushed := a.pushed ++ [u], queue := a.queue ++ [some p] }
  | claim (a : Account) (p : Path) : Step s a (a.claim p)
  | analyze (a : Account) (p : Path) : Step s a { a with analyses := a.analyses ++ [(p, true)] }
  -- Some fragment is left, or the build has ended before.
  | enter {a : Account} {p : Path} {d : Deps} {i : Index} (hp : p ∈ a.worklist)
      (hadd : a.index.add p.toText d = .ok i)
      (hleft : (a.enter p i).worklist ≠ [] ∨ a.status ≠ .running) : Step s a (a.enter p i)
  -- The last fragment lets the build succeed.
  | last {a : Account} {p : Path} {d : Deps} {i : Index} (hp : p ∈ a.worklist)
      (hadd : a.index.add p.toText d = .ok i) (hrunning : a.status = .running) :
      Step s a (a.enter p i).succeed
  | lastFails {a : Account} {p : Path} {d : Deps} {i : Index} (hp : p ∈ a.worklist)
      (hadd : a.index.add p.toText d = .ok i) (hrunning : a.status = .running) (f : Failure) :
      Step s a ((a.enter p i).fail f)
  | fail {a : Account} (h : a.status ≠ .failed) (f : Failure) : Step s a (a.fail f)
  | cancel (a : Account) : Step s a a.cancel
  | take {a : Account} {f : File} {rest : List Arrival} {o : Outlet Failure}  -- A source is sent.
      (h : a.incoming = .file f :: rest) (hstatus : a.status ≠ .failed)
      (hsend : a.sources.send f = .ok o) : Step s a { a with incoming := rest, sources := o }
  -- What arrives in a failed build is dropped.
  | skip {a : Account} {item : Arrival} {rest : List Arrival} (h : a.incoming = item :: rest)
      (hstatus : a.status = .failed) : Step s a { a with incoming := rest }
  | exhaust {a : Account} {rest : List Arrival} (h : a.incoming = .finish :: rest) :
      Step s a { a with incoming := rest, exhausted := true }
  -- The source pump waits for the end of the build.
  | rest {a : Account} (h : a.exhausted = true) : Step s a { a with closing := true }
  | leave (a : Account) : Step s a { a with closing := false }
  | endSources {a : Account} (h : a.exhausted = true ∨ .close ∈ a.duties)
      (hstatus : a.status = .succeeded) : Step s a { a with sources := a.sources.close .complete }
  -- A dependency is read, and held back.
  | fetch {a : Account} {r : Read} {rest : List (Option Path)} (h : a.queue = some r.path :: rest)
      (hr : r.delivery = .pending) : Step s a { a with queue := rest, reads := a.reads ++ [r] }
  -- A dependency is read, and is sent next.
  | read {a : Account} {r : Read} {rest : List (Option Path)} (h : a.queue = some r.path :: rest)
      (hr : r.delivery ≠ .pending) : Step s a { a with
        queue := rest
        reads := a.reads ++ [r]
        duties := .deliver r.path :: a.duties }
  | letThrough {a : Account} {before after : List Read} {r : Read} (hr : r.delivery = .pending)
      (h : a.reads = before ++ r :: after) : Step s a { a with
        reads := before ++ { r with delivery := .delivered } :: after
        duties := a.duties ++ [.deliver r.path] }
  | send {a : Account} {f : File} {ds : List Duty} {o : Outlet Failure}
      (h : a.duties = .deliver f.path :: ds) (hsend : a.dependencies.send f = .ok o) :
      Step s a { a with duties := ds, dependencies := o }
  -- Duties come in another order, or are done with.
  | settle {a : Account} {ds : List Duty} (h : ds.Subperm a.duties) : Step s a { a with duties := ds }
  | next {a : Account} {rest : List (Option Path)} (h : a.queue = none :: rest) :  -- The end of the queue.
      Step s a { a with queue := rest }
  | endDependencies {a : Account} (hstatus : a.status = .succeeded) :
      Step s a { a with dependencies := a.dependencies.close .complete }

/-- Some changes, one after the other. -/
abbrev Steps (s : Setup) : Account → Account → Prop := Relation.ReflTransGen (Step s)

theorem Steps.of_eq {s : Setup} {a a' : Account} (h : a' = a) : Steps s a a' := h ▸ .refl

theorem Steps.preserve {s : Setup} {P : Account → Prop} (hP : ∀ a a', P a → Step s a a' → P a')
    {a a' : Account} (h : Steps s a a') (ha : P a) : P a' := by
  induction h with
  | refl => exact ha
  | tail _ hstep ih => exact hP _ _ ih hstep

theorem worklist_claim (a : Account) (p : Path) : (a.claim p).worklist = a.worklist := by
  unfold claim
  split <;> rfl

theorem incoming_claim (a : Account) (p : Path) : (a.claim p).incoming = a.incoming := by
  unfold claim
  split <;> rfl

theorem status_claim (a : Account) (p : Path) : (a.claim p).status = a.status := by
  unfold claim
  split <;> rfl

theorem claim_incoming (a : Account) (items : List Arrival) (p : Path) :
    { a with incoming := items }.claim p = { a.claim p with incoming := items } := by
  unfold claim
  dsimp only
  split <;> rfl

theorem claim_duties (a : Account) (ds : List Duty) (p : Path) :
    { a with duties := ds }.claim p = { a.claim p with duties := ds } := by
  unfold claim
  dsimp only
  split <;> rfl

/-- With an empty worklist no build goes on. -/
def Ended (a : Account) : Prop := a.worklist = [] → a.status ≠ .running

theorem Step.ended {s : Setup} {a a' : Account} (h : Step s a a') (ha : a.Ended) : a'.Ended := by
  cases h with
  | claim p =>
    unfold Ended
    rw [worklist_claim, status_claim]
    exact ha
  | enter _ _ hleft => exact fun hnone => hleft.resolve_left (not_not_intro hnone)
  | last | lastFails | fail => exact fun _ => nofun
  | _ => exact ha

end Account

end HtmlDeps
