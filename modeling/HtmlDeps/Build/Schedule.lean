import HtmlDeps.Build.Pump

/-!
# Running a build

`run` does one job.  Any ready job may be next; `settle` takes them in the order of the list, where a
job that lets rounds pass goes back to the end.  The remaining functions are what somebody outside
can do: start the build, let sources arrive, ask for files, and so on.

These are `BuildAnalyzer.start` and `_spawn`, and the event loop as far as the program sees it: a task is a
job, and what it awaits leaves the next job behind.
-/

namespace HtmlDeps.Build

variable {C : Crawler}

def run (s : Setup) (b : Build C) : Job C → Build C
  | .pumpSources => b.pumpSources s
  | .closeSources => b.closeSources
  | .pumpDependencies => b.pumpDependencies s
  | .deliver p => b.deliver s p
  | .begin a => b.begin s a
  | .turn a t => b.turn s a t
  | .load n u => b.load s u (.client n)
  | .loaded n answer => { b with loads := b.loads.set n (some answer) }
  | .expire w => b.expire s w

/-- Does the next job, or puts it off. -/
def step (s : Setup) (b : Build C) : Build C :=
  match b.ready with
  | [] => b
  | (0, j) :: rest => { b with ready := rest }.run s j
  | (n + 1, j) :: rest => { b with ready := rest ++ [(n, j)] }

/-- Does jobs until none is ready, but at most `limit` steps. -/
def settle (s : Setup) : Nat → Build C → Build C
  | 0, b => b
  | limit + 1, b => if b.ready.isEmpty then b else settle s limit (b.step s)

/-- Puts the extra dependencies on the queue, except sources. -/
def enqueueExtras (s : Setup) (b : Build C) : List Path → Build C × Option Fault
  | [] => (b, none)
  | p :: ps =>
    match s.project.isSource p, s.project.url p with
    | .error f, _ => (b, some (.ofMatch f))
    | .ok true, _ =>
      enqueueExtras s (b.note s.context .debug
        ("extra dependency is a source file, ignoring: " ++ p.toText)) ps
    | .ok false, .error e => (b, some (.outside e))
    | .ok false, .ok u => enqueueExtras s (b.enqueueUrl s.context u p) ps

/-- Starts the build; a second time this does nothing. -/
def start (s : Setup) (b : Build C) : Build C × Option Fault :=
  if b.started then (b, none)
  else
    let b := { b with started := true }
    match s.extras with
    | .error f => (b, some (.patterns f))
    | .ok extras =>
      match b.enqueueExtras s extras with
      | (b, some f) => (b, some f)
      | (b, none) =>
        let b := (b.schedule 0 .pumpSources).schedule 0 .pumpDependencies
        (if b.worklist.isEmpty then b.complete s none else b, none)

/-- Something arrives from the sources. -/
def arrive (b : Build C) (item : Arrival) : Build C :=
  let b := { b with incoming := b.incoming ++ [item] }
  if b.sourcePump = .idle then
    { b with sourcePump := .working }.schedule 0 .pumpSources
  else b

/-- Why a read cannot be delivered. -/
inductive DeliveryFault where
  | unread (url : Text)  -- nobody has read this URL
  | settled              -- it was delivered or cancelled before
deriving DecidableEq, Repr

def DeliveryFault.message : DeliveryFault → Text
  | .unread u => u.quoted
  | .settled => "invalid state"

/-- Lets a read through that is held back. -/
def letThrough (b : Build C) (url : Text) : Except DeliveryFault (Build C) :=
  match (b.reads.filter (·.url = url)).getLast? with
  | none => .error (.unread url)
  | some r =>
    if r.delivery = .pending then
      let reads := b.reads.map fun r => if r.url = url then { r with delivery := .delivered } else r
      .ok ({ b with reads := reads }.schedule 0 (.deliver r.path))
    else .error .settled

/-- Somebody outside asks for a URL. -/
def ask (b : Build C) (url : Text) : Build C :=
  { b with loads := b.loads ++ [none] }.schedule 0 (.load b.loads.length url)

/-- More time passes than a request may wait. -/
def outwait (s : Setup) (b : Build C) : Build C :=
  if s.timeout.isSome then
    { b with waiting := [], ready := b.ready ++ b.waiting.map fun w => (3, .expire w) }
  else b

end HtmlDeps.Build
