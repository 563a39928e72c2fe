import HtmlDeps.Watch.Scope

/-!
# Watchers

A watcher directs an observer of the file system, which it starts once and stops once.  Each
operation gives the requests that the observer gets, in order.

This is `Watcher` (full specification, section Watcher).  The observer is left out but for what it is asked
for.
-/

namespace HtmlDeps.Watch

/-- What an observer is asked for. -/
inductive Request where
  | schedule (root : Path)  -- to report on a directory and all below it
  | start
  | stop
  | join (seconds : Nat)  -- to end within so many seconds
  | unscheduleAll
deriving DecidableEq, Repr

/-- Whether an observer runs. -/
structure Watcher where
  running : Bool
deriving DecidableEq, Repr

/-- Why a root cannot be watched. -/
inductive RootFault where
  | home (f : HomeFault)
  | link (f : LinkFault)
deriving DecidableEq, Repr

def RootFault.message : RootFault → Text
  | .home f => f.message
  | .link f => f.message

namespace Watcher

/-- A watcher whose observer does not run yet. -/
def idle : Watcher := ⟨false⟩

/-- The directory that is watched for a root: the real one. -/
def rootOf (links : Links) (cwd : Path) (homes : Homes) (root : Path) : Except RootFault Path := do
  let p ← (root.atHome homes).mapError .home
  (links (cwd.join p)).mapError .link

def watch (s : Scope) : List Request := [.schedule s.root]

/-- Starts the observer unless it runs. -/
def start (w : Watcher) : Watcher × List Request :=
  if w.running then (w, []) else (⟨true⟩, [.start])

/-- Stops the observer if it runs. -/
def stop (w : Watcher) : Watcher × List Request :=
  if w.running then (⟨false⟩, [.stop, .join 5]) else (w, [])

/-- Stops the observer and lets it forget all directories. -/
def close (w : Watcher) : Watcher × List Request :=
  let (w, requests) := w.stop
  (w, requests ++ [.unscheduleAll])

end Watcher
end HtmlDeps.Watch
