import HtmlDeps.Build.State

/-!
# How a build ends

A build succeeds when its worklist is empty, no document has errors and nobody waits for a file; it
fails otherwise, or at the first fault.  Both streams and those who wait for the index learn of it
at once.  A failed build drops all work of its own but the crawls that nobody waits for any more.

These are `BuildAnalyzer._done`, `_fail`, `_guard`, `aclose` and `print_warnings` (full specification, section
Dependency Analyzer).
-/

namespace HtmlDeps.Build

variable {C : Crawler}

/-- Whether a thread belongs to an analysis that the build started, other than `current`, and does
not outlive it. -/
def drops (b : Build C) (current : Option Nat) (analysis : Nat) (thread : C.Thread) : Bool :=
  match b.analyses[analysis]? with
  | none => true
  | some a =>
    !a.client && current != some analysis &&
      a.crawl.elim true fun (_, memory) => !C.outlives memory thread

def dropsCaller (b : Build C) (current : Option Nat) : Caller C → Bool
  | .client _ => false
  | .thread a next => b.drops current a (next (.ok []))

def dropsJob (b : Build C) (current : Option Nat) : Job C → Bool
  | .pumpSources | .closeSources | .pumpDependencies | .deliver _ => true
  | .begin a => (b.analyses[a]?).elim true fun x => !x.client && current != some a
  | .turn a t => b.drops current a t
  | .load _ _ | .loaded _ _ => false
  | .expire w => b.dropsCaller current w.caller

/-- Drops the work that the build started itself, except the analysis `current`. -/
def cancel (b : Build C) (current : Option Nat) : Build C :=
  { b with
    ready := b.ready.filter fun (_, j) => !b.dropsJob current j
    waiting := b.waiting.filter fun w => !b.dropsCaller current w.caller
    sourcePump := .gone
    dependencyPump := .gone
    reads := b.reads.map fun r =>
      if r.delivery = .pending then { r with delivery := .cancelled } else r }

/-- Lets the build fail, if it has not failed yet. -/
def fail (s : Setup) (b : Build C) (current : Option Nat) (f : Failure) : Build C :=
  if b.status = .failed then b
  else
    let b := b.note s.context .error ("Build failed: " ++ f.message)
    let b := { b with
      status := .failed
      sources := b.sources.close (.failed f)
      dependencies := b.dependencies.close (.failed f)
      outcome := some (b.outcome.getD (.error f)) }
    b.cancel current

/-- Lets the build fail with a fault that a piece of its work met. -/
def crash (s : Setup) (b : Build C) (current : Option Nat) (f : Fault) : Build C :=
  (b.note s.context .error ("Build task failed: " ++ f.message)).fail s current (.fault f)

/-- Puts something on the queue of dependencies, and wakes the pump that waits for it. -/
def enqueue (b : Build C) (item : Option Path) : Build C :=
  let b := { b with queue := b.queue ++ [item] }
  if b.dependencyPump = .idle then
    { b with dependencyPump := .working }.schedule 0 .pumpDependencies
  else b

/-- The URLs of the files that are waited for. -/
def awaited (s : Setup) (b : Build C) : List Text :=
  b.waitlist.keys.map fun p => (s.project.url p).toOption.getD p.toText

def succeed (s : Setup) (b : Build C) : Build C :=
  let b := b.note s.context .info ("Analyzed " ++ Text.ofNat b.index.deps.length ++
    " fragments, " ++ Text.ofNat b.files.length ++ " files registered")
  let b := { b with status := .succeeded, outcome := some (.ok b.index) }.enqueue none
  if b.sourcePump = .closing then
    { b with sourcePump := .working }.schedule 0 .closeSources
  else b

/-- Ends a build whose worklist is empty. -/
def complete (s : Setup) (b : Build C) (current : Option Nat) : Build C :=
  if b.status ≠ .running then b
  else
    let b := b.noteAll s.context (Warnings.printed b.warnings)
    let errors := Warnings.count b.warnings .error
    if errors > 0 then b.fail s current (.erroneous errors)
    else if b.waitlist.keys.isEmpty then b.succeed s
    else
      let urls := b.awaited s
      let b := urls.foldl (fun b u => b.note s.context .error (u ++ " never loaded")) b
      b.fail s current (.unresolved urls)

end HtmlDeps.Build
