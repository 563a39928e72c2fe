import HtmlDeps.Build.Analyze

/-!
# The pumps

The source pump takes files as they arrive; the dependency pump reads those on the queue.  Both
register a file, start its analysis if it is a fragment that has not been started, and send it on.

These are `BuildAnalyzer._pump_sources`, `_on_sources_exhausted`, `_pump_dependencies` and `_maybe_analyze`
(full specification, section Dependency Analyzer).
-/

namespace HtmlDeps.Build

variable {C : Crawler}

/-- Starts the analysis of a file that is a fragment still to be started. -/
def claim (b : Build C) (f : File) : Build C :=
  let p := f.path.normal
  if p ∈ b.worklist ∧ p ∉ b.claimed then
    { b with claimed := b.claimed ++ [p] }.analyze p false
  else b

def takeSource (s : Setup) (b : Build C) (f : File) : Build C × Option Fault :=
  match b.register s f with
  | (b, some e) => (b, some e)
  | (b, none) =>
    let b := b.claim f
    match b.sources.send f with
    | .error e => (b, some (.closed e))
    | .ok o => ({ b with sources := o }, none)

def takeDependency (s : Setup) (b : Build C) (f : File) : Build C × Option Fault :=
  match b.register s f with
  | (b, some e) => (b, some e)
  | (b, none) =>
    let b := b.claim f
    match b.dependencies.send f with
    | .error e => (b, some (.closed e))
    | .ok o => ({ b with dependencies := o }, none)

/-- The fragments that have not been started, in order. -/
def missing (b : Build C) : List Text :=
  Text.sorted ((b.worklist.filter (· ∉ b.claimed)).map Path.toText)

/-- Releases what is waited for although it is a source. -/
def releaseSources (s : Setup) (b : Build C) : List Path → Build C × Option Fault
  | [] => (b, none)
  | p :: ps =>
    match s.project.isSource p with
    | .error f => (b, some (.ofMatch f))
    | .ok true => releaseSources s (b.releaseUnreachable s s.context p) ps
    | .ok false => releaseSources s b ps

/-- Closes the stream of sources once the build has succeeded. -/
def closeSources (b : Build C) : Build C :=
  let b := { b with sourcePump := .gone }
  if b.status = .succeeded then { b with sources := b.sources.close .complete } else b

/-- No more sources will arrive: a fragment that is not there by now never will be. -/
def exhaust (s : Setup) (b : Build C) : Build C :=
  let b := { b with exhausted := true }
  match b.missing with
  | m :: ms =>
    let b := (m :: ms).foldl (fun b f =>
      b.note s.context .error ("fragment " ++ f ++ " was not found among the sources")) b
    { b with sourcePump := .gone }.fail s none
      (.fault (.fragment ⟨m, "Fragment never arrived in the source stream"⟩))
  | [] =>
    match b.releaseSources s b.waitlist.keys with
    | (b, some f) => { b with sourcePump := .gone }.crash s none f
    | (b, none) =>
      if b.status = .running then { b with sourcePump := .closing } else b.closeSources

/-- The source pump takes what has arrived. -/
def pumpSources (s : Setup) (b : Build C) : Build C :=
  match b.incoming with
  | [] => { b with sourcePump := .idle }
  | item :: rest =>
    let b := { b with incoming := rest }
    match item with
    | .finish => b.exhaust s
    | .fault f => { b with sourcePump := .gone }.crash s none f
    | .file f =>
      if b.status = .failed then { b with sourcePump := .gone }
      else
        match b.takeSource s f with
        | (b, some e) => { b with sourcePump := .gone }.crash s none e
        | (b, none) => b.goOn .pumpSources

/-- A dependency has been read.  A path that is none for the system is a fault like any other. -/
def deliver (s : Setup) (b : Build C) (p : Path) : Build C :=
  match s.read p with
  | .error f =>
    if f.cause = .embeddedNul then { b with dependencyPump := .gone }.crash s none (.access f)
    else
      let b := b.note s.context .error
        ("Failed to load dependency " ++ p.toText ++ ": " ++ f.message)
      { b with dependencyPump := .gone }.fail s none (.dependency p f)
  | .ok contents =>
    match b.takeDependency s ⟨p, contents⟩ with
    | (b, some e) => { b with dependencyPump := .gone }.crash s none e
    | (b, none) => { b with dependencyPump := .working }.goOn .pumpDependencies

/-- The dependency pump takes what is on the queue. -/
def pumpDependencies (s : Setup) (b : Build C) : Build C :=
  match b.queue with
  | [] => { b with dependencyPump := .idle }
  | none :: rest =>
    let b := { b with queue := rest, dependencyPump := .gone }
    if b.status = .succeeded then { b with dependencies := b.dependencies.close .complete } else b
  | some p :: rest =>
    let url := (s.project.url p).toOption.getD p.toText
    let delivery : Delivery := if s.gated then .pending else .delivered
    let b := { b with
      queue := rest
      reads := b.reads ++ [⟨url, p, delivery⟩]
      dependencyPump := .reading }
    if s.gated then b else b.deliver s p

end HtmlDeps.Build
