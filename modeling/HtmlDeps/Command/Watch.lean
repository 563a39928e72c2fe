import HtmlDeps.Command.Run

/-!
# Building again after changes

Someone who watches a project builds it once and then again whenever something changes that counts.
A build that fails does not end this; a fault that escapes does.

This is the command `watch` (full specification, section CLI).  The thread of the observer and the waiting are
left out: what the observer reports of a build follows from the disk before and after it.
-/

namespace HtmlDeps.Command

/-- A project that is watched. -/
structure Watching where
  prepared : Prepared
  out : Path
  scope : Watch.Scope
  limit : Nat  -- the steps after which a build counts as one that never ends

namespace Watching

/-- Starts to watch: what is watched, and what the observer is asked for. -/
def start (s : Setting) (r : Request) : Except Ending (Watching × List Watch.Request) := do
  let p ← prepare s r
  let e := s.environment
  let out := e.cwd.join (p.out r)
  let scope := Watch.Scope.ofProject e.libraries.matcher p.project.root out
  let root ← (Watch.Watcher.rootOf e.links e.cwd e.homes scope.root).mapError fun f => .escaped (.root f)
  let scope := { scope with root }
  let requests := Watch.Watcher.watch scope ++ Watch.Watcher.idle.start.2
  return (⟨p, out, scope, s.limit⟩, requests)

/-- Builds: the disk after it, what is logged, and how the build failed, if it did. -/
def build (w : Watching) (d : Disk) : Disk × List Log.Entry × Option Ending :=
  let (result, d, log) := w.prepared.buildOnce d w.limit w.prepared.settings.splitScripts (some w.out)
  match result with
  | .ok _ => (d, log, none)
  | .error e => (d, log, some e)

/-- Whether a failed build ends the watching. -/
def endsBy : Ending → Bool
  | .escaped _ => true
  | _ => false

/-- What happened to the files of a disk, by the disk before and after, at their real paths. -/
def changes (links : Links) (before after : Disk) : List Watch.Event :=
  let event (change : Watch.Change) (parts : List Text) : Option Watch.Event :=
    (links ⟨.root, parts⟩).toOption.map fun p => ⟨change, p, false⟩
  let come := after.files.filterMap fun (parts, contents) =>
    match before.files.get? parts with
    | none => event .created parts
    | some old => if old = contents then none else event .modified parts
  let gone := before.files.filterMap fun (parts, _) =>
    if after.files.has parts then none else event .deleted parts
  come ++ gone

/-- Whether one of some events asks for another build. -/
def minds (w : Watching) (es : List Watch.Event) : Except Glob.TooMany Bool :=
  (es.mapM w.scope.minds).map (·.any id)

/-- What the observer is asked for at the end. -/
def stop : List Watch.Request := (Watch.Watcher.mk true).close.2

end Watching

/-- What is printed when watching is stopped. -/
def stopped : Text := "Stopped watching"

end HtmlDeps.Command
