import HtmlDeps.Build.Output
import HtmlDeps.Command.Request
import HtmlDeps.Config.Load
import HtmlDeps.Json.Printer
import HtmlDeps.Log.Format
import HtmlDeps.Watch.Watcher

/-!
# Running the program

A run loads the project and the settings, builds, and ends with a report or with a fault.  For faults
of the configuration and of the project it has messages; other faults escape.

These are `_load`, `_build_once` and `_echo_json`, and the commands `build` and `deps` (full specification,
section CLI).
-/

namespace HtmlDeps

/-- Whether the configuration itself is at fault. -/
def LoadFault.isInvalid : LoadFault → Bool
  | .missing _ | .access _ | .undecodable _ | .notMap _ | .fields _ _ => true
  | .document (.notInteger _ _) | .document (.notNumber _) | .document (.calendar _) => true
  | .document .noCharacter | .document (.tooLong _) | .home .embeddedNul => true
  | .document (.foreign ofValue _) => ofValue
  | .document _ | .rootKind _ | .home .unknown | .tooDeep => false

/-- Whether the project is at fault for a failed build. -/
def OutputFault.isFailure : OutputFault → Bool
  | .build (.fault (.fragment _)) | .build (.dependency _ _) => true
  | .build (.erroneous _) | .build (.unresolved _) => true
  | .split (.regionCount _ _ _) | .split (.incomplete _) => true
  | .build _ | .split _ => false

namespace Command

/-- A fault for which the program has no message. -/
inductive Escape where
  | load (f : LoadFault)
  | level (f : Log.LevelFault)
  | output (f : OutputFault)
  | root (f : Watch.RootFault)
  | json (f : Json.Fault)
  | endless  -- a build that never ends
deriving Repr

def Escape.message : Escape → Text
  | .load f => f.message
  | .level f => f.message
  | .output f => f.message
  | .root f => f.message
  | .json f => f.message
  | .endless => "The build never ends"

/-- What a run prints if all goes well. -/
inductive Report where
  | output (out : Path) (s : Summary)
  | index (i : Index)
deriving DecidableEq, Repr

/-- A report as a value, with the time that the build took. -/
def Report.value (milliseconds : Nat) : Report → Value
  | .output out s => .record [
      ("out_dir", .text out.toText), ("sources", .int s.sources.length),
      ("dependencies", .list (s.dependencies.map .text)), ("duration_ms", .int milliseconds)]
  | .index i => i.value

/-- How a run ends. -/
inductive Ending where
  | help
  | usage (f : UsageFault)
  | invalid (f : LoadFault)
  | failed (f : OutputFault)
  | escaped (x : Escape)
  | reported (r : Report)
  | stopped  -- watching was stopped
deriving Repr

namespace Ending

def exitCode : Ending → Nat
  | .help | .reported _ | .stopped => 0
  | .failed _ | .escaped _ => 1
  | .usage _ | .invalid _ => 2

/-- The message at the end of a run. -/
def message? : Ending → Option Text
  | .usage f => some ("Error: " ++ f.message)
  | .invalid f => some ("Invalid configuration: " ++ f.message)
  | .failed f => some ("Build failed: " ++ f.message)
  | .help | .escaped _ | .reported _ | .stopped => none

/-- The ending for a configuration that cannot be loaded. -/
def ofLoad (f : LoadFault) : Ending := if f.isInvalid then .invalid f else .escaped (.load f)

/-- The ending for a build that ends with a fault. -/
def ofOutput (f : OutputFault) : Ending := if f.isFailure then .failed f else .escaped (.output f)

end Ending

/-- What a run starts from. -/
structure Setting where
  environment : Environment
  disk : Disk
  limit : Nat  -- the steps after which a build counts as one that never ends

/-- What is loaded for a run. -/
structure Prepared where
  project : Project
  settings : Settings
  level : Int  -- the number of the least level that is logged

/-- The level that a run logs from: that of the command line, if it is not empty, or that of the
settings. -/
def levelOf (r : Request) (s : Settings) : Text :=
  match r.logLevel with
  | some (g :: rest) => g :: rest
  | _ => s.logLevel

def prepare (s : Setting) (r : Request) : Except Ending Prepared := do
  let project ← (s.environment.project s.disk r.config).mapError .ofLoad
  let settings ← (s.environment.settings s.disk r.config).mapError .ofLoad
  let settings := { settings with logLevel := levelOf r settings }
  let level ← (Log.levelNumber (.text settings.logLevel)).mapError fun f => .escaped (.level f)
  return ⟨project, settings, level⟩

def Prepared.out (p : Prepared) (r : Request) : Path :=
  r.out.getD (p.project.root.join p.settings.outDir)

/-- Builds once: what comes of it, the disk after it, and what is logged. -/
def Prepared.buildOnce (p : Prepared) (d : Disk) (limit : Nat) (split : Bool) (out : Option Path) :
    Except Ending Summary × Disk × List Log.Entry :=
  let selector := if split then some Selector.usual else none
  let b := d.build ⟨p.project, p.settings.loadTimeout, selector, out, limit⟩
  let result : Except Ending Summary := match b.result with
    | some (.ok s) => .ok s
    | some (.error f) => .error (.ofOutput f)
    | none => .error (.escaped .endless)
  (result, b.disk, b.log)

/-- A run that has ended. -/
structure Run where
  ending : Ending
  level : Option Int  -- the least level that was logged, if the run came so far
  disk : Disk
  log : List Log.Entry

/-- The ending of a run with a report, which must have a printed form. -/
def Report.ending (r : Report) : Ending :=
  match Json.printIndented (r.value 0) with
  | .ok _ => .reported r
  | .error f => .escaped (.json f)

/-- Runs a request that ends by itself. -/
def run (s : Setting) (r : Request) : Run :=
  match prepare s r with
  | .error e => ⟨e, none, s.disk, []⟩
  | .ok p =>
    let out := if r.action = .build then some (p.out r) else none
    let split := r.action = .build && r.split.getD p.settings.splitScripts
    let (result, d, log) := p.buildOnce s.disk s.limit split out
    let ending := match result with
      | .error e => e
      | .ok summary =>
        match out with
        | some dir => Report.ending (.output dir summary)
        | none => Report.ending (.index summary.index)
    ⟨ending, some p.level, d, log⟩

end Command
end HtmlDeps
