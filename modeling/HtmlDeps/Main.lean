import HtmlDeps.Command.Watch
import Std.Time.DateTime.Timestamp

/-!
# The command line program

The program reads the configuration file and the files below the root of the project, runs what is
asked for, and writes the files that are new or changed.  Reports go to the standard output, messages
and the log to the standard error.
-/

open HtmlDeps HtmlDeps.Command

namespace HtmlDeps.Program

/-- How deep directories are read. -/
def maxDepth : Nat := 64

/-- The steps after which a build counts as one that never ends. -/
def limit : Nat := 10000000

/-- The string of a text; stray bytes show as the replacement character. -/
def shown (t : Text) : String :=
  String.ofList (t.map fun | .char c => c | .stray _ => '\uFFFD')

/-- The disk with what stands at a path, where directories are read to a depth. -/
def load : Nat → Disk → List Text → IO Disk
  | depth, d, parts => do
    let name := "/" ++ "/".intercalate (parts.map shown)
    try
      let here ← IO.FS.realPath name
      if ← here.isDir then
        let d := { d with dirs := d.dirs ++ [parts] }
        match depth with
        | 0 => return d
        | depth + 1 =>
          let entries ← here.readDir
          entries.foldlM (fun d e => load depth d (parts ++ [Text.ofString e.fileName])) d
      else
        let contents ← IO.FS.readBinFile name
        return { d with files := d.files ++ [(parts, contents.toList)] }
    catch _ => return d

/-- Writes the files of a disk that are not the same on another. -/
def store (before after : Disk) : IO Unit :=
  after.files.forM fun (parts, contents) => do
    if before.files.get? parts ≠ some contents then
      let name (parts : List Text) := "/" ++ "/".intercalate (parts.map shown)
      IO.FS.createDirAll (name parts.dropLast)
      IO.FS.writeBinFile (name parts) ⟨contents.toArray⟩

def environment : IO Environment := do
  let cwd := Path.ofText (Text.ofString (← IO.currentDir).toString)
  let names := ["HOME", shown Environment.configVariable] ++
    Settings.fieldNames.map fun f => shown (Environment.variableStart ++ Text.upper f)
  let values ← names.filterMapM fun n => do
    return (← IO.getEnv n).map fun v => (Text.ofString n, Text.ofString v)
  return .usual cwd values "/" []

/-- The disk as far as a request needs it: the configuration file and the project. -/
def disk (e : Environment) (r : Request) : IO Disk := do
  let place (p : Path) := (e.cwd.join p).normal.parts
  let d ← load 0 .empty (place (e.cwd.extend [Environment.configName]))
  let d ← match e.configPath d r.config with
    | .ok (some p) => if d.has (e.cwd.join p) then pure d else load 0 d (place p)
    | _ => pure d
  match e.project d r.config with
  | .ok p =>
    let project ← load maxDepth .empty p.root.parts
    let others := d.files.filter fun (f, _) => !project.files.has f
    return ⟨others ++ project.files, d.dirs ++ project.dirs⟩
  | .error _ => return d

def writeLog (json : Bool) (least : Int) (entries : List Log.Entry) : IO Unit := do
  let now := (← Std.Time.Timestamp.now).toMillisecondsSinceUnixEpoch.toInt
  for e in entries do
    if least ≤ e.level.number then
      let record : Log.Record :=
        ⟨now / 1000, (now % 1000).toNat, e.level.label, "fgraph", e.message, .list [], none, none, e.fields⟩
      match if json then record.asJson else record.asText with
      | .ok line => IO.eprintln (shown line)
      | .error _ => pure ()

def conclude (ending : Command.Ending) (milliseconds : Nat) : IO UInt32 := do
  match ending with
  | .help => IO.println "Usage: fgraph build|deps|watch [OPTIONS]"
  | .reported r =>
    match Json.printIndented (r.value milliseconds) with
    | .ok t => IO.println (shown t)
    | .error _ => pure ()
  | .stopped => IO.println (shown stopped)
  | .escaped x => IO.eprintln (shown x.message)
  | ending => ending.message?.elim (pure ()) fun m => IO.eprintln (shown m)
  return UInt32.ofNat ending.exitCode

/-- Watches a project until the program is stopped. -/
def watch (e : Environment) (r : Request) : IO UInt32 := do
  let mut before ← disk e r
  match Watching.start ⟨e, before, limit⟩ r with
  | .error ending => conclude ending 0
  | .ok (w, _) =>
    let mut outcome : Option Command.Ending := none
    let mut changed := true
    while outcome.isNone do
      if changed then
        let (after, entries, failure) := w.build before
        writeLog w.prepared.settings.logJson w.prepared.level entries
        store before after
        if let some f := failure then
          if Watching.endsBy f then outcome := some f
          else discard (conclude f 0)
        before ← disk e r
      IO.sleep 500
      let after ← disk e r
      changed := ((w.minds (Watching.changes e.links before after)).toOption).getD true
      before := after
    conclude (outcome.getD .stopped) 0

def runLine (arguments : List String) : IO UInt32 := do
  match Request.read false (arguments.map Text.ofString) with
  | .error f => conclude (.usage f) 0
  | .ok none => conclude .help 0
  | .ok (some r) =>
    let e ← environment
    if r.action = .watch then watch e r
    else
      let started ← IO.monoMsNow
      let before ← disk e r
      let result := run ⟨e, before, limit⟩ r
      store before result.disk
      let json := ((e.settings before r.config).toOption.elim true (·.logJson))
      writeLog json (result.level.getD 0) result.log
      conclude result.ending ((← IO.monoMsNow) - started)

end HtmlDeps.Program

def main (arguments : List String) : IO UInt32 := HtmlDeps.Program.runLine arguments
