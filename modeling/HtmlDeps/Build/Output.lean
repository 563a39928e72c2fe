import HtmlDeps.Build.Schedule
import HtmlDeps.Crawl.Imports
import HtmlDeps.Disk
import HtmlDeps.Split.Stage

/-!
# The output of a build

The files of both streams are written below an output directory, each at the place that its URL
names.  On the way, scripts may be cut out of the documents and put back.  `Disk.build` runs a whole
build of a project on disk.

These are `run_build` with its `drain`, `_write_file` and `BuildSummary` (full specification, section Project
facade).  The time that a build takes is left out.
-/

namespace HtmlDeps

/-- A fault on the way to the output. -/
inductive OutputFault where
  | build (f : Failure)
  | split (f : SplitFault)
deriving DecidableEq, Repr

def OutputFault.message : OutputFault → Text
  | .build f => f.message
  | .split f => f.message

/-- What came out of a stream, the fault at its end, and the scripts that are still cut out. -/
structure Drained where
  files : List File
  fault : Option OutputFault
  ledger : Ledger

/-- How the reader of a stream meets its ending. -/
def Ending.fault? : Ending Failure → Option OutputFault
  | .complete => none
  | .failed f => some (.build f)

/-- Takes all files of a stream, through both stages of splitting if there is a selector. -/
def Outlet.drained (o : Outlet Failure) (selector : Option Selector) (l : Ledger) : Drained :=
  let ending := o.ending.bind Ending.fault?
  match selector with
  | none => ⟨o.sent, ending, l⟩
  | some sel =>
    let run := Stage.passAll sel l [] o.sent
    let fault := run.fault.map .split <|> ending <|>
      (if o.closed then (Stage.unfinished? run.groups).map .split else none)
    ⟨run.passed, fault, run.ledger⟩

/-- Where the file with a URL is written. -/
def Path.inOutput (out : Path) (url : Text) : Path :=
  out.extend ((Text.split (.char '/') url).filter (· ≠ []))

/-- Writes files below a directory, if there is one, as far as no fault stops it: the disk after it
and the URLs of the files. -/
def Disk.writeAll (d : Disk) (p : Project) (out : Option Path) :
    List File → Disk × List Text × Option OutputFault
  | [] => (d, [], none)
  | f :: fs =>
    match p.url f.path with
    | .error e => (d, [], some (.build (.fault (.outside e))))
    | .ok url =>
      match out.elim (d, none) fun dir => d.write p.cwd (dir.inOutput url) f.contents with
      | (d, some e) => (d, [url], some (.build (.fault (.access e))))
      | (d, none) =>
        let (d, urls, fault) := writeAll d p out fs
        (d, url :: urls, fault)

/-- What a build has put out. -/
structure Summary where
  sources : List Text
  dependencies : List Text
  index : Index
deriving DecidableEq, Repr

/-- What became of a build on disk; there is no result if it never ends. -/
structure BuildRun where
  result : Option (Except OutputFault Summary)
  disk : Disk
  log : List Log.Entry

/-- How a whole build is done. -/
structure BuildPlan where
  project : Project
  timeout : Option Float
  selector : Option Selector  -- where scripts are cut out and put back, if they are
  out : Option Path
  limit : Nat  -- the steps after which the build counts as one that never ends

def Disk.setup (d : Disk) (plan : BuildPlan) : Setup where
  project := plan.project
  read := d.read plan.project.cwd
  gated := false
  timeout := plan.timeout.map (Decimal.render Decimal.inMessages)
  extras := d.matching plan.project.matcher plan.project.root plan.project.extras
  context := Log.enter [] [("project", .text plan.project.root.toText)]

def Disk.arrival (d : Disk) (p : Project) (path : Path) : Arrival :=
  match d.read p.cwd path with
  | .ok contents => .file ⟨path, contents⟩
  | .error e => .fault (.access e)

def Disk.supply {C : Crawler} (d : Disk) (s : Setup) (patterns : List Text) (b : Build C) : Build C :=
  let root := s.project.root
  match d.matching s.project.matcher root patterns with
  | .error e => b.arrive (.fault (.patterns e))
  | .ok paths =>
    let b := b.note s.context .debug
      ("Matched " ++ Text.ofNat paths.length ++ " files under " ++ root.toText)
    (paths.foldl (fun b path => b.arrive (d.arrival s.project path)) b).arrive .finish

/-- What has arrived once all source files of a project have: the files, and then the end of the
stream, or a fault before it. -/
def Disk.arrivals (d : Disk) (p : Project) : List Arrival :=
  match p.sourcePatterns with
  | .error e => [.fault (.outside e)]
  | .ok patterns =>
    match d.matching p.matcher p.root patterns with
    | .error e => [.fault (.patterns e)]
    | .ok paths => paths.map (d.arrival p) ++ [.finish]

/-- Writes what a build has sent, and sums it up once both streams are closed and the index is
there. -/
def Disk.conclude {C : Crawler} (d : Disk) (plan : BuildPlan) (b : Build C) : BuildRun :=
  let p := plan.project
  let sources := b.sources.drained plan.selector Ledger.empty
  let (d, sourceUrls, sourceFault) := d.writeAll p plan.out sources.files
  let dependencies := b.dependencies.drained plan.selector sources.ledger
  let (d, dependencyUrls, dependencyFault) := d.writeAll p plan.out dependencies.files
  let fault := sourceFault <|> sources.fault <|> dependencyFault <|> dependencies.fault
  let result := match fault, b.outcome with
    | some f, _ => some (.error f)
    | none, some (.error f) => some (.error (.build f))
    | none, some (.ok i) =>
      if b.sources.closed && b.dependencies.closed then some (.ok ⟨sourceUrls, dependencyUrls, i⟩)
      else none
    | none, none => none
  ⟨result, d, b.log⟩

def Disk.build (d : Disk) (plan : BuildPlan) : BuildRun :=
  let p := plan.project
  let setup := d.setup plan
  let crawler := Crawler.imports fun _ => true
  match (Build.initial crawler p).start setup, p.sourcePatterns with
  | (b, some f), _ => ⟨some (.error (.build (.fault f))), d, b.log⟩
  | (b, none), .error e => ⟨some (.error (.build (.fault (.outside e)))), d, b.log⟩
  | (b, none), .ok patterns =>
    d.conclude plan ((d.supply setup patterns b).settle setup plan.limit)

end HtmlDeps
