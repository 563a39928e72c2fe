import HtmlDeps.Build.Waitlist
import HtmlDeps.Config.Project
import HtmlDeps.Crawl.Crawler

/-!
# The state of a build

Files reach a build by two pumps: one takes the sources as they arrive, the other reads the
dependencies from a queue.  Every file is registered under its URL.  Fragments are analyzed by
crawls, and a crawl asks for files by URL; a request for a file that is not registered waits until it
is.  What is to be done next stands in a list of jobs.

A build depends on a `Setup`, which does not change.

These are the fields of `BuildAnalyzer` and of its `StreamLoader`.
-/

namespace HtmlDeps

/-- What a build is given. -/
structure Setup where
  project : Project
  read : Path → Except AccessFault Bytes  -- reads a dependency
  gated : Bool  -- whether a file that was read is delivered only when somebody says so
  timeout : Option Text  -- How long a request may wait, as it is written in messages; without it, for ever.
  extras : Except Glob.TooMany (List Path)  -- the extra dependencies that were found
  context : Log.Fields                      -- the context of log entries

/-- Whether a build goes on or how it ended. -/
inductive Status where
  | running
  | succeeded
  | failed
deriving DecidableEq, Repr

def Status.label : Status → Text
  | .running => "running"
  | .succeeded => "succeeded"
  | .failed => "failed"

/-- What arrives from the sources. -/
inductive Arrival where
  | file (f : File)
  | fault (f : Fault)
  | finish
deriving DecidableEq, Repr

/-- What a pump is doing. -/
inductive Pump where
  | working  -- it has something to do, or is not started yet
  | idle     -- it waits for the next item
  | reading  -- it waits for a file to be delivered
  | closing  -- it waits for the end of the build
  | gone
deriving DecidableEq, Repr

/-- What became of a read. -/
inductive Delivery where
  | pending
  | delivered
  | cancelled
deriving DecidableEq, Repr

/-- A dependency that was read. -/
structure Read where
  url : Text
  path : Path
  delivery : Delivery
deriving DecidableEq, Repr

/-- Who asks for a text: a thread of an analysis, which goes on with the answer, or somebody
outside, by the number of the request. -/
inductive Caller (C : Crawler) where
  | thread (analysis : Nat) (next : Except Fault Text → C.Thread)
  | client (number : Nat)

/-- A request that waits: the ticket, the path asked for, and who asks. -/
structure Waiter (C : Crawler) where
  ticket : Nat
  path : Path
  caller : Caller C

/-- Something to be done. -/
inductive Job (C : Crawler) where
  | pumpSources
  | closeSources
  | pumpDependencies
  | deliver (path : Path)  -- a dependency that was read takes its way
  | begin (analysis : Nat)
  | turn (analysis : Nat) (thread : C.Thread)
  | load (number : Nat) (url : Text)                    -- somebody outside asks for a URL
  | loaded (number : Nat) (answer : Except Fault Text)  -- somebody outside gets an answer
  | expire (waiter : Waiter C)                          -- a request has waited too long

/-- The analysis of a fragment. -/
structure Analysis (C : Crawler) where
  path : Path
  client : Bool  -- whether somebody outside asked for it
  crawl : Option (Text × C.Memory)  -- The URL of the fragment and the memory of the crawl, once it has begun.
  outcome : Option (Except Fault Unit)

/-- The state of a build. -/
structure Build (C : Crawler) where
  status : Status
  started : Bool
  files : Table Text File  -- the files registered so far, by URL
  warnings : List Warning
  worklist : List Path  -- the fragments still to be analyzed
  claimed : List Path   -- the fragments whose analysis the build has started
  index : Index
  sources : Outlet Failure
  dependencies : Outlet Failure
  queue : List (Option Path)             -- the dependencies to be read; `none` marks the end
  pushed : List Text                     -- the URLs that were put on the queue
  exhausted : Bool                       -- whether no more sources will arrive
  outcome : Option (Except Failure Index)  -- what those who wait for the index get
  waitlist : Waitlist Path
  waiting : List (Waiter C)
  analyses : List (Analysis C)
  loads : List (Option (Except Fault Text))  -- the requests from outside and their answers
  incoming : List Arrival  -- what has arrived from the sources and was not taken yet
  sourcePump : Pump
  dependencyPump : Pump
  reads : List Read  -- the dependencies that were read, in order
  ready : List (Nat × Job C)  -- What is to be done, each job with the number of rounds that it still lets pass.
  log : List Log.Entry

namespace Build

variable {C : Crawler}

def initial (C : Crawler) (p : Project) : Build C where
  status := .running
  started := false
  files := []
  warnings := []
  worklist := p.allFragments
  claimed := []
  index := Index.empty
  sources := Outlet.start "sources"
  dependencies := Outlet.start "dependencies"
  queue := []
  pushed := []
  exhausted := false
  outcome := none
  waitlist := Waitlist.empty
  waiting := []
  analyses := []
  loads := []
  incoming := []
  sourcePump := .working
  dependencyPump := .working
  reads := []
  ready := []
  log := []

/-- Writes an entry with fields of its own to the log. -/
def noteWith (b : Build C) (ctx : Log.Fields) (level : Log.Level) (message : Text)
    (own : Log.Fields) : Build C :=
  { b with log := b.log ++ [⟨level, message, Log.attach own ctx⟩] }

def note (b : Build C) (ctx : Log.Fields) (level : Log.Level) (message : Text) : Build C :=
  b.noteWith ctx level message []

def noteAll (b : Build C) (ctx : Log.Fields) (es : List Log.Entry) : Build C :=
  es.foldl (fun b e => b.noteWith ctx e.level e.message e.fields) b

/-- Puts a job at the end of the list, to be done after so many rounds. -/
def schedule (b : Build C) (rounds : Nat) (j : Job C) : Build C :=
  { b with ready := b.ready ++ [(rounds, j)] }

def scheduleAll (b : Build C) (js : List (Job C)) : Build C :=
  { b with ready := b.ready ++ js.map (0, ·) }

/-- Lets a job be done next. -/
def goOn (b : Build C) (j : Job C) : Build C := { b with ready := (0, j) :: b.ready }

end Build

/-- The job by which a caller goes on with an answer. -/
def Caller.resume {C : Crawler} (answer : Except Fault Text) : Caller C → Job C
  | .thread a next => .turn a (next answer)
  | .client n => .loaded n answer

/-- The context of an analysis of the fragment with a URL. -/
def Setup.analysisContext (s : Setup) (url : Text) : Log.Fields :=
  Log.enter s.context [("fragment", .text url)]

/-- The context in which a caller asks. -/
def Build.contextOf {C : Crawler} (s : Setup) (b : Build C) : Caller C → Log.Fields
  | .client _ => s.context
  | .thread a _ =>
    match (b.analyses[a]?).bind (·.crawl) with
    | some (url, _) => s.analysisContext url
    | none => s.context

end HtmlDeps
