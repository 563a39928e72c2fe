import HtmlDeps.Build.Load

/-!
# Analyzing fragments

The report of a crawl is sorted into imports, scripts and styles (`Deps.ofReferences`) and entered
into the index.  The build ends when the last fragment leaves the worklist.

These are `BuildAnalyzer.analyze_fragment`, `_get_dependencies` and `_add_dependencies` (full specification,
section Dependency Analyzer).
-/

namespace HtmlDeps

/-- How far the references of a report are sorted: the dependencies, the URLs that have been
sorted, and what was noted. -/
structure Deps.Sorting where
  deps : Deps
  seen : List Text
  notes : List Text

/-- Sorts one reference.  External references do not count, and of several references to one URL
only the first. -/
def Deps.Sorting.add (s : Deps.Sorting) (r : Reference) : Except Url.Fault Deps.Sorting :=
  match Url.isExternal r.url with
  | .error f => .error f
  | .ok true => .ok { s with notes := s.notes ++ ["ignoring external dependency: " ++ r.url] }
  | .ok false =>
    if s.seen.contains r.url then .ok s
    else
      let s := { s with seen := s.seen ++ [r.url] }
      match r.kind with
      | .script => .ok { s with deps.scripts := s.deps.scripts ++ [r.url] }
      | .style => .ok { s with deps.styles := s.deps.styles ++ [r.url] }
      | .document => .ok { s with deps.imports := s.deps.imports ++ [r.url] }
      | .other l => .ok { s with notes := s.notes ++ ["unexpected import type encountered: " ++ l] }

/-- Sorts references as far as no fault stops it. -/
def Deps.Sorting.run (s : Deps.Sorting) : List Reference → Deps.Sorting × Option Url.Fault
  | [] => (s, none)
  | r :: rs =>
    match s.add r with
    | .ok s => run s rs
    | .error f => (s, some f)

/-- The dependencies that references amount to. -/
def Deps.ofReferences (rs : List Reference) : Deps.Sorting × Option Url.Fault :=
  Deps.Sorting.run ⟨Deps.empty, [], []⟩ rs

namespace Build

variable {C : Crawler}

def analyze (b : Build C) (p : Path) (client : Bool) : Build C :=
  let fresh : Analysis C := ⟨p, client, none, none⟩
  { b with analyses := b.analyses ++ [fresh] }.schedule 0 (.begin b.analyses.length)

/-- Ends an analysis.  Somebody outside is told the outcome; a fault in an analysis of the build's
own lets the build fail. -/
def settleAnalysis (s : Setup) (b : Build C) (a : Nat) (outcome : Except Fault Unit) : Build C :=
  let client := (b.analyses[a]?).elim false (·.client)
  let b := { b with
    analyses := b.analyses.modify a fun x => { x with outcome := some outcome } }
  match outcome with
  | .error f => if client then b else b.crash s (some a) f
  | .ok () => b

/-- Enters the dependencies of a fragment into the index. -/
def enter (b : Build C) (p : Path) (d : Deps) : Except Fault (Build C) :=
  if p ∉ b.worklist then
    .error (.fragment ⟨p.toText, "Dependency analysis incorrectly called"⟩)
  else
    match b.index.add p.toText d with
    | .error f => .error (.fragment f)
    | .ok i => .ok { b with index := i, worklist := b.worklist.filter (· ≠ p) }

def conclude (s : Setup) (b : Build C) (a : Nat) (p : Path) (url : Text) (r : Report) : Build C :=
  let ctx := s.analysisContext url
  let b := { b with warnings := Warnings.addAll b.warnings r.warnings }
  let (sorting, fault) := Deps.ofReferences r.references
  let b := sorting.notes.foldl (fun b n => b.note ctx .debug n) b
  match fault with
  | some f => b.settleAnalysis s a (.error (.document (.url f)))
  | none =>
    let b := b.noteWith ctx .debug ("dependencies analyzed for: " ++ url)
      [(Log.contextMark ++ ("deps" : Text), sorting.deps.value)]
    match b.enter p sorting.deps with
    | .error f => b.settleAnalysis s a (.error f)
    | .ok b =>
      let b := if b.worklist.isEmpty then b.complete s (some a) else b
      b.settleAnalysis s a (.ok ())

def begin (s : Setup) (b : Build C) (a : Nat) : Build C :=
  match b.analyses[a]? with
  | none => b
  | some x =>
    match s.project.url x.path with
    | .error e => b.settleAnalysis s a (.error (.outside e))
    | .ok url =>
      let (memory, thread) := C.start url
      { b with analyses := b.analyses.set a { x with crawl := some (url, memory) } }.goOn
        (.turn a thread)

/-- Lets a thread of an analysis take its turn. -/
def turn (s : Setup) (b : Build C) (a : Nat) (t : C.Thread) : Build C :=
  match b.analyses[a]? with
  | none => b
  | some x =>
    match x.crawl with
    | none => b
    | some (url, memory) =>
      let turn := C.turn memory t
      let b := { b with
        analyses := b.analyses.set a { x with crawl := some (url, turn.memory) } }
      let b := turn.notes.foldl (fun b n => b.note (s.analysisContext url) .debug n) b
      match turn.move with
      | .ask u next => b.load s u (.thread a next)
      | .leave ts => b.scheduleAll (ts.map (.turn a))
      | .finish (.ok r) => b.conclude s a x.path url r
      | .finish (.error f) => b.settleAnalysis s a (.error f)

end Build
end HtmlDeps
