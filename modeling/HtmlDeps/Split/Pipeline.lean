import HtmlDeps.Split.Stage

/-!
# Pipelines that are read file by file

A reader asks the second stage for one file at a time.  The stage takes pieces until it passes a file
on, or until it needs another file of the source; pieces that it has not taken yet stay pending.  Two
pipelines may share one ledger, and their reads may come in any order.

This is how `run_build` drains two streams through one `HtmlSplitter`.
-/

namespace HtmlDeps

namespace Stage

/-- How far the second stage has come: the ledger and the groups, the pieces still pending, the file
passed on, if any, and the fault that stopped it, if one did. -/
structure Drawn where
  ledger : Ledger
  groups : Groups
  pending : List File
  passed : Option File
  fault : Option SplitFault

/-- Takes pieces until a file is passed on. -/
def draw (sel : Selector) (l : Ledger) (gs : Groups) : List File → Drawn
  | [] => ⟨l, gs, [], none, none⟩
  | f :: fs =>
    match take sel l gs f with
    | .error e => ⟨l, gs, fs, none, some e⟩
    | .ok t =>
      match t.passed with
      | some g => ⟨t.ledger, t.groups, fs, some g, none⟩
      | none => draw sel t.ledger t.groups fs

/-- What becomes of a file by itself: a document is cut and joined again at once. -/
def alone (sel : Selector) (f : File) : Except SplitFault File :=
  if f.path.isHtml then
    match Ledger.empty.cut sel f with
    | .error e => .error e
    | .ok (l, pieces) =>
      match l.cuts.get? f.path.key with
      | none => .error (.noCut f.path.key)
      | some c => (l.join sel c (Table.ofEntries (pieces.map fun g => (g.path.key, g)))).map (·.2)
  else .ok f

end Stage

/-- A pipeline: the files of its source that are still to come, the pieces that are pending, and the
groups of its second stage. -/
structure Pipeline where
  source : List File
  pending : List File
  groups : Groups

/-- Reads from a pipeline; what is left of its source is given too. -/
def Pipeline.read (sel : Selector) (l : Ledger) (q : Pipeline) : List File × Stage.Drawn :=
  match q.pending, q.source with
  | [], [] => ([], ⟨l, q.groups, [], none, Stage.unfinished? q.groups⟩)
  | [], f :: rest =>
    match Stage.split sel l f with
    | .error e => (rest, ⟨l, q.groups, [], none, some e⟩)
    | .ok (l', pieces) => (rest, Stage.draw sel l' q.groups pieces)
  | f :: pending, source => (source, Stage.draw sel l q.groups (f :: pending))

/-- Two pipelines with one ledger, the files that each of them has passed on, and the first fault. -/
structure Pipelines where
  ledger : Ledger
  pipeline : Bool → Pipeline
  passed : Bool → List File
  fault : Option SplitFault

namespace Pipelines

def start (sources : Bool → List File) : Pipelines :=
  ⟨Ledger.empty, fun side => ⟨sources side, [], []⟩, fun _ => [], none⟩

/-- Reads from one of the pipelines. -/
def read (sel : Selector) (x : Pipelines) (side : Bool) : Pipelines :=
  let (source, d) := (x.pipeline side).read sel x.ledger
  { ledger := d.ledger
    pipeline := fun k => if k = side then ⟨source, d.pending, d.groups⟩ else x.pipeline k
    passed := fun k => if k = side then x.passed k ++ d.passed.toList else x.passed k
    fault := x.fault <|> d.fault }

/-- Reads from the pipelines in the order of a schedule. -/
def reads (sel : Selector) (x : Pipelines) (schedule : List Bool) : Pipelines :=
  schedule.foldl (read sel) x

end Pipelines
end HtmlDeps
