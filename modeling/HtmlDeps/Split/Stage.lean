import HtmlDeps.Split.Ledger

/-!
# Splitting and rejoining streams of files

Files pass through two stages.  The first cuts every HTML document; the second collects the pieces of
each cut document, in any order, and passes the document on once it has them all.  Other files pass
through both.  `pass` runs a single file through both stages, which is what a lazy pipeline does
before it asks for the next one.

These are `HtmlSplitter.split` and `rejoin` (full specification, section Script Split/Rejoin Transform).
-/

namespace HtmlDeps

/-- The pieces collected so far of each document, by the document's key. -/
abbrev Groups := Table Text (Table Text File)

namespace Stage

/-- The first stage, for one file. -/
def split (sel : Selector) (l : Ledger) (f : File) : Except SplitFault (Ledger × List File) :=
  if f.path.isHtml then l.cut sel f else .ok (l, [f])

/-- What the second stage does with one file: the ledger and the groups after it, and the file it
passes on, if any. -/
structure Taken where
  ledger : Ledger
  groups : Groups
  passed : Option File

/-- The second stage, for one file. -/
def take (sel : Selector) (l : Ledger) (gs : Groups) (f : File) : Except SplitFault Taken :=
  let key := f.path.key
  let owner := (l.owners.get? key).getD key
  match l.cuts.get? owner with
  | none => .ok ⟨l, gs, some f⟩
  | some c =>
    let group := ((gs.get? owner).getD []).put key f
    if group.length = c.parts.length + 1 && group.has owner then
      (l.join sel c group).map fun (l', joined) => ⟨l', gs.erase owner, some joined⟩
    else .ok ⟨l, gs.put owner group, none⟩

/-- Why the second stage cannot end here, if pieces are missing. -/
def unfinished? (gs : Groups) : Option SplitFault :=
  if gs.isEmpty then none else some (.incomplete (Text.sorted gs.keys))

/-- What became of a sequence of files: those passed on, the ledger and the groups after them, and
the fault that stopped the sequence, if one did. -/
structure Run where
  passed : List File
  ledger : Ledger
  groups : Groups
  fault : Option SplitFault

/-- Runs files through the second stage, without ending it. -/
def takeAll (sel : Selector) (l : Ledger) (gs : Groups) : List File → Run
  | [] => ⟨[], l, gs, none⟩
  | f :: fs =>
    match take sel l gs f with
    | .error e => ⟨[], l, gs, some e⟩
    | .ok t =>
      let r := takeAll sel t.ledger t.groups fs
      { r with passed := t.passed.toList ++ r.passed }

/-- Runs one file through both stages. -/
def pass (sel : Selector) (l : Ledger) (gs : Groups) (f : File) : Run :=
  match split sel l f with
  | .error e => ⟨[], l, gs, some e⟩
  | .ok (l', pieces) => takeAll sel l' gs pieces

/-- Runs files through both stages, each before the next, without ending the second. -/
def passAll (sel : Selector) (l : Ledger) (gs : Groups) : List File → Run
  | [] => ⟨[], l, gs, none⟩
  | f :: fs =>
    let first := pass sel l gs f
    match first.fault with
    | some _ => first
    | none =>
      let r := passAll sel first.ledger first.groups fs
      { r with passed := first.passed ++ r.passed }

def splitAll (sel : Selector) (l : Ledger) : List File → Run
  | [] => ⟨[], l, [], none⟩
  | f :: fs =>
    match split sel l f with
    | .error e => ⟨[], l, [], some e⟩
    | .ok (l', pieces) =>
      let r := splitAll sel l' fs
      { r with passed := pieces ++ r.passed }

def Run.finish (r : Run) : Run :=
  match r.fault with
  | some _ => r
  | none => { r with fault := unfinished? r.groups }

/-- Runs files through the second stage and ends it. -/
def rejoinAll (sel : Selector) (l : Ledger) (fs : List File) : Run := (takeAll sel l [] fs).finish

/-- Runs files through both stages and ends the second. -/
def roundTripAll (sel : Selector) (l : Ledger) (fs : List File) : Run := (passAll sel l [] fs).finish

end Stage
end HtmlDeps
