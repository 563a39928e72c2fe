import HtmlDeps.File
import HtmlDeps.Split.Region
import HtmlDeps.Table

/-!
# Cutting scripts out of documents and joining them again

`Ledger.cut` takes the bodies of the inline scripts out of a document.  What is left, the carrier,
keeps the document's path; each body becomes a file of its own beside it.  The ledger remembers every
cut until `Ledger.join` has put the document together again from the carrier and the scripts as they
are by then.

A carrier that has not changed takes its scripts back at the recorded offsets.  A carrier that has
changed is searched for regions anew and must have as many of them as were cut out.

These are `synthetic_path`, `SplitPart`, `SplitRecord`, and `HtmlSplitter` with `is_html`, `split_file` and
`join_files` (full specification, section Script Split/Rejoin Transform).
-/

namespace HtmlDeps

def Path.isHtml (p : Path) : Bool :=
  let s := p.suffix.lower
  s == ".html" || s == ".htm"

/-- A path without a name, beside which no script can stand. -/
structure Nameless where
  path : Path
deriving DecidableEq, Repr

def Nameless.message (e : Nameless) : Text :=
  "PosixPath(" ++ e.path.toText.quoted ++ ") has an empty name"

/-- The path of the script cut out of a document, by its number. -/
def Path.script (p : Path) (index : Int) : Except Nameless Path :=
  if p.name.isEmpty then .error ⟨p⟩
  else .ok (p.withName (p.name ++ "_script_" ++ Text.ofInt index ++ ".js"))

/-- A script that was cut out: its path, the offset in the carrier where it belongs, and the tags
that were around it. -/
structure Part where
  path : Path
  offset : Nat
  openTag : Text
  closeTag : Text
deriving DecidableEq, Repr

/-- How a document was cut: its path, the carrier that was left, and the scripts. -/
structure Cut where
  path : Path
  carrier : Bytes
  parts : List Part
deriving DecidableEq, Repr

/-- Why cutting or joining fails. -/
inductive SplitFault where
  | markup (f : MarkupFault)
  | nameless (f : Nameless)
  -- The changed carrier has another number of regions than were cut out.
  | regionCount (path : Path) (found expected : Nat)
  | absent (key : Text)            -- a file that the cut asks for is not there
  | noCut (key : Text)             -- no cut is recorded under a key
  | incomplete (keys : List Text)  -- the files end before these documents are complete
deriving DecidableEq, Repr

def SplitFault.message : SplitFault → Text
  | .markup f => f.message
  | .nameless f => f.message
  | .regionCount p found expected =>
    p.toText ++ " has " ++ Text.ofNat found ++ " script regions, expected " ++ Text.ofNat expected
  | .absent key => key.quoted
  | .noCut key => key.quoted
  | .incomplete keys => "Split files never completed for: " ++ Text.join ", " keys

/-! ### Texts without their regions, and with them again -/

/-- The text from `cursor` on without the bodies of the regions. -/
def remainder (t : Text) (cursor : Nat) : List Region → Text
  | [] => t.drop cursor
  | r :: rs => (t.take r.start).drop cursor ++ remainder t r.stop rs

/-- The text from `cursor` on with each range replaced by a body. -/
def splice (t : Text) (cursor : Nat) : List ((Nat × Nat) × Text) → Text
  | [] => t.drop cursor
  | ((start, stop), body) :: cuts => (t.take start).drop cursor ++ body ++ splice t stop cuts

/-- The scripts of a document at path `p` whose regions are given, numbered from `index` on, and
with `removed` glyphs taken out before them. -/
def partsOf (p : Path) (t : Text) (index removed : Nat) :
    List Region → Except Nameless (List (Part × Text))
  | [] => .ok []
  | r :: rs => do
    let path ← p.script index
    let body := r.body t
    let rest ← partsOf p t (index + 1) (removed + body.length) rs
    return (⟨path, r.start - removed, r.openTag, r.closeTag⟩, body) :: rest

/-! ### The ledger -/

/-- The cuts that have not been joined yet, by the key of the document, and for each script's key the
document it belongs to. -/
structure Ledger where
  cuts : Table Text Cut
  owners : Table Text Text
deriving DecidableEq, Repr

namespace Ledger

def empty : Ledger := ⟨[], []⟩

def record (l : Ledger) (c : Cut) : Ledger where
  cuts := l.cuts.put c.path.key c
  owners := c.parts.foldl (fun t p => Table.put t p.path.key c.path.key) l.owners

/-- The ledger without a cut. -/
def forget (l : Ledger) (c : Cut) : Ledger where
  cuts := l.cuts.erase c.path.key
  owners := c.parts.foldl (fun t p => Table.erase t p.path.key) l.owners

/-- Cuts the scripts out of a document: the carrier, and then the scripts in document order. -/
def cut (sel : Selector) (l : Ledger) (f : File) : Except SplitFault (Ledger × List File) :=
  match Region.locate sel f.text with
  | .error e => .error (.markup e)
  | .ok regions =>
    match partsOf f.path f.text 0 0 regions with
    | .error e => .error (.nameless e)
    | .ok parts =>
      let carrier := Text.encode (remainder f.text 0 regions)
      .ok (l.record ⟨f.path, carrier, parts.map (·.1)⟩,
        ⟨f.path, carrier⟩ :: parts.map fun (p, body) => ⟨p.path, Text.encode body⟩)

/-- The files of a group that stand under the keys of the parts. -/
def bodies (group : Table Text File) : List Part → Except SplitFault (List Text)
  | [] => .ok []
  | p :: ps =>
    match group.get? p.path.key with
    | none => .error (.absent p.path.key)
    | some f => do return f.text :: (← bodies group ps)

/-- The ranges of a carrier that the bodies replace. -/
def ranges (sel : Selector) (c : Cut) (carrier : File) : Except SplitFault (List (Nat × Nat)) :=
  if carrier.contents = c.carrier then .ok (c.parts.map fun p => (p.offset, p.offset))
  else
    match Region.locate sel carrier.text with
    | .error e => .error (.markup e)
    | .ok regions =>
      if regions.length = c.parts.length then .ok (regions.map fun r => (r.start, r.stop))
      else .error (.regionCount c.path regions.length c.parts.length)

/-- Puts a document together again from the group of its files. -/
def join (sel : Selector) (l : Ledger) (c : Cut) (group : Table Text File) :
    Except SplitFault (Ledger × File) :=
  match group.get? c.path.key with
  | none => .error (.absent c.path.key)
  | some carrier =>
    match bodies group c.parts with
    | .error e => .error e
    | .ok bs =>
      match ranges sel c carrier with
      | .error e => .error e
      | .ok rs =>
        .ok (l.forget c, ⟨c.path, Text.encode (splice carrier.text 0 (rs.zip bs))⟩)

end Ledger
end HtmlDeps
