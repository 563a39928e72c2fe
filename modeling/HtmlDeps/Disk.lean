import HtmlDeps.Build.Fault
import HtmlDeps.File

/-!
# Files on disk

A disk is a value: the files on it, with absolute paths, and directories that hold nothing.  Every
directory above a file is there too.

This stands for the system behind `read_file`, `list_matching_files` and `_write_file`.  Left out are symbolic
links below it (`Links` are known to the watcher only), permissions, limits on the length of names, and files
that others change meanwhile.
-/

namespace HtmlDeps

/-- The files and the directories of a disk, each by its parts below `/`. -/
structure Disk where
  files : Table (List Text) Bytes
  dirs : List (List Text)
deriving DecidableEq, Repr

namespace Disk

def empty : Disk := ⟨[], []⟩

def isDir (d : Disk) (parts : List Text) : Bool :=
  parts.isEmpty || d.dirs.any parts.isPrefixOf ||
    d.files.any fun (f, _) => parts.isPrefixOf f && parts != f

/-- What stands at a path. -/
inductive Found where
  | file (parts : List Text) (contents : Bytes)
  | dir (parts : List Text)
  | nothing (cause : AccessCause)
deriving DecidableEq, Repr

/-- What `parts` lead to from the directory `at_`. -/
def walk (d : Disk) (at_ : List Text) : List Text → Found
  | [] => .dir at_
  | p :: ps =>
    if p = Path.dotDot then walk d at_.dropLast ps
    else
      let here := at_ ++ [p]
      match d.files.get? here, ps with
      | some c, [] => .file here c
      | some _, _ :: _ => .nothing .notDirectory
      | none, _ => if d.isDir here then walk d here ps else .nothing .missing

def find (d : Disk) (p : Path) : Found := if p.hasNul then .nothing .embeddedNul else d.walk [] p.parts

/-- Whether a file or directory stands at a path. -/
def has (d : Disk) (p : Path) : Bool :=
  match d.find p with
  | .nothing _ => false
  | _ => true

/-- The number and the words that the system has for a cause. -/
def words : AccessCause → Text
  | .missing => "[Errno 2] No such file or directory"
  | .directory => "[Errno 21] Is a directory"
  | .notDirectory => "[Errno 20] Not a directory"
  | .occupied => "[Errno 17] File exists"
  | .embeddedNul => "embedded null byte"
  | .other => "[Errno 5] Input/output error"

def fault (cause : AccessCause) (p : Path) : AccessFault :=
  ⟨cause, if cause = .embeddedNul then words cause else words cause ++ ": " ++ p.toText.quoted⟩

/-- Reads a file; `cwd` is the directory from which relative paths are seen. -/
def read (d : Disk) (cwd p : Path) : Except AccessFault Bytes :=
  match d.find (cwd.join p) with
  | .file _ c => .ok c
  | .dir _ => .error (fault .directory p)
  | .nothing cause => .error (fault cause p)

/-- The files below a directory, by their parts below it, in order. -/
def below (d : Disk) (root : Path) : List (List Text) :=
  (d.files.filterMap fun (f, _) =>
    if root.parts.isPrefixOf f && root.parts != f then some (f.drop root.parts.length) else none).mergeSort
    Path.partsLe

/-- The files below a directory that patterns select. -/
def matching (d : Disk) (m : Glob.Matcher) (root : Path) (patterns : List Text) :
    Except Glob.TooMany (List Path) :=
  if patterns.isEmpty then .ok []
  else do
    let hits ← (d.below root).filterM fun f => Glob.selects m (Text.join "/" f) patterns
    return hits.map root.extend

/-- Makes the directories that are missing on the way from `at_` along some parts: the disk after it, and where
the way has led or what stands in it.  `gone` are the parts gone so far, for the words of a fault. -/
def makeDirs (d : Disk) (a : Anchor) (gone at_ : List Text) :
    List Text → Disk × Except AccessFault (List Text)
  | [] => (d, .ok at_)
  | p :: ps =>
    if p.contains Path.nul then (d, .error (fault .embeddedNul ⟨a, gone ++ [p]⟩))
    else if p = Path.dotDot then makeDirs d a (gone ++ [p]) at_.dropLast ps
    else
      let here := at_ ++ [p]
      if d.files.has here then
        match ps with
        | [] => (d, .error (fault .occupied ⟨a, gone ++ [p]⟩))
        | q :: _ =>
          let cause : AccessCause := if q.contains Path.nul then .embeddedNul else .notDirectory
          (d, .error (fault cause ⟨a, gone ++ [p, q]⟩))
      else makeDirs { d with dirs := if d.isDir here then d.dirs else d.dirs ++ [here] } a (gone ++ [p]) here ps

/-- Writes a file, and makes the directories that are missing above it: the disk after it, and why the file could
not be written, if it could not. -/
def write (d : Disk) (cwd p : Path) (contents : Bytes) : Disk × Option AccessFault :=
  let start := if p.isAbsolute then [] else cwd.normal.parts
  match d.makeDirs p.anchor [] start p.parent.parts with
  | (d, .error e) => (d, some e)
  | (d, .ok above) =>
    if p.name.contains Path.nul then (d, some (fault .embeddedNul p))
    else if p.parts = [] || p.name = Path.dotDot || d.isDir (above ++ [p.name]) then
      (d, some (fault .directory p))
    else ({ d with files := d.files.put (above ++ [p.name]) contents }, none)

def delete (d : Disk) (p : Path) : Disk := { d with files := d.files.erase p.parts }

end Disk
end HtmlDeps
