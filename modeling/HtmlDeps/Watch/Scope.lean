import HtmlDeps.Config.Project

/-!
# Which changes count

Someone who watches a project hears of files that come, change, move and go.  A scope says which of
them count: files below its root that its patterns select and that no other patterns leave out.

This is `ProjectEventHandler` with the patterns that `watch` leaves out (full specification, section Watcher).
-/

namespace HtmlDeps.Watch

/-- What happened to a file. -/
inductive Change where
  | created
  | modified
  | moved
  | deleted
deriving DecidableEq, Repr

namespace Change

def all : List Change := [.created, .modified, .moved, .deleted]

def label : Change → Text
  | .created => "created"
  | .modified => "modified"
  | .moved => "moved"
  | .deleted => "deleted"

def ofLabel? (t : Text) : Option Change := all.find? fun c => c.label == t

end Change

/-- A change and the place where the file is, or was last. -/
structure Event where
  change : Change
  path : Path
  isDirectory : Bool
deriving DecidableEq, Repr

/-- Which files count. -/
structure Scope where
  matcher : Glob.Matcher
  root : Path
  wanted : List Text   -- patterns for what counts, below the root
  ignored : List Text  -- patterns for what does not count all the same

namespace Scope

/-- The patterns for all files. -/
def everything : List Text := ["**/*"]

/-- A scope, where no patterns for what counts means that all files do. -/
def selecting (m : Glob.Matcher) (root : Path) (wanted ignored : List Text) : Scope :=
  ⟨m, root, if wanted.isEmpty then everything else wanted, ignored⟩

/-- The text of a path below the root, for patterns. -/
def place? (s : Scope) (p : Path) : Option Text :=
  (s.root.from? p).map fun parts => (Path.mk .here parts).toText

def covers (s : Scope) (p : Path) : Except Glob.TooMany Bool :=
  match s.place? p with
  | none => .ok false
  | some place => do
    if !s.ignored.isEmpty && (← Glob.selects s.matcher place s.ignored) then return false
    Glob.selects s.matcher place s.wanted

/-- Whether an event counts; what happens to directories does not. -/
def minds (s : Scope) (e : Event) : Except Glob.TooMany Bool :=
  if e.isDirectory then .ok false else s.covers e.path

/-- The scope of a whole project whose output, if below the root, does not count. -/
def ofProject (m : Glob.Matcher) (root out : Path) : Scope :=
  selecting m root [] ((root.from? out).toList.map fun parts => (Path.mk .here parts).toText ++ "/**")

end Scope
end HtmlDeps.Watch
