import HtmlDeps.Config.Field
import HtmlDeps.Glob.Match
import HtmlDeps.Path.Home
import HtmlDeps.Url.Local

/-!
# The layout of a project

A layout names the root of a project, its fragments (the documents to analyze: the entrypoint, the
shell and others) and, by glob patterns, its source files and extra dependencies.  A project is a
layout whose paths are anchored: the root is absolute, the fragments are absolute or below it, and
all of them are in normal form.

This is `ProjectConfig` with `_anchor_paths`, `_under_root`, `all_fragments`, `source_globs`, `is_fragment`,
`matches_source` and `matches_extra_dependency` (full specification, section Configuration).
-/

namespace HtmlDeps

/-- The layout of a project as it is written. -/
structure Layout where
  root : Path
  entrypoint : Path
  shell : Option Path
  fragments : List Path
  sources : List Text  -- patterns for the source files, below the root
  extras : List Text   -- patterns for files that are dependencies in any case
deriving DecidableEq, Repr

/-- A layout with anchored paths. -/
structure Project extends Layout where
  cwd : Path             -- the directory from which relative paths are seen
  matcher : Glob.Matcher -- what matches paths against patterns

namespace Layout

/-- Reads a layout from a map, where other names are ignored; the root is `cwd` if none is given. -/
def read (c : Coercions) (cwd : Path) (data : Value) : Checked Layout :=
  let root := FieldReader.field data "root" c.path cwd
  let entrypoint := FieldReader.field data "entrypoint" c.path "index.html"
  let shell := FieldReader.field data "shell" c.optionalPath none
  let fragments := FieldReader.field data "fragments" c.paths []
  let sources := FieldReader.field data "sources" c.texts ["src/**/*"]
  let extras := FieldReader.field data "extra_dependencies" c.texts []
  (root.both (entrypoint.both (shell.both (fragments.both (sources.both extras))))).map
    fun (r, e, s, f, src, x) => ⟨r, e, s, f, src, x⟩

/-- A path of a layout, below the root unless it is absolute. -/
def under (homes : Homes) (root p : Path) : Except HomeFault Path :=
  (p.atHome homes).map fun p => (root.join p).normal

/-- Anchors the paths of a layout. -/
def anchor (m : Glob.Matcher) (cwd : Path) (homes : Homes) (l : Layout) : Except HomeFault Project := do
  let root := (cwd.join (← l.root.atHome homes)).normal
  let entrypoint ← under homes root l.entrypoint
  let shell ← l.shell.mapM (under homes root)
  let fragments ← l.fragments.mapM (under homes root)
  return { root, entrypoint, shell, fragments, sources := l.sources, extras := l.extras, cwd, matcher := m }

end Layout

namespace Project

/-- The fragments without repetition: entrypoint, shell, others. -/
def allFragments (p : Project) : List Path :=
  (p.entrypoint :: p.shell.toList ++ p.fragments).foldl
    (fun seen f => if f ∈ seen then seen else seen ++ [f]) []

def url (p : Project) (path : Path) : Except OutsideRoot Text := Url.ofPath p.cwd p.root path

def path (p : Project) (url : Text) : Path := Path.ofUrl p.root url

/-- The patterns for source files: those of the layout and then the fragments themselves. -/
def sourcePatterns (p : Project) : Except OutsideRoot (List Text) :=
  p.allFragments.foldlM (fun patterns f => do
    let u ← p.url f
    return if u ∈ patterns then patterns else patterns ++ [u]) p.sources

def isFragment (p : Project) (path : Path) : Bool := path.normal ∈ p.allFragments

/-- Why it cannot be said whether a path matches. -/
inductive MatchFault where
  | outside (f : OutsideRoot)
  | patterns (f : Glob.TooMany)
deriving DecidableEq, Repr

def MatchFault.message : MatchFault → Text
  | .outside f => f.message
  | .patterns f => f.message

/-- Whether patterns select a path; they select none outside the root. -/
def selects (p : Project) (path : Path) (patterns : List Text) : Except MatchFault Bool :=
  match p.url path with
  | .error _ => .ok false
  | .ok u => (Glob.selects p.matcher u patterns).mapError .patterns

def isSource (p : Project) (path : Path) : Except MatchFault Bool :=
  match p.sourcePatterns with
  | .error f => .error (.outside f)
  | .ok patterns => p.selects path patterns

/-- Whether a path is that of an extra dependency. -/
def isExtra (p : Project) (path : Path) : Except MatchFault Bool := p.selects path p.extras

end Project
end HtmlDeps
