import HtmlDeps.Path.Basic
import HtmlDeps.Url.Basic
import HtmlDeps.Url.Percent

/-!
# Files of a project and their URLs

Inside a project a file has a URL: the parts of its path below the root, with slashes in between.
`Url.ofPath` gives it, and fails for a file that is not under the root; `Path.ofUrl` leads back, and
never out of the root.  `Url.resolve` turns a reference found in a document into a URL of its own.

These are `url_from_path`, `path_from_url`, `is_external_url` and `resolve_reference` (full specification,
sections Path/URL Mapper and Document Parser).
-/

namespace HtmlDeps

/-- A path that does not lie under the root. -/
structure OutsideRoot where
  path : Path
  root : Path
deriving DecidableEq, Repr

def OutsideRoot.message (e : OutsideRoot) : Text :=
  "file path is not in root: " ++ e.path.toText ++ " (" ++ e.root.toText ++ ")"

/-- The URL of a path under `root`, where relative paths are seen from `cwd`. -/
def Url.ofPath (cwd root path : Path) : Except OutsideRoot Text :=
  let base := (root.absolute cwd).parts
  let parts := (path.absolute cwd).parts
  if base.isPrefixOf parts then .ok (Text.join "/" (parts.drop base.length))
  else .error ⟨path.normal, root.normal⟩

/-- The parts that a URL names: percent escapes resolved, empty parts and `.` dropped, and each `..`
taking back the part before it. -/
def Url.segments (url : Text) : List Text :=
  (Path.ofText (.char '/' :: Percent.decode url)).normal.parts

/-- The path that a URL of the project leads to. -/
def Path.ofUrl (root : Path) (url : Text) : Path := (root.extend (Url.segments url)).normal

/-- Resolves `href` as found in the document with URL `base`.  External references stay as they
are; one without a path, or whose path is the root, leads nowhere. -/
def Url.resolve (base href : Text) : Except Url.Fault (Option Text) := do
  let href := href.strip
  if ← Url.isExternal href then return some href
  let url ← Url.parse href
  match url.path with
  | [] => return none
  | .char '/' :: _ => return settle url.path
  | _ =>
    let dir := (Text.cutLast? (· == .char '/') base).elim [] fun (d, _) => d ++ [.char '/']
    return settle (dir ++ url.path)
where
  -- The normal form without leading slashes, unless that is the root.
  settle (t : Text) : Option Text :=
    let r := (Path.normalText t).dropLeading (.char '/')
    if r = [] || r = Path.dot then none else some r

end HtmlDeps
