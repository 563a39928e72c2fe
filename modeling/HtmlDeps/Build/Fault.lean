import HtmlDeps.Build.Index
import HtmlDeps.Build.Outlet
import HtmlDeps.Document.Survey
import HtmlDeps.Glob.Match

/-!
# What goes wrong in a build

A build fails by a verdict of its own (`Failure`), as `AnalysisWarningsError`, `UnresolvedReferencesError` and
`DependencyLoadError`, or at a fault that a piece of its work meets (`Fault`).  What a parser or a source
raises of its own is passed on as it is and never is a verdict, whatever its class (`Fault.crawler`).
-/

namespace HtmlDeps

/-- Why a file cannot be read or written. -/
inductive AccessCause where
  | missing
  | directory
  | notDirectory  -- something on the way to it is not a directory
  | occupied      -- there is a file where a directory is wanted
  | embeddedNul   -- the path holds a NUL
  | other
deriving DecidableEq, Repr

/-- A file that cannot be read or written, with the words of whoever tried. -/
structure AccessFault where
  cause : AccessCause
  message : Text
deriving DecidableEq, Repr

/-- A fault that a piece of work meets: an analysis, a source, a pump. -/
inductive Fault where
  | document (f : DocumentFault)
  | outside (f : OutsideRoot)
  | patterns (f : Glob.TooMany)
  | access (f : AccessFault)
  | fragment (f : FragmentFault)
  | closed (f : Closed)
  | crawler (message : Text)  -- the crawler gave up, for a reason of its own
deriving DecidableEq, Repr

def Fault.message : Fault → Text
  | .document f => f.message
  | .outside f => f.message
  | .patterns f => f.message
  | .access f => f.message
  | .fragment f => f.message
  | .closed f => f.message
  | .crawler m => m

/-- How a build fails: at a fault that its work met, or by a verdict of its own. -/
inductive Failure where
  | fault (f : Fault)
  | dependency (path : Path) (cause : AccessFault)  -- a dependency could not be read
  | erroneous (count : Nat)                         -- documents have this many errors
  | unresolved (urls : List Text)                   -- these URLs were asked for and never arrived
deriving DecidableEq, Repr

def Failure.message : Failure → Text
  | .fault f => f.message
  | .dependency p _ => "Could not load dependency " ++ p.toText
  | .erroneous n => Text.ofNat n ++ " error(s) occurred during build."
  | .unresolved urls => Text.ofNat urls.length ++ " deferred files were never loaded"

end HtmlDeps
