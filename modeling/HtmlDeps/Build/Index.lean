import HtmlDeps.Table
import HtmlDeps.Value.Basic

/-!
# The dependency index

The index holds, for each fragment, the URLs it depends on, and for each imported URL the fragments
that import it.  `Index.add` enters a fragment once; a second time is a fault and changes nothing.

These are `DocumentDeps` and `DepsIndex` (full specification, section Data model).
-/

namespace HtmlDeps

/-- The URLs a fragment depends on, in document order. -/
structure Deps where
  imports : List Text
  scripts : List Text
  styles : List Text
deriving DecidableEq, Repr

def Deps.empty : Deps := ⟨[], [], []⟩

def Deps.value (d : Deps) : Value :=
  .record [("imports", .list (d.imports.map .text)), ("scripts", .list (d.scripts.map .text)),
    ("styles", .list (d.styles.map .text))]

/-- A fragment that is not in the state it should be in. -/
structure FragmentFault where
  fragment : Text
  reason : Text
deriving DecidableEq, Repr

def FragmentFault.message (f : FragmentFault) : Text := f.reason ++ ": " ++ f.fragment

/-- What fragments depend on. -/
structure Index where
  importers : Table Text (List Text)  -- The fragments that import a URL, in the order in which they were added.
  imports : Table Text (List Text)  -- the imports of a fragment
  deps : Table Text Deps            -- all dependencies of a fragment
deriving DecidableEq, Repr

namespace Index

def empty : Index := ⟨[], [], []⟩

/-- The table of importers with `fragment` entered under a URL. -/
def enter (fragment : Text) (importers : Table Text (List Text)) (url : Text) :
    Table Text (List Text) :=
  importers.put url ((importers.get? url).getD [] ++ [fragment])

def add (i : Index) (fragment : Text) (d : Deps) : Except FragmentFault Index :=
  if i.deps.has fragment then
    .error ⟨fragment, "Fragment already present in dependency index"⟩
  else .ok
    { importers := d.imports.foldl (enter fragment) i.importers
      imports := i.imports.put fragment d.imports
      deps := i.deps.put fragment d }

def value (i : Index) : Value :=
  let texts (ts : List Text) : Value := .list (ts.map .text)
  .record [
    ("deps_to_fragments", .record (i.importers.map fun (u, fs) => (u, texts fs))),
    ("fragment_to_deps", .record (i.imports.map fun (f, us) => (f, texts us))),
    ("fragment_to_full_deps", .record (i.deps.map fun (f, d) => (f, d.value)))]

end Index
end HtmlDeps
