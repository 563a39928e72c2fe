import HtmlDeps.Table
import HtmlDeps.Value.Basic

/-!
# Log entries and their context

An entry has a level, a message and fields.  Fields come from two sides: those of the entry itself,
and those of the context in which it is written.  A context is entered with fields, which take the
place of outer fields of the same name; on an entry, its own fields take precedence over all of them.
The name of a field that belongs to a context starts with `contextMark`.

These are `log_context`, `ContextFilter` and `_context_fields` (full specification, section Logging).
-/

namespace HtmlDeps.Log

/-- How serious an entry is. -/
inductive Level where
  | notSet
  | debug
  | info
  | warning
  | error
  | critical
deriving DecidableEq, Repr

namespace Level

/-- All levels, the mildest first. -/
def all : List Level := [.notSet, .debug, .info, .warning, .error, .critical]

def label : Level → Text
  | .notSet => "NOTSET"
  | .debug => "DEBUG"
  | .info => "INFO"
  | .warning => "WARNING"
  | .error => "ERROR"
  | .critical => "CRITICAL"

def number : Level → Nat
  | .notSet => 0
  | .debug => 10
  | .info => 20
  | .warning => 30
  | .error => 40
  | .critical => 50

/-- The level with a name; two levels have a second name. -/
def ofLabel? (t : Text) : Option Level :=
  if t = "WARN" then some .warning
  else if t = "FATAL" then some .critical
  else all.find? (·.label == t)

end Level

/-- Named values that go with an entry. -/
abbrev Fields := Table Text Value

/-- The start of the names of fields that belong to a context. -/
def contextMark : Text := "ctx_"

/-- The context inside `outer` that is entered with `fields`. -/
def enter (outer fields : Fields) : Fields :=
  fields.foldl (fun c (k, v) => Table.put c (contextMark ++ k) v) outer

/-- The fields of an entry that has fields of its own, in a context. -/
def attach (own context : Fields) : Fields :=
  context.foldl (fun fs (k, v) => if Table.has fs k then fs else fs ++ [(k, v)]) own

/-- The fields that belong to a context. -/
def contextual (fields : Fields) : Fields := fields.filter fun (k, _) => k.startsWith contextMark

/-- An entry of the log. -/
structure Entry where
  level : Level
  message : Text
  fields : Fields
deriving Repr

end HtmlDeps.Log
