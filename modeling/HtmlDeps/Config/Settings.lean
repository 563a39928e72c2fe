import HtmlDeps.Config.Field

/-!
# Settings

Settings say how a build runs.  They are read from a map of field names to values, where other names
are ignored, and each field can be assigned later.  A failed assignment changes nothing.

This is `Settings` (full specification, section Configuration).
-/

namespace HtmlDeps

/-- How a build runs. -/
structure Settings where
  logLevel : Text
  logJson : Bool              -- whether the log is written as JSON
  loadTimeout : Option Float  -- for how many seconds a document waits for a file
  splitScripts : Bool         -- whether scripts are cut out of documents and put back on the way
  outDir : Path
deriving Repr

namespace Settings

/-- The settings that hold where nothing else is said. -/
def default : Settings := ⟨"INFO", true, none, false, "build"⟩

def fieldNames : List Text :=
  ["log_level", "log_json", "load_timeout", "split_scripts", "out_dir"]

def read (c : Coercions) (data : Value) : Checked Settings :=
  let level := FieldReader.field data "log_level" c.text default.logLevel
  let json := FieldReader.field data "log_json" c.bool default.logJson
  let wait := FieldReader.field data "load_timeout" (.positive c.number) default.loadTimeout
  let scripts := FieldReader.field data "split_scripts" c.bool default.splitScripts
  let out := FieldReader.field data "out_dir" c.path default.outDir
  (level.both (json.both (wait.both (scripts.both out)))).map
    fun (l, j, w, s, o) => ⟨l, j, w, s, o⟩

def assign (c : Coercions) (s : Settings) (name : Text) (v : Value) : Checked Settings :=
  let at_ := [name]
  if name = "log_level" then (c.text at_ v).map fun x => { s with logLevel := x }
  else if name = "log_json" then (c.bool at_ v).map fun x => { s with logJson := x }
  else if name = "load_timeout" then (FieldReader.positive c.number at_ v).map fun x => { s with loadTimeout := x }
  else if name = "split_scripts" then
    (c.bool at_ v).map fun x => { s with splitScripts := x }
  else if name = "out_dir" then (c.path at_ v).map fun x => { s with outDir := x }
  else .complain at_ .noField

end Settings
end HtmlDeps
