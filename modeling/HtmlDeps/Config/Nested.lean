import HtmlDeps.Config.Settings
import HtmlDeps.Table

/-!
# Settings inside other maps

A configuration file keeps most settings in maps inside its own, under names of their own.  A setting
also counts at the top level under the name of its field.  Of several values for one field the last
counts.  A map is never the value of a field.

This is `_flatten_yaml` (full specification, section Configuration).  The depth of the maps is limited by the
calls that may go on inside one another (`Value.depth`).
-/

namespace HtmlDeps

/-- The keys that lead to a value inside nested maps, if they are all texts. -/
abbrev KeyPath := Option (List Text)

namespace KeyPath

/-- The keys that lead to the value of a key inside a map. -/
def under (p : KeyPath) : Value → KeyPath
  | .text k => p.map (· ++ [k])
  | _ => none

/-- The fields that nested maps hold, by the keys that lead to them. -/
def nestedFields : List (List Text × Text) :=
  [(["build", "load_timeout"], "load_timeout"), (["build", "split_scripts"], "split_scripts"),
   (["build", "out_dir"], "out_dir"), (["logging", "level"], "log_level"),
   (["logging", "json"], "log_json")]

/-- The field whose value keys lead to. -/
def field? (p : KeyPath) : Option Text :=
  match p with
  | some [name] => if Settings.fieldNames.contains name then some name else none
  | some keys => (nestedFields.find? (·.1 == keys)).map (·.2)
  | none => none

end KeyPath

namespace Settings

mutual

/-- The fields `flat` with those in a value that keys lead to. -/
def flattenInto (p : KeyPath) (flat : Table Text Value) : Value → Table Text Value
  | .map es => flat.update (flattenEntries p [] es)
  | v =>
    match p.field? with
    | some name => flat.put name v
    | none => flat

/-- The fields `flat` with those in the entries of a map that keys lead to, one entry after the
other. -/
def flattenEntries (p : KeyPath) (flat : Table Text Value) :
    List (Value × Value) → Table Text Value
  | [] => flat
  | (k, v) :: es => flattenEntries p (flattenInto (p.under k) flat v) es

end

/-- The values of fields in a map of a configuration file. -/
def nested (v : Value) : Table Text Value :=
  match v with
  | .map es => flattenEntries (some []) [] es
  | _ => []

end Settings

mutual

/-- How many maps lie in one another, each the value of a key in the one before. -/
def Value.depth : Value → Nat
  | .map es => 1 + depthOfEntries es
  | _ => 0

def Value.depthOfEntries : List (Value × Value) → Nat
  | [] => 0
  | (_, v) :: es => max v.depth (depthOfEntries es)

end

end HtmlDeps
