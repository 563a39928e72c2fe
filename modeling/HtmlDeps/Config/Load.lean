import HtmlDeps.Config.Nested
import HtmlDeps.Config.Project
import HtmlDeps.Disk
import HtmlDeps.Text.Undecodable
import HtmlDeps.Yaml.Document

/-!
# The environment, and loading the configuration

The program runs in a directory, and variables of its environment name the user's home directory, a
configuration file, and values for settings.  The configuration file is the one asked for, or the one
that the environment names, or `fragment-graph.yaml` in the working directory if it is there.  The
project and the settings are read from it, and variables of the environment count more than the file.
What reads the file, coerces its values and matches patterns are libraries (`Libraries`).

These are `resolve_config_path`, `_read_yaml`, `load_project_config`, `Settings.from_yaml`,
`_load_env_overrides` and `get_settings` (full specification, section Configuration).
-/

namespace HtmlDeps

/-- What the program leaves to libraries. -/
structure Libraries where
  document : Yaml.Reader
  coercions : Coercions
  matcher : Glob.Matcher

def Libraries.usual : Libraries := ⟨Yaml.read, .lax, Glob.accepts⟩

/-- Where the program runs. -/
structure Environment where
  cwd : Path
  assignments : Table Text Text  -- the values of its variables
  accountHome : Text             -- the home directory that the user's account has
  accounts : List (Text × Text)  -- the home directory of each account
  links : Links
  callDepth : Nat  -- how many calls may go on inside one another
  libraries : Libraries

namespace Environment

/-- An environment without symbolic links, with the usual libraries. -/
def usual (cwd : Path) (assignments : Table Text Text) (accountHome : Text) (accounts : List (Text × Text)) :
    Environment :=
  ⟨cwd, assignments, accountHome, accounts, .none, 900, .usual⟩

/-- What the names of the program's variables start with. -/
def variableStart : Text := "FGRAPH_"

/-- The variable that names a configuration file. -/
def configVariable : Text := variableStart ++ "CONFIG"

def homes (e : Environment) : Homes := ⟨e.assignments.get? "HOME", e.accountHome, e.accounts⟩

/-- The field of the settings that a variable has a value for. -/
def field? (name : Text) : Option Text :=
  (Text.after? variableStart name).bind fun rest =>
    let field := Text.lower rest
    if Settings.fieldNames.contains field then some field else none

def overrides (e : Environment) : Table Text Text :=
  .ofEntries (e.assignments.filterMap fun (name, v) => (field? name).map fun f => (f, v))

end Environment

/-! ### Loading -/

/-- Why a configuration cannot be loaded. -/
inductive LoadFault where
  | missing (p : Path)  -- the file that was asked for is not there
  | access (f : AccessFault)
  | undecodable (u : Undecodable)
  | document (f : Yaml.Fault)
  | notMap (p : Path)     -- the file holds something else than a map
  | rootKind (v : Value)  -- the root of a project is not a text
  | home (f : HomeFault)
  | tooDeep               -- Maps lie too deep in one another, or inside themselves.
  | fields (model : Text) (cs : List Complaint)  -- Fields of the project or of the settings are wrong.
deriving Repr

/-- The wording of a fault; what is wrong with fields is counted. -/
def LoadFault.message : LoadFault → Text
  | .missing p => "Config file not found: " ++ p.toText
  | .access f => f.message
  | .undecodable u => u.message
  | .document f => f.message
  | .notMap p => p.toText ++ " must contain a mapping at the top level"
  | .rootKind (.bytes _) =>
    ("argument should be a str object or an os.PathLike object returning str, " : Text) ++
      "not <class 'bytes'>"
  | .rootKind v => "expected str, bytes or os.PathLike object, not " ++ v.kindName
  | .home f => f.message
  | .tooDeep => "maximum recursion depth exceeded"
  | .fields model cs =>
    Text.ofNat cs.length ++ (if cs.length = 1 then " validation error for " else
      " validation errors for ") ++ model

/-- Something loaded, or why it cannot be. -/
abbrev Loaded (α : Type) := Except LoadFault α

namespace Environment

/-- The name of the configuration file in the working directory. -/
def configName : Text := "fragment-graph.yaml"

/-- The path of the configuration file, if there is one to look for. -/
def configPath (e : Environment) (d : Disk) (given : Option Path) : Except HomeFault (Option Path) :=
  match given, (e.assignments.get? configVariable).getD [] with
  | some p, _ => (p.atHome e.homes).map some
  | none, g :: r => ((Path.ofText (g :: r)).atHome e.homes).map some
  | none, [] =>
    let p := e.cwd.extend [configName]
    .ok (if d.has p then some p else none)

/-- Reads a configuration file; an empty one is an empty map. -/
def readMap (e : Environment) (d : Disk) (p : Path) : Loaded Yaml.Content := do
  let bytes ← (d.read e.cwd p).mapError .access
  match Text.decodeStrict? bytes, Undecodable.find? bytes with
  | some t, _ =>
    let c ← (e.libraries.document t).mapError .document
    match c.value with
    | .map _ => return c
    | v => if v.holdsSomething then .error (.notMap p) else return ⟨.map [], false⟩
  | none, some u => .error (.undecodable u)
  | none, none => .error (.document .malformed)

/-- The configuration file and what it holds, if there is one. -/
def config (e : Environment) (d : Disk) (given : Option Path) : Loaded (Option (Path × Yaml.Content)) := do
  match ← (e.configPath d given).mapError .home with
  | none => return none
  | some p => if d.has (e.cwd.join p) then return some (p, ← e.readMap d p) else return none

/-- The settings as they are given: by the configuration file and, over that, by variables of the
environment. -/
def settingsData (e : Environment) (file : Option Value) : Table Text Value :=
  Table.update (file.elim [] Settings.nested) (e.overrides.map fun (f, v) => (f, .text v))

/-- Whether the maps of a file lie too deep in one another for the calls that walk through them. -/
def isTooDeep (e : Environment) (c : Yaml.Content) : Bool := c.isEndless || e.callDepth < c.value.depth

def settings (e : Environment) (d : Disk) (given : Option Path) : Loaded Settings := do
  let file ← e.config d given
  if file.any fun (_, c) => e.isTooDeep c then .error .tooDeep
  let data := e.settingsData (file.map (·.2.value))
  (Settings.read e.libraries.coercions (.record data)).mapError (.fields "Settings")

def projectFields : List Text :=
  ["root", "entrypoint", "shell", "fragments", "sources", "extra_dependencies"]

/-- The entries of a configuration file that belong to the project, where a root that is relative lies
in the directory of the file. -/
def projectEntries (e : Environment) (p : Path) (v : Value) : Loaded (List (Value × Value)) := do
  let given := projectFields.filterMap fun name =>
    match v.get? name with
    | none | some .null => none
    | some x => some (.text name, x)
  let root ← match Value.find? given (.text "root") with
    | none => pure (Path.ofText [])
    | some (.text t) => pure (Path.ofText t)
    | some x => .error (.rootKind x)
  return Value.put given (.text "root") (.path ((e.cwd.join p.parent).join root))

/-- The fault of a layout that is not anchored: a fault of a value is one of the fields. -/
def ofAnchor : HomeFault → LoadFault
  | .unknown => .home .unknown
  | .embeddedNul => .fields "ProjectConfig" [⟨[], .embeddedNul⟩]

/-- Loads the project; a file that is asked for has to be there. -/
def project (e : Environment) (d : Disk) (given : Option Path) : Loaded Project := do
  let entries ← match ← e.config d given, given with
    | some (p, c), _ => e.projectEntries p c.value
    | none, some p => .error (.missing p)
    | none, none => pure []
  let layout ← (Layout.read e.libraries.coercions e.cwd (.map entries)).mapError (.fields "ProjectConfig")
  (layout.anchor e.libraries.matcher e.cwd e.homes).mapError ofAnchor

end Environment

/-- Settings that are loaded once. -/
structure SettingsCache where
  held : Option Settings
deriving Repr

namespace SettingsCache

def empty : SettingsCache := ⟨none⟩

/-- The settings held, or else those loaded, which are held from then on. -/
def get (c : SettingsCache) (e : Environment) (d : Disk) : Loaded Settings × SettingsCache :=
  match c.held with
  | some s => (.ok s, c)
  | none =>
    match e.settings d none with
    | .ok s => (.ok s, ⟨some s⟩)
    | .error f => (.error f, c)

end SettingsCache
end HtmlDeps
