import HtmlDeps.Path.Basic
import HtmlDeps.Text.Quoted

/-!
# What the command line asks for

The command line names an action and has options after it.  The value of an option follows as the next
argument, after `=` in the argument of a long option, or right after a short option.  Of an option that
comes twice the last counts.  After `--` no argument is an option.

These are the options of `build`, `deps` and `watch` (full specification, section CLI), read as the library
reads them that the program leaves this to.  The texts of usage and help are left out.
-/

namespace HtmlDeps.Command

/-- What the program does. -/
inductive Action where
  | build  -- writes the output of a build
  | deps   -- prints the dependencies of all fragments
  | watch  -- builds, and builds again after every change
deriving DecidableEq, Repr

def Action.label : Action → Text
  | .build => "build"
  | .deps => "deps"
  | .watch => "watch"

def Action.ofLabel? (t : Text) : Option Action :=
  [Action.build, .deps, .watch].find? fun a => a.label == t

/-- What is asked for. -/
structure Request where
  action : Action
  config : Option Path
  out : Option Path
  split : Option Bool  -- whether scripts are cut out of documents and put back on the way
  logLevel : Option Text
deriving DecidableEq, Repr

/-- What is wrong with a command line. -/
inductive UsageFault where
  | noAction
  | unknownAction (name : Text)
  | unknownOption (name : Text)
  | missingValue (option : Text)
  | needlessValue (option : Text)
  | extraArgument (argument : Text)
deriving DecidableEq, Repr

def UsageFault.message : UsageFault → Text
  | .noAction => "Missing command."
  | .unknownAction n => "No such command " ++ n.quoted ++ "."
  | .unknownOption n => "No such option: " ++ n
  | .missingValue o => "Option " ++ o.quoted ++ " requires an argument."
  | .needlessValue o => "Option " ++ o.quoted ++ " does not take a value."
  | .extraArgument a => "Got unexpected extra argument (" ++ a ++ ")"

/-- An option. -/
inductive Choice where
  | config
  | out
  | logLevel
  | split (b : Bool)
  | help
deriving DecidableEq, Repr

namespace Choice

def hasValue : Choice → Bool
  | .config | .out | .logLevel => true
  | .split _ | .help => false

/-- The options that an action has, by their names. -/
def all (a : Action) : List (Text × Choice) :=
  let always : List (Text × Choice) :=
    [("--config", .config), ("-c", .config), ("--log-level", .logLevel), ("--help", .help)]
  let output : List (Text × Choice) := [("--out", .out), ("-o", .out)]
  let splitting : List (Text × Choice) := [("--split", .split true), ("--no-split", .split false)]
  match a with
  | .deps => always
  | .watch => always ++ output
  | .build => always ++ output ++ splitting

/-- The option that an action has under a name. -/
def find? (a : Action) (name : Text) : Except UsageFault Choice :=
  match (all a).find? (·.1 == name) with
  | some (_, c) => .ok c
  | none => .error (.unknownOption name)

end Choice

/-- A command line as far as it is read: the request, whether help is asked for, and the arguments that
are no options. -/
structure Line where
  request : Request
  help : Bool
  others : List Text
deriving Repr

namespace Line

def withValue (l : Line) (c : Choice) (v : Text) : Line :=
  match c with
  | .config => { l with request := { l.request with config := some (Path.ofText v) } }
  | .out => { l with request := { l.request with out := some (Path.ofText v) } }
  | .logLevel => { l with request := { l.request with logLevel := some v } }
  | .split _ | .help => l

def withChoice (l : Line) (c : Choice) : Line :=
  match c with
  | .split b => { l with request := { l.request with split := some b } }
  | .help => { l with help := true }
  | .config | .out | .logLevel => l

def isOption : Text → Bool
  | .char '-' :: _ :: _ => true
  | _ => false

/-- The name of the option in an argument, and the value in it, if there is one. -/
def cut (argument : Text) : Text × Option Text :=
  if argument.startsWith "--" then
    match Text.cutAt (· == .char '=') argument with
    | (name, _ :: v) => (name, some v)
    | (name, []) => (name, none)
  else (argument.take 2, if argument.length > 2 then some (argument.drop 2) else none)

def read (l : Line) : List Text → Except UsageFault Line
  | [] => .ok l
  | argument :: rest =>
    if argument = "--" then .ok { l with others := l.others ++ rest }
    else if !isOption argument then read { l with others := l.others ++ [argument] } rest
    else
      let (name, value) := cut argument
      match Choice.find? l.request.action name, value, rest with
      | .error f, _, _ => .error f
      | .ok c, some v, rest =>
        if c.hasValue then read (l.withValue c v) rest else .error (.needlessValue name)
      | .ok c, none, rest =>
        if !c.hasValue then read (l.withChoice c) rest
        else
          match rest with
          | [] => .error (.missingValue name)
          | v :: rest => read (l.withValue c v) rest

end Line

/-- Reads the arguments from the action on; nothing if help is asked for. -/
def Request.ofAction (arguments : List Text) : Except UsageFault (Option Request) :=
  match arguments with
  | [] => .error .noAction
  | name :: rest =>
    match Action.ofLabel? name with
    | none => .error (.unknownAction name)
    | some a => do
      let l ← Line.read ⟨⟨a, none, none, none, none⟩, false, []⟩ rest
      match l.help, l.others with
      | true, _ => return none
      | false, [] => return some l.request
      | false, x :: _ => .error (.extraArgument x)

/-- Reads a command line; nothing if help is asked for. -/
def Request.read (help : Bool) : List Text → Except UsageFault (Option Request)
  | [] => if help then .ok none else .error .noAction
  | argument :: rest =>
    if argument = "--" then if help then .ok none else ofAction rest
    else if argument = "--help" then read true rest
    else if Line.isOption argument then .error (.unknownOption argument)
    else if help then .ok none
    else ofAction (argument :: rest)

end HtmlDeps.Command
