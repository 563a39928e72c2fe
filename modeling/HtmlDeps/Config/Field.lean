import HtmlDeps.Decimal.Written
import HtmlDeps.Text.Blank
import HtmlDeps.Text.Case
import HtmlDeps.Value.Basic

/-!
# Fields of a configuration

Each field of a configuration is read from a value, under rules for its type.  Reading several fields
reports what is wrong with all of them, in the order of the fields (`Checked.both`).

This stands for the library that validates `Settings` and `ProjectConfig`: the reading of a value is a
parameter of the program (`Coercions`), and `Coercions.lax` reads it as that library does.  Of its reports the
places and the kinds are kept.
-/

namespace HtmlDeps

/-- What is wrong with the value of a field. -/
inductive FieldFault where
  | notPath
  | notList
  | notText
  | notBool
  | unknownBool
  | notNumber
  | unknownNumber
  | notPositive (field : Text)
  | embeddedNul  -- a path starts at the home directory of an account whose name has a NUL
  | noField      -- there is no field of this name
deriving DecidableEq, Repr

namespace FieldFault

def label : FieldFault → Text
  | .notPath => "path_type"
  | .notList => "list_type"
  | .notText => "string_type"
  | .notBool => "bool_type"
  | .unknownBool => "bool_parsing"
  | .notNumber => "float_type"
  | .unknownNumber => "float_parsing"
  | .notPositive _ | .embeddedNul => "value_error"
  | .noField => "no_such_attribute"

/-- The words of a fault that has words of its own. -/
def words? : FieldFault → Option Text
  | .notPositive field => some ("Value error, " ++ field ++ " must be positive")
  | .embeddedNul => some "Value error, embedded null byte"
  | _ => none

end FieldFault

/-- A fault and where it is. -/
structure Complaint where
  place : List Text
  fault : FieldFault
deriving DecidableEq, Repr

/-- Something that was read from a value, or what is wrong with the value. -/
abbrev Checked (α : Type) := Except (List Complaint) α

namespace Checked

/-- Both results, or all complaints. -/
def both {α β : Type} (a : Checked α) (b : Checked β) : Checked (α × β) :=
  match a, b with
  | .ok x, .ok y => .ok (x, y)
  | .ok _, .error e => .error e
  | .error e, .ok _ => .error e
  | .error e, .error f => .error (e ++ f)

/-- All results, or all complaints. -/
def all {α : Type} : List (Checked α) → Checked (List α)
  | [] => .ok []
  | c :: cs => (both c (all cs)).map fun (x, xs) => x :: xs

def complain {α : Type} (place : List Text) (f : FieldFault) : Checked α := .error [⟨place, f⟩]

end Checked

/-- How a value is read at a place. -/
abbrev FieldReader (α : Type) := List Text → Value → Checked α

namespace FieldReader

def text : FieldReader Text
  | _, .text t => .ok t
  | at_, _ => .complain at_ .notText

/-- A path, written as a text. -/
def path : FieldReader Path
  | _, .text t => .ok (Path.ofText t)
  | _, .path p => .ok p
  | at_, _ => .complain at_ .notPath

def optional {α : Type} (r : FieldReader α) : FieldReader (Option α)
  | _, .null => .ok none
  | at_, v => (r at_ v).map some

/-- A list, each of whose items is read in the same way. -/
def list {α : Type} (r : FieldReader α) : FieldReader (List α)
  | at_, .list vs => Checked.all (vs.zipIdx.map fun (v, i) => r (at_ ++ [Text.ofNat i]) v)
  | at_, _ => .complain at_ .notList

/-- The words that stand for true and false. -/
def boolWords : List (Text × Bool) :=
  [("0", false), ("off", false), ("f", false), ("false", false), ("n", false), ("no", false),
   ("1", true), ("on", true), ("t", true), ("true", true), ("y", true), ("yes", true)]

/-- A truth value, also written as a word or as one of the numbers 0 and 1. -/
def bool : FieldReader Bool
  | _, .bool b => .ok b
  | at_, .text t =>
    match boolWords.find? (·.1 == Text.lower t) with
    | some (_, b) => .ok b
    | none => .complain at_ .unknownBool
  | at_, .int n =>
    if n = 0 then .ok false else if n = 1 then .ok true else .complain at_ .unknownBool
  | at_, .float x =>
    if x == 0 then .ok false
    else if x == 1 then .ok true
    else if x == x.floor && x.isFinite then .complain at_ .unknownBool
    else .complain at_ .notBool
  | at_, _ => .complain at_ .notBool

/-- Whether every underscore stands between two digits; `before` says that a digit precedes. -/
def underscoresBetweenDigits (before : Bool) : Text → Bool
  | [] => true
  | .char '_' :: g :: r => before && g.isDigit && underscoresBetweenDigits true r
  | .char '_' :: [] => false
  | g :: r => underscoresBetweenDigits g.isDigit r

/-- The number that a text writes, where underscores may stand between digits. -/
def float? (t : Text) : Option Float :=
  let t := t.strip
  if underscoresBetweenDigits false t then Decimal.read? (t.filter (· != .char '_')) else none

/-- A number, also written as a text. -/
def float : FieldReader Float
  | _, .bool b => .ok (if b then 1 else 0)
  | _, .int n => .ok (Float.ofInt n)
  | _, .float x => .ok x
  | at_, .text t =>
    match float? t with
    | some x => .ok x
    | none => .complain at_ .unknownNumber
  | at_, _ => .complain at_ .notNumber

/-- A number above zero, or none. -/
def positive (r : FieldReader (Option Float)) : FieldReader (Option Float) := fun at_ v =>
  match r at_ v with
  | .ok (some x) => if x ≤ 0 then .complain at_ (.notPositive (at_.getLast?.getD [])) else .ok (some x)
  | e => e

/-- The field of a map, read by `r`; `default` if it is not there. -/
def field {α : Type} (data : Value) (name : Text) (r : FieldReader α) (default : α) : Checked α :=
  match data.get? name with
  | some v => r [name] v
  | none => .ok default

end FieldReader

/-- How values of the types of fields are read.  The program leaves this to a library. -/
structure Coercions where
  text : FieldReader Text
  bool : FieldReader Bool
  number : FieldReader (Option Float)
  path : FieldReader Path
  optionalPath : FieldReader (Option Path)
  paths : FieldReader (List Path)
  texts : FieldReader (List Text)

/-- Numbers and truth values may also be written as texts. -/
def Coercions.lax : Coercions where
  text := .text
  bool := .bool
  number := .optional .float
  path := .path
  optionalPath := .optional .path
  paths := .list .path
  texts := .list .text
end HtmlDeps
