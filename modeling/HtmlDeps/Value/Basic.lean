import HtmlDeps.Decimal.Shortest
import HtmlDeps.Path.Basic
import HtmlDeps.Text.Quoted

/-!
# Values of configuration files and log fields

A configuration file, the fields of a log record and everything printed as JSON hold values of one
kind.  Maps keep the order of their entries.  `Value.shown` is the text of a value inside a message,
where texts inside lists and maps stand in quotation marks.
-/

namespace HtmlDeps

/-- A dynamic value. -/
inductive Value where
  | null
  | bool (b : Bool)
  | int (n : Int)
  | float (x : Float)
  | text (t : Text)
  | path (p : Path)
  | bytes (bs : Bytes)
  -- A calendar date, or a date with a time of day, as it was written.
  | moment (isDate : Bool) (written : Text)
  | list (vs : List Value)
  | map (entries : List (Value × Value))
deriving Repr, Inhabited

namespace Value

instance : Coe String Value := ⟨fun s => .text (Text.ofString s)⟩

/-- A map with texts for keys. -/
def record (fields : List (Text × Value)) : Value := .map (fields.map fun (k, v) => (.text k, v))

/-- Whether two values are the same key of a map.  Truth values count as the numbers 0 and 1. -/
def sameKey : Value → Value → Bool
  | .text a, .text b => a == b
  | .null, .null => true
  | .path a, .path b => a == b
  | .bytes a, .bytes b => a == b
  | .moment d a, .moment e b => d == e && a == b
  | a, b =>
    match number? a, number? b with
    | some (.inl x), some (.inl y) => x == y
    | some (.inr x), some (.inr y) => x == y
    | some (.inl x), some (.inr y) => Float.ofInt x == y
    | some (.inr x), some (.inl y) => x == Float.ofInt y
    | _, _ => false
where
  -- The number that a value counts as.
  number? : Value → Option (Int ⊕ Float)
    | .bool b => some (.inl (if b then 1 else 0))
    | .int n => some (.inl n)
    | .float x => some (.inr x)
    | _ => none

def find? (entries : List (Value × Value)) (key : Value) : Option Value :=
  (entries.find? fun e => sameKey e.1 key).map (·.2)

def get? (v : Value) (key : Text) : Option Value :=
  match v with
  | .map entries => find? entries (.text key)
  | _ => none

/-- The entries with `v` under `key`: in place if the key is there, else at the end. -/
def put (entries : List (Value × Value)) (key v : Value) : List (Value × Value) :=
  if entries.any fun e => sameKey e.1 key then
    entries.map fun e => if sameKey e.1 key then (e.1, v) else e
  else entries ++ [(key, v)]

/-- Whether a value counts as something: not empty, not zero, not absent. -/
def holdsSomething : Value → Bool
  | .null => false
  | .bool b => b
  | .int n => n ≠ 0
  | .float x => !(x == 0)
  | .text t => !t.isEmpty
  | .bytes b => !b.isEmpty
  | .list vs => !vs.isEmpty
  | .map es => !es.isEmpty
  | .path _ => true
  | .moment _ _ => true

def kindName : Value → Text
  | .null => "NoneType"
  | .bool _ => "bool"
  | .int _ => "int"
  | .float _ => "float"
  | .text _ => "str"
  | .path _ => "PosixPath"
  | .bytes _ => "bytes"
  | .moment true _ => "datetime.date"
  | .moment false _ => "datetime.datetime"
  | .list _ => "list"
  | .map _ => "dict"

mutual
/-- The text of a value inside a list or a map. -/
def nested : Value → Text
  | .null => "None"
  | .bool b => if b then "True" else "False"
  | .int n => Text.ofInt n
  | .float x => Decimal.render Decimal.inMessages x
  | .text t => t.quoted
  | .path p => "PosixPath(" ++ p.toText.quoted ++ ")"
  | .bytes b => "b" ++ Text.quoted (b.map fun x => .char (Char.ofNat x.toNat))
  | .moment _ w => w
  | .list vs => "[" ++ nestedList vs ++ "]"
  | .map es => "\x7b" ++ nestedEntries es ++ "\x7d"

/-- The texts of values with commas in between. -/
def nestedList : List Value → Text
  | [] => []
  | [v] => nested v
  | v :: vs => nested v ++ ", " ++ nestedList vs

/-- The texts of entries with commas in between. -/
def nestedEntries : List (Value × Value) → Text
  | [] => []
  | [(k, v)] => nested k ++ ": " ++ nested v
  | (k, v) :: es => nested k ++ ": " ++ nested v ++ ", " ++ nestedEntries es
end

/-- The text of a value in a message: a text and a path as they are, all else as in a list. -/
def shown : Value → Text
  | .text t => t
  | .path p => p.toText
  | v => nested v

end Value
end HtmlDeps
