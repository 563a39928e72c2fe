import HtmlDeps.Value.Basic

/-!
# Printing JSON

`Json.print` writes a value as JSON without blanks and `Json.printIndented` with two spaces of
indentation a level.  Not every value can be written: texts must hold characters only, integers must
fit into 64 bits, and the keys of a map must be texts.  Paths, bytes and dates are written as texts.

This stands for the library behind `_echo_json` and `JsonFormatter`.
-/

namespace HtmlDeps.Json

/-- Why a value has no JSON form. -/
inductive Fault where
  | strayByte
  | hugeInteger
  | keyNotText
deriving DecidableEq, Repr

def Fault.message : Fault → Text
  | .strayByte => "str is not valid UTF-8: surrogates not allowed"
  | .hugeInteger => "Integer exceeds 64-bit range"
  | .keyNotText => "Dict key must be str"

/-- A character inside a JSON string. -/
def escape (c : Char) : Text :=
  if c = '"' then "\\\""
  else if c = '\\' then "\\\\"
  else if c = '\n' then "\\n"
  else if c = '\r' then "\\r"
  else if c = '\t' then "\\t"
  else if c = '\x08' then "\\b"
  else if c = '\x0c' then "\\f"
  else if c.toNat < 32 then "\\u" ++ Text.hexDigits 4 c.toNat
  else [.char c]

def string (t : Text) : Except Fault Text :=
  match Text.chars? t with
  | some cs => .ok (.char '"' :: (cs.flatMap escape ++ [.char '"']))
  | none => .error .strayByte

/-- Line breaks and spaces between the items of a list or map at nesting depth `depth`. -/
structure Layout where
  item : Nat → Text     -- what precedes an item
  closing : Nat → Text  -- what precedes the closing bracket
  colon : Text          -- what stands between a key and its value

/-- No blanks at all. -/
def compact : Layout := ⟨fun _ => [], fun _ => [], ":"⟩

/-- A line for each item. -/
def indented : Layout :=
  ⟨fun d => .char '\n' :: List.replicate (2 * d + 2) (.char ' '),
   fun d => .char '\n' :: List.replicate (2 * d) (.char ' '), ": "⟩

mutual
def write (l : Layout) (depth : Nat) : Value → Except Fault Text
  | .null => .ok "null"
  | .bool b => .ok (if b then "true" else "false")
  | .int n => if -(2 ^ 63) ≤ n ∧ n < 2 ^ 64 then .ok (Text.ofInt n) else .error .hugeInteger
  | .float x => .ok (Decimal.render Decimal.inJson x)
  | .text t => string t
  | .path p => string p.toText
  | .bytes b => string (Value.nested (.bytes b))
  | .moment _ w => string w
  | .list [] => .ok "[]"
  | .list (v :: vs) => do
    let items ← writeItems l depth (v :: vs)
    return "[" ++ items ++ l.closing depth ++ "]"
  | .map [] => .ok "\x7b\x7d"
  | .map (e :: es) => do
    let items ← writeEntries l depth (e :: es)
    return "\x7b" ++ items ++ l.closing depth ++ "\x7d"

def writeItems (l : Layout) (depth : Nat) : List Value → Except Fault Text
  | [] => .ok []
  | v :: vs => do
    let first ← write l (depth + 1) v
    let rest ← writeItems l depth vs
    return l.item depth ++ first ++ (if vs.isEmpty then [] else .char ',' :: rest)

def writeEntries (l : Layout) (depth : Nat) : List (Value × Value) → Except Fault Text
  | [] => .ok []
  | (.text k, v) :: es => do
    let key ← string k
    let first ← write l (depth + 1) v
    let rest ← writeEntries l depth es
    return l.item depth ++ key ++ l.colon ++ first ++ (if es.isEmpty then [] else .char ',' :: rest)
  | _ :: _ => .error .keyNotText
end

/-- The JSON form of a value, without blanks. -/
def print (v : Value) : Except Fault Text := write compact 0 v

/-- The JSON form of a value, a line for each item. -/
def printIndented (v : Value) : Except Fault Text := write indented 0 v

end HtmlDeps.Json
