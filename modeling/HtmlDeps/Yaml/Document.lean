import HtmlDeps.Text.Utf8
import HtmlDeps.Value.Basic
import HtmlDeps.Yaml.Binary
import HtmlDeps.Yaml.Node
import HtmlDeps.Yaml.Number

/-!
# The value of a YAML document

The value of a document follows from its nodes: `Node.merged` puts the entries of maps that are merged
in front of those of the map around them, where later entries count; `Node.value` then reads each node
as its tag says.  A collection that contains itself has no value; an empty one stands for it where it comes
again, and `Node.isEndless` says whether maps lead on and on from one to the next.

`Yaml.read` stands for the library behind `_read_yaml`, which is a parameter of the program (`Reader`).  Left
out are the places in its messages and the depth at which it gives up.
-/

namespace HtmlDeps.Yaml

namespace Node

def tag : Node → Tag
  | .scalar t _ | .list t _ | .map t _ => t
  | .again isMap _ => if isMap then .map else .seq

def withTag (tag : Tag) : Node → Node
  | .scalar _ t => .scalar tag t
  | .list _ ns => .list tag ns
  | .map _ es => .map tag es
  | .again isMap a => .again isMap a

/-- The key of an entry, where `=` is an ordinary text. -/
def asKey (k : Node) : Node := if k.tag = .value then k.withTag .str else k

mutual

/-- The node with all merges carried out. -/
def merged : Node → Except Fault Node
  | .scalar tag t => .ok (.scalar tag t)
  | .again isMap a => .ok (.again isMap a)
  | .list tag ns => (mergedItems ns).map (.list tag)
  | .map tag es =>
    if tag = .map || tag = .set then
      (ownAndMerged es).map fun (own, others) => .map tag (others ++ own)
    else (mergedEntries es).map (.map tag)

def mergedItems : List Node → Except Fault (List Node)
  | [] => .ok []
  | n :: ns => do
    let m ← merged n
    return m :: (← mergedItems ns)

/-- The entries with the merges inside them carried out. -/
def mergedEntries : List (Node × Node) → Except Fault (List (Node × Node))
  | [] => .ok []
  | (k, v) :: es => do
    let k ← merged k
    let v ← merged v
    return (k, v) :: (← mergedEntries es)

/-- The entries of a map apart from merges, and those that are merged into it. -/
def ownAndMerged :
    List (Node × Node) → Except Fault (List (Node × Node) × List (Node × Node))
  | [] => .ok ([], [])
  | (k, v) :: es =>
    if k.tag = .merge then do
      let here ← mergeable v
      let (own, others) ← ownAndMerged es
      return (own, here ++ others)
    else do
      let k ← merged k
      let v ← merged v
      let (own, others) ← ownAndMerged es
      return ((k.asKey, v) :: own, others)

/-- The entries that a node has to be merged: those of a map, or of a list of maps, the first of which
count most. -/
def mergeable : Node → Except Fault (List (Node × Node))
  | .scalar _ _ => .error .malformed
  | .again _ _ => .ok []
  | .list _ ns => mergeableItems ns
  | .map _ es => (ownAndMerged es).map fun (own, others) => others ++ own

/-- The entries that the maps of a list have to be merged. -/
def mergeableItems : List Node → Except Fault (List (Node × Node))
  | [] => .ok []
  | .map _ es :: ns => do
    let (own, others) ← ownAndMerged es
    return (← mergeableItems ns) ++ others ++ own
  | .again true _ :: ns => mergeableItems ns
  | _ :: _ => .error .malformed

end

/-! ### Documents that contain themselves -/

/-- Whether a later entry of a map takes the place of one with the key `k`. -/
def isReplaced (k : Node) (es : List (Node × Node)) : Bool :=
  match k with
  | .scalar tag t => tag ≠ .merge && es.any fun
    | (.scalar tag' t', _) => tag = tag' && t = t'
    | _ => false
  | _ => false

mutual

/-- The anchors to which a node leads back through maps alone, each the value of a key in the one before. -/
def returns : Node → List Text
  | .again true a => [a]
  | .map .map es => returnsOfEntries es
  | _ => []

def returnsOfEntries : List (Node × Node) → List Text
  | [] => []
  | (.scalar .merge _, .list _ ns) :: es => returnsOfItems ns ++ returnsOfEntries es
  | (k, v) :: es => if isReplaced k es then returnsOfEntries es else returns v ++ returnsOfEntries es

def returnsOfItems : List Node → List Text
  | [] => []
  | n :: ns => returns n ++ returnsOfItems ns

end

/-- Whether maps lead on and on from a node, where anchors stand for nodes. -/
def isEndless (anchors : Table Text Node) (n : Node) : Bool :=
  let onward (names : List Text) := (names.flatMap fun a => (anchors.get? a).elim [] returns).eraseDups
  !((List.range (anchors.length + 1)).foldl (fun names _ => onward names) n.returns).isEmpty

/-! ### Values -/

def moment (t : Text) : Except Fault Value :=
  match Moment.read? (Plain.unbroken t) with
  | none => .error .notMoment
  | some m =>
    match m.fault? with
    | some f => .error (.calendar f)
    | none => .ok (.moment m.time.isNone t)

def scalarValue (tag : Tag) (t : Text) : Except Fault Value :=
  match tag with
  | .null => .ok .null
  | .bool =>
    let word := Text.lower t
    match Plain.truths.find? (·.1 == word) with
    | some (_, b) => .ok (.bool b)
    | none => .error (.notTruth word)
  | .int => (Number.integer t).map .int
  | .float => (Number.float t).map .float
  | .binary =>
    match if t.isAscii then Binary.read? t else none with
    | some b => .ok (.bytes b)
    | none => .error .malformed
  | .timestamp => moment t
  | .str => .ok (.text t)
  | _ => .error .malformed

/-- The scalar that stands for a map: the value of its entry `=`. -/
def stand? : List (Node × Node) → Option Text
  | [] => none
  | (k, v) :: es =>
    if k.tag = .value then
      match v with
      | .scalar _ t => some t
      | _ => none
    else stand? es

/-- Whether a value can be a key. -/
def isKey : Value → Bool
  | .list _ | .map _ => false
  | _ => true

mutual

def value : Node → Except Fault Value
  | .scalar tag t => scalarValue tag t
  | .again isMap _ => .ok (if isMap then .map [] else .list [])
  | .list tag ns =>
    match tag with
    | .seq => (values ns).map .list
    | .omap | .pairs => (pairs ns).map .list
    | _ => .error .malformed
  | .map tag es =>
    match tag with
    | .map => (entries es []).map .map
    | .set => (entries es []).map fun es => .list (es.map (·.1))
    | tag =>
      match stand? es with
      | some t => scalarValue tag t
      | none => .error .malformed

def values : List Node → Except Fault (List Value)
  | [] => .ok []
  | n :: ns => do
    let v ← value n
    return v :: (← values ns)

/-- The values of entries put after others, where the last of several under one key counts. -/
def entries : List (Node × Node) → List (Value × Value) → Except Fault (List (Value × Value))
  | [], done => .ok done
  | (k, v) :: es, done => do
    let key ← value k
    if !isKey key then .error .malformed
    let v ← value v
    entries es (Value.put done key v)

/-- The values of maps of one entry, each as a list of key and value. -/
def pairs : List Node → Except Fault (List Value)
  | [] => .ok []
  | .map _ [(k, v)] :: ns => do
    let k ← value k
    let v ← value v
    return .list [k, v] :: (← pairs ns)
  | _ :: _ => .error .malformed

end
end Node

/-- A glyph that may stand in a document. -/
def isAllowed : Glyph → Bool :=
  Glyph.holds fun c =>
    let n := c.toNat
    c == '\t' || c == '\n' || c == '\r' || (0x20 ≤ n && n ≤ 0x7E) || n == 0x85 ||
      (0xA0 ≤ n && n ≤ 0xD7FF) || (0xE000 ≤ n && n ≤ 0xFFFD) || 0x10000 ≤ n

/-- The text with a line feed for each line break of another system. -/
def withLineFeeds : Text → Text
  | .char '\r' :: .char '\n' :: r => .char '\n' :: withLineFeeds r
  | .char '\r' :: r => .char '\n' :: withLineFeeds r
  | g :: r => g :: withLineFeeds r
  | [] => []

/-- What a document holds. -/
structure Content where
  value : Value    -- An empty collection stands for one that contains itself, where it comes again.
  isEndless : Bool -- whether maps lead on and on from it, each the value of a key in the one before
deriving Repr

/-- What reads a document.  The program leaves this to a library; `read` is such a reader. -/
abbrev Reader := Text → Except Fault Content

/-- Reads a document; an empty one is nothing. -/
def read : Reader := fun t => do
  if !t.all isAllowed then .error .malformed
  match ← Node.ofDocument (← Token.readAll (withLineFeeds t)) with
  | none => return ⟨.null, false⟩
  | some (n, anchors) => return ⟨← (← n.merged).value, n.isEndless anchors⟩

end HtmlDeps.Yaml
