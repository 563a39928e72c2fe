import HtmlDeps.Table
import HtmlDeps.Yaml.Plain
import HtmlDeps.Yaml.Token

/-!
# The nodes of a YAML document

The tokens of a document make up a tree of nodes: scalars, lists and maps, each with a tag.  A node
with an anchor stands again wherever an alias names the anchor.  Inside the node itself the alias leads
back to it (`Node.again`), and a document may so contain itself (`Node.isEndless`).
-/

namespace HtmlDeps.Yaml

/-- A node. -/
inductive Node where
  | scalar (tag : Tag) (text : Text)
  | list (tag : Tag) (items : List Node)
  | map (tag : Tag) (entries : List (Node × Node))
  | again (isMap : Bool) (anchor : Text)  -- the collection around it that has the anchor
deriving Repr

/-- A document as far as its nodes are read. -/
structure NodeReader where
  tokens : List Token
  anchors : Table Text Node

/-- What reading nodes gives. -/
abbrev Reading (α : Type) := StateT NodeReader (Except Fault) α

/-- Where handles of tags stand for starts of names. -/
abbrev Handles := Table Text Text

namespace Node

/-- The node of nothing. -/
def nothing : Node := .scalar .null []

def peek : Reading (Option Token) := do return (← get).tokens.head?

def pass : Reading Unit := modify fun s => { s with tokens := s.tokens.drop 1 }

/-- The document is not well formed. -/
def refuse {α : Type} : Reading α := throw .malformed

def sees (ts : List Token) : Reading Bool := do return (← peek).any ts.contains

/-- Passes over a certain token, if it is next, and says whether it was. -/
def passIf (t : Token) : Reading Bool := do
  if ← sees [t] then
    pass
    return true
  else return false

/-- Lets an anchor, if there is one, stand for a node. -/
def remember (anchor : Option Text) (n : Node) : Reading Unit :=
  modify fun s => match anchor with
    | some a => { s with anchors := s.anchors.put a n }
    | none => s

def tagName (hs : Handles) (t : WrittenTag) : Reading Text :=
  match t.handle with
  | none => return t.suffix
  | some h =>
    match hs.get? h with
    | some start => return start ++ t.suffix
    | none => refuse

/-- Reads the anchor and the name of the tag before a node, in either order. -/
def properties (hs : Handles) : Reading (Option Text × Option Text) := do
  match (← get).tokens with
  | .anchor a :: .tag t :: _ | .tag t :: .anchor a :: _ =>
    pass
    pass
    return (some a, some (← tagName hs t))
  | .anchor a :: _ =>
    pass
    return (some a, none)
  | .tag t :: _ =>
    pass
    return (none, some (← tagName hs t))
  | _ => return (none, none)

/-- The tag of a node with the name of a tag, if it has one that says what it is. -/
def tagOr (name : Option Text) (default : Tag) : Tag :=
  match name with
  | none => default
  | some n => if n = openTag then default else .ofName n

def scalarTag (name : Option Text) (text : Text) (isPlain : Bool) : Tag :=
  match name with
  | none => if isPlain then Plain.tag text else .str
  | some n => if n = openTag then Plain.tag text else .ofName n

mutual

/-- Reads a node; `block` says that it may be a block, and `aligned` that it may be a list whose
dashes stand in the column of the key before. -/
def read (hs : Handles) : Nat → Bool → Bool → Reading Node
  | 0, _, _ => refuse
  | fuel + 1, block, aligned => do
    if let some (.alias name) ← peek then
      pass
      match (← get).anchors.get? name with
      | some n => return n
      | none => refuse
    else
      let (anchor, name) ← properties hs
      if anchor.any (← get).anchors.has then refuse
      let list (items : Reading (List Node)) : Reading Node := do
        let tag := tagOr name .seq
        remember anchor (.again false (anchor.getD []))
        let n := Node.list tag (← items)
        remember anchor n
        return n
      let map (entries : Reading (List (Node × Node))) : Reading Node := do
        let tag := tagOr name .map
        remember anchor (.again (tag = .map) (anchor.getD []))
        let n := Node.map tag (← entries)
        remember anchor n
        return n
      match ← peek with
      | some (.scalar t isPlain) =>
        pass
        let n := Node.scalar (scalarTag name t isPlain) t
        remember anchor n
        return n
      | some .listOpen =>
        pass
        list (readFlowItems hs fuel true)
      | some .mapOpen =>
        pass
        map (readFlowEntries hs fuel true)
      | next =>
        if aligned && next = some .item then list (readAligned hs fuel)
        else if block && next = some .listBlock then
          pass
          list (readItems hs fuel)
        else if block && next = some .mapBlock then
          pass
          map (readEntries hs fuel)
        else if anchor.isSome || name.isSome then
          let n := Node.scalar (tagOr name .null) []
          remember anchor n
          return n
        else refuse

/-- Reads a node, or nothing if one of some tokens is next. -/
def readUnless (hs : Handles) : Nat → List Token → Bool → Bool → Reading Node
  | 0, _, _, _ => refuse
  | fuel + 1, ends, block, aligned => do
    if ← sees ends then return nothing else read hs fuel block aligned

/-- Reads the value of an entry after its key, or nothing if there is no colon. -/
def readValue (hs : Handles) : Nat → List Token → Bool → Reading Node
  | 0, _, _ => refuse
  | fuel + 1, ends, block => do
    if ← passIf .value then readUnless hs fuel ends block block else return nothing

/-- Reads the items of a block up to its end. -/
def readItems (hs : Handles) : Nat → Reading (List Node)
  | 0 => refuse
  | fuel + 1 => do
    if ← passIf .item then
      let n ← readUnless hs fuel [.item, .blockEnd] true false
      return n :: (← readItems hs fuel)
    else if ← passIf .blockEnd then return []
    else refuse

/-- Reads the items of a list whose dashes stand in the column of the key before. -/
def readAligned (hs : Handles) : Nat → Reading (List Node)
  | 0 => refuse
  | fuel + 1 => do
    if ← passIf .item then
      let n ← readUnless hs fuel [.item, .key, .value, .blockEnd] true false
      return n :: (← readAligned hs fuel)
    else return []

/-- Reads the entries of a block up to its end. -/
def readEntries (hs : Handles) : Nat → Reading (List (Node × Node))
  | 0 => refuse
  | fuel + 1 => do
    if ← passIf .key then
      let k ← readUnless hs fuel [.key, .value, .blockEnd] true true
      let v ← readValue hs fuel [.key, .value, .blockEnd] true
      return (k, v) :: (← readEntries hs fuel)
    else if ← passIf .blockEnd then return []
    else refuse

/-- Reads the items between brackets; an item with a sign of a key is a map of one entry. -/
def readFlowItems (hs : Handles) : Nat → Bool → Reading (List Node)
  | 0, _ => refuse
  | fuel + 1, first => do
    if ← passIf .listClose then return []
    if !first then
      if !(← passIf .comma) then refuse
    if ← passIf .key then
      let k ← readUnless hs fuel [.value, .comma, .listClose] false false
      let v ← readValue hs fuel [.comma, .listClose] false
      return .map .map [(k, v)] :: (← readFlowItems hs fuel false)
    else if ← passIf .listClose then return []
    else
      let n ← read hs fuel false false
      return n :: (← readFlowItems hs fuel false)

/-- Reads the entries between braces; one without the sign of a key is a key alone. -/
def readFlowEntries (hs : Handles) : Nat → Bool → Reading (List (Node × Node))
  | 0, _ => refuse
  | fuel + 1, first => do
    if ← passIf .mapClose then return []
    if !first then
      if !(← passIf .comma) then refuse
    if ← passIf .key then
      let k ← readUnless hs fuel [.value, .comma, .mapClose] false false
      let v ← readValue hs fuel [.comma, .mapClose] false
      return (k, v) :: (← readFlowEntries hs fuel false)
    else if ← passIf .mapClose then return []
    else
      let k ← read hs fuel false false
      return (k, nothing) :: (← readFlowEntries hs fuel false)

end

/-! ### Documents -/

/-- What a document's directives say of handles, after the handles `hs`; `versioned` says that a
version is given already. -/
def readDirectives (versioned : Bool) (hs : Handles) : List Token → Except Fault (Handles × List Token)
  | .directive (.version major) :: ts =>
    if versioned || major ≠ 1 then .error .malformed else readDirectives true hs ts
  | .directive (.handle h start) :: ts =>
    if hs.has h then .error .malformed else readDirectives versioned (hs ++ [(h, start)]) ts
  | .directive .other :: ts => readDirectives versioned hs ts
  | ts => .ok (hs, ts)

/-- The node of a document that holds tokens up to its end, and no other document after it, with the nodes that
have anchors. -/
def ofTokens (hs : Handles) (ts : List Token) (explicit : Bool) : Except Fault (Node × Table Text Node) := do
  let ends : Bool := match ts with
    | [] | .directive _ :: _ | .documentStart :: _ | .documentEnd :: _ => true
    | _ => false
  let (n, s) ← if explicit && ends then pure (nothing, ⟨ts, []⟩)
    else (read hs (4 * ts.length + 4) true false).run ⟨ts, []⟩
  if s.tokens.all (· == .documentEnd) then return (n, s.anchors) else .error .malformed

/-- The node of a document, if it is not empty, and the nodes that have anchors. -/
def ofDocument (ts : List Token) : Except Fault (Option (Node × Table Text Node)) := do
  match ts with
  | [] => return none
  | .directive _ :: _ | .documentStart :: _ =>
    let (hs, ts) ← readDirectives false [] ts
    match ts with
    | .documentStart :: ts => return some (← ofTokens (hs ++ usualHandles) ts true)
    | _ => .error .malformed
  | ts => return some (← ofTokens usualHandles ts false)

end Node
end HtmlDeps.Yaml
