import HtmlDeps.Markup.Entity
import HtmlDeps.Text.Blank

/-!
# Start tags

The grammar of a start tag, read leniently: a name, and then attributes with or without a value,
separated by blanks and slashes.  A value is quoted or bare.  A quote that is never closed does not
start a value; what stands before it then counts as the value, as far as there is any.

Every reader here cuts a text into a part and the rest, so that a tag is exactly its parts one after
the other.
-/

namespace HtmlDeps

/-- An attribute as written: the value without its quotes and with its references unresolved. -/
structure RawAttribute where
  name : Text
  value : Option Text
deriving DecidableEq, Repr

/-- A start tag.  Names are in lowercase and values have their references resolved; an attribute
without a value has the empty one. -/
structure Tag where
  name : Text
  attributes : List (Text × Text)
  selfClosing : Bool
deriving DecidableEq, Repr

namespace Tag

/-- The value of an attribute; of several with one name the last counts. -/
def get? (attributes : List (Text × Text)) (name : Text) : Option Text :=
  (attributes.reverse.find? (·.1 == name)).map (·.2)

def endsName (g : Glyph) : Bool :=
  g == .char '\t' || g == .char '\n' || g == .char '\r' || g == .char '\x0c' || g == .char ' ' ||
    g == .char '/' || g == .char '>' || g == .char '\x00'

/-- Cuts off the blanks and slashes in front, except a slash right before `>`. -/
def cutGap : Text → Text × Text
  | [] => ([], [])
  | .char '/' :: .char '>' :: r => ([], .char '/' :: .char '>' :: r)
  | g :: r =>
    if g.isBlank || g = .char '/' then
      let (gap, rest) := cutGap r
      (g :: gap, rest)
    else ([], g :: r)

def isQuote (g : Glyph) : Bool := g == .char '\'' || g == .char '"'

/-- A glyph after which an attribute may start. -/
def opensAttribute (g : Glyph) : Bool := isQuote g || g.isBlank || g == .char '/'

/-- Cuts off a bare value. -/
def cutBare (t : Text) : Text × Text := Text.cutAt (fun g => g == .char '>' || g.isBlank) t

/-- The assignment of a value: the value, the text it takes with the equals signs before it, and the
rest. -/
structure Assignment where
  value : Text
  source : Text
  rest : Text
deriving DecidableEq, Repr

/-- Reads the assignment at the start of a text. -/
def assignment? (t : Text) : Option Assignment :=
  let (lead, t₁) := Text.cutAt (fun g => !g.isBlank) t
  let (equals, t₂) := Text.cutAt (fun g => g != .char '=') t₁
  let (gap, t₃) := Text.cutAt (fun g => !g.isBlank) t₂
  if equals.isEmpty then none
  else
    match t₃ with
    | q :: r =>
      if isQuote q then
        match Text.cutAt (· == q) r with
        | (v, close :: rest) => some ⟨v, lead ++ equals ++ gap ++ q :: (v ++ [close]), rest⟩
        | (_, []) =>
          match gap.getLast? with
          | some g => some ⟨[], lead ++ equals ++ gap.dropLast, g :: t₃⟩
          | none =>
            if equals.length = 1 then none
            else
              let (v, rest) := cutBare (.char '=' :: t₃)
              some ⟨v, lead ++ equals.dropLast ++ v, rest⟩
      else
        let (v, rest) := cutBare t₃
        some ⟨v, lead ++ equals ++ gap ++ v, rest⟩
    | [] => some ⟨[], lead ++ equals ++ gap, []⟩

/-- Reads the attribute at the start of a text that follows the glyph `before`: the attribute, the
text it takes with the gap after it, and the rest. -/
def attribute? (before : Glyph) (t : Text) : Option (RawAttribute × Text × Text) :=
  match t with
  | [] => none
  | g :: r =>
    if !opensAttribute before || g.isBlank || g = .char '/' || g = .char '>' then none
    else
      let (more, rest) := Text.cutAt
        (fun g => g.isBlank || g == .char '/' || g == .char '=' || g == .char '>') r
      match assignment? rest with
      | some a =>
        let (gap, rest) := cutGap a.rest
        some (⟨g :: more, some a.value⟩, g :: more ++ a.source ++ gap, rest)
      | none =>
        let (gap, rest) := cutGap rest
        some (⟨g :: more, none⟩, g :: more ++ gap, rest)

/-- Reads all attributes; `fuel` bounds their number.  Gives the attributes, the text they take and
the rest. -/
def attributesFrom : Nat → Glyph → Text → List RawAttribute × Text × Text
  | 0, _, t => ([], [], t)
  | fuel + 1, before, t =>
    match attribute? before t with
    | none => ([], [], t)
    | some (a, source, rest) =>
      let (as, more, rest) := attributesFrom fuel (source.getLast?.getD before) rest
      (a :: as, source ++ more, rest)

/-- What stands at the start of a text that begins with `<` and a letter. -/
inductive Reading where
  | incomplete                      -- the text ends inside the tag
  | broken (size : Nat)             -- the first `size` glyphs are no tag
  | whole (tag : Tag) (size : Nat)  -- the first `size` glyphs are a tag
deriving DecidableEq, Repr

/-- The attributes with names in lowercase and values with their references resolved. -/
def resolveAttributes : List RawAttribute → Except Entity.TooLong (List (Text × Text))
  | [] => .ok []
  | a :: as => do
    let v ← Entity.decode (a.value.getD [])
    return (a.name.lower, v) :: (← resolveAttributes as)

/-- Reads the start tag in front of a text, given what follows its `<`. -/
def read (t : Text) : Except Entity.TooLong Reading := do
  let (name, rest) := Text.cutAt endsName t
  let (gap, rest) := cutGap rest
  let before := (name ++ gap).getLast?.getD (.char '<')
  let (raw, source, rest) := attributesFrom rest.length before rest
  let size := 1 + name.length + gap.length + source.length
  match rest with
  | [] => return .incomplete
  | .char '>' :: _ =>
    return .whole ⟨name.lower, ← resolveAttributes raw, false⟩ (size + 1)
  | .char '/' :: .char '>' :: _ =>
    return .whole ⟨name.lower, ← resolveAttributes raw, true⟩ (size + 2)
  | g :: _ =>
    if g.isLetter || g = .char '=' || g = .char '/' then return .incomplete
    else
      let _ ← resolveAttributes raw
      return .broken size

end Tag
end HtmlDeps
