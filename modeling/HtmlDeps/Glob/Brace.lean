import HtmlDeps.Text.Basic

/-!
# Braces in patterns

A pattern with braces stands for several patterns: `{a,b}` for either item, `{1..3}` and `{a..c}` for
a sequence, possibly with a step.  Groups nest.  A group without comma and sequence stays as it is, a
backslash protects the next glyph, and `${` starts no group.

Expansions are computed up to one more than `maxExpansions`, which is enough to tell that there are
too many.

This belongs to `Glob.accepts`, which stands for the library behind `glob_match`.
-/

namespace HtmlDeps.Glob

/-- How many patterns one pattern may stand for. -/
def maxExpansions : Nat := 1000

namespace Brace

/-- The first texts of a list, one more than there may be. -/
def bounded (ts : List Text) : List Text := ts.take (maxExpansions + 1)

/-- The first `n` texts made of one of the first list and one of the second. -/
def products : Nat → List Text → List Text → List Text
  | _, [], _ => []
  | n, x :: xs, ys =>
    let here := (ys.take n).map (x ++ ·)
    if n ≤ here.length then here else here ++ products (n - here.length) xs ys

/-- The texts made of one of the first list and one of the second. -/
def squash (xs ys : List Text) : List Text := products (maxExpansions + 1) xs ys

/-! ### Sequences -/

/-- An integer at the start of a text, as written, and the rest. -/
def integer? (t : Text) : Option (Text × Text) :=
  let (sign, r) : Text × Text := match t with
    | .char '-' :: r => ([.char '-'], r)
    | _ => ([], t)
  let (digits, rest) := Text.cutAt (fun g => !g.isDigit) r
  if digits.isEmpty then none else some (sign ++ digits, rest)

def integerValue : Text → Int
  | .char '-' :: r => Int.negOfNat (Text.decimal r)
  | t => Text.decimal t

/-- The step at the end of a sequence, if it has one, and what follows the closing brace. -/
def stepAndClose? (t : Text) : Option (Option Int × Text) :=
  match t with
  | .char '\x7d' :: r => some (none, r)
  | .char '.' :: .char '.' :: r =>
    match integer? r with
    | some (n, .char '\x7d' :: r) => some (some (integerValue n), r)
    | _ => none
  | _ => none

/-- Whether a written integer has a leading zero. -/
def hasLeadingZero (t : Text) : Bool :=
  let digits := t.dropLeading (.char '-')
  digits.head? == some (.char '0') && 1 < digits.length

/-- An integer with at least `width` glyphs, zeros standing after the sign. -/
def paddedInteger (width : Nat) (n : Int) : Text :=
  if n < 0 then .char '-' :: Text.padded n.natAbs (width - 1) else Text.padded n.natAbs width

/-- The integers from `a` to `b` in steps of `step`, up or down. -/
def integers (a b : Int) (step : Nat) : List Int :=
  let count := min ((b - a).natAbs / step + 1) (maxExpansions + 1)
  (List.range count).map fun i =>
    if a < b then a + (i * step : Nat) else a - (i * step : Nat)

/-- The letters that sequences run over; the backslash among them counts as nothing. -/
def letter (n : Nat) : Text := if n = 0x5C then [] else [.char (Char.ofNat n)]

/-- The size of a step; zero counts as one. -/
def stepSize (s : Option Int) : Nat :=
  match s.getD 1 with
  | 0 => 1
  | n => n.natAbs

/-- A sequence of integers at the start of a text that follows an opening brace. -/
def integerSequence? (t : Text) : Option (List Text × Text) :=
  match integer? t with
  | some (a, .char '.' :: .char '.' :: r) =>
    match integer? r with
    | some (b, r) =>
      (stepAndClose? r).map fun (step, rest) =>
        let width := if hasLeadingZero a || hasLeadingZero b then max a.length b.length else 0
        ((integers (integerValue a) (integerValue b) (stepSize step)).map (paddedInteger width), rest)
    | none => none
  | _ => none

/-- A sequence of letters at the start of a text that follows an opening brace. -/
def letterSequence? (t : Text) : Option (List Text × Text) :=
  match t with
  | a :: .char '.' :: .char '.' :: b :: r =>
    if a.isLetter && b.isLetter then
      (stepAndClose? r).map fun (step, rest) =>
        ((integers a.code b.code (stepSize step)).map fun n => letter n.toNat, rest)
    else none
  | _ => none

/-- A sequence at the start of a text that follows an opening brace. -/
def sequence? (t : Text) : Option (List Text × Text) :=
  match integerSequence? t with
  | some s => some s
  | none => letterSequence? t

/-! ### Groups -/

mutual
/-- Reads text with groups in it, up to the end or, `inside` a group, up to the comma or brace that
ends the item.  `acc` holds the expansions so far, `dollar` says that a dollar sign came last, and
`total` is the length of the whole pattern.  Fails if the text ends inside a group. -/
def literals (total : Nat) : Nat → Nat → Bool → List Text → Bool → Text →
    Option (List Text × Text)
  | 0, _, _, _, _, _ => none
  | _ + 1, _, inside, acc, _, [] => if inside then none else some (acc, [])
  | fuel + 1, depth, inside, acc, dollar, g :: r =>
    if g = .char '$' then literals total fuel depth inside (squash acc [[g]]) true r
    else if g = .char '\\' then
      literals total fuel depth inside (squash acc [g :: r.take 1]) false (r.drop 1)
    else if !dollar && g = .char '\x7b' then
      match group total fuel (depth + 1) r with
      | some (items, rest) => literals total fuel depth inside (squash acc items) false rest
      | none => literals total fuel depth inside (squash acc [[g]]) false r
    else if inside && (g = .char ',' || g = .char '\x7d') then some (acc, g :: r)
    else literals total fuel depth inside (squash acc [[g]]) false r

/-- Reads a group after its opening brace. -/
def group (total : Nat) : Nat → Nat → Text → Option (List Text × Text)
  | 0, _, _ => none
  | fuel + 1, depth, t =>
    match sequence? t with
    | some s => some s
    | none => items total fuel depth none false true t

/-- Reads the items of a group and its closing brace.  `acc` holds the items so far, if there are
any; `comma` says that a comma has been read, and `empty` that the present item has nothing yet.  At
depth 1 a closing brace without a comma before it belongs to the item, unless the pattern starts with
an empty group. -/
def items (total : Nat) : Nat → Nat → Option (List Text) → Bool → Bool → Text →
    Option (List Text × Text)
  | 0, _, _, _, _, _ => none
  | _ + 1, _, _, _, _, [] => none
  | fuel + 1, depth, acc, comma, empty, g :: r =>
    let there := acc.getD []
    if g = .char '\x7d' && !(depth = 1 && !comma && total - r.length ≠ 2) then
      let all := if empty then bounded (there ++ [[]]) else there
      let all := if comma then all
        else all.map fun x => .char '\x7b' :: (x ++ [.char '\x7d'])
      some (all, r)
    else if g = .char ',' then
      items total fuel depth (some (if empty then bounded (there ++ [[]]) else there)) true true r
    else if g = .char '\x7d' then
      let here := if acc.isNone then [[g]] else squash there [[g]]
      match literals total fuel depth true [[]] false r with
      | some (more, rest) => items total fuel depth (some (squash here more)) comma false rest
      | none => none
    else
      match literals total fuel depth true [[]] false (g :: r) with
      | some (more, rest) =>
        items total fuel depth (some (bounded (there ++ more))) comma false rest
      | none => none
end

/-- The texts without the empty ones at the end; if all are empty, the empty one. -/
def withoutTrailingEmpty (ts : List Text) : List Text :=
  match (ts.reverse.dropWhile (·.isEmpty)).reverse with
  | [] => [[]]
  | ts => ts

/-- The patterns that a pattern stands for, or `none` if there are too many. -/
def expand? (t : Text) : Option (List Text) :=
  let all := match literals t.length (3 * t.length + 3) 0 false [[]] false t with
    | some (ts, _) => ts
    | none => [t]
  if maxExpansions < all.length then none else some (withoutTrailingEmpty all)

end Brace
end HtmlDeps.Glob
