/-!
# Text whose bytes need not decode

The documents, paths and URLs of a project come from bytes that claim to be UTF-8 and sometimes
are not.  A `Text` is a list of `Glyph`s: a glyph is a character, or a single byte that did not
decode and is kept as it was.  Every offset, line and column of this library counts glyphs.

Glyphs are ordered by `Glyph.code`, which files a stray byte `b` under the number `0xDC00 + b`,
a number that no character has; `code_injective` says the filing loses nothing.
-/

namespace HtmlDeps

/-- The contents of a file. -/
abbrev Bytes := List UInt8

/-- One unit of text: a character, or a byte that is not part of any. -/
inductive Glyph where
  | char (c : Char)
  | stray (b : UInt8)
deriving DecidableEq, Repr, Inhabited

namespace Glyph

instance : Coe Char Glyph := ⟨.char⟩

/-- The number under which a glyph is ordered. -/
def code : Glyph → Nat
  | .char c => c.toNat
  | .stray b => 0xDC00 + b.toNat

/-- Whether a glyph is a character with property `p`; a stray byte has none. -/
def holds (p : Char → Bool) : Glyph → Bool
  | .char c => p c
  | .stray _ => false

def isDigit : Glyph → Bool := holds Char.isDigit

def isLetter : Glyph → Bool := holds Char.isAlpha

def isAlphanum : Glyph → Bool := holds Char.isAlphanum

def hexValue? : Glyph → Option Nat
  | .char c =>
    if '0' ≤ c && c ≤ '9' then some (c.toNat - '0'.toNat)
    else if 'a' ≤ c && c ≤ 'f' then some (c.toNat - 'a'.toNat + 10)
    else if 'A' ≤ c && c ≤ 'F' then some (c.toNat - 'A'.toNat + 10)
    else none
  | .stray _ => none

def isHexDigit (g : Glyph) : Bool := g.hexValue?.isSome

theorem code_injective {g h : Glyph} (e : g.code = h.code) : g = h := by
  cases g with
  | char c =>
    cases h with
    | char d => exact congrArg Glyph.char (Char.toNat_inj.1 e)
    | stray b =>
      have hb : b.toNat < 256 := b.toNat_lt
      have hc := c.valid
      simp only [code, Char.toNat] at e
      rcases hc with hc | hc
      · exact absurd e (by omega)
      · exact absurd e (by omega)
  | stray b =>
    cases h with
    | char c =>
      have hb : b.toNat < 256 := b.toNat_lt
      have hc := c.valid
      simp only [code, Char.toNat] at e
      rcases hc with hc | hc
      · exact absurd e (by omega)
      · exact absurd e (by omega)
    | stray c =>
      have : b.toNat = c.toNat := by simp only [code] at e; omega
      exact congrArg Glyph.stray (UInt8.toNat_inj.1 this)

end Glyph

/-- A sequence of glyphs. -/
abbrev Text := List Glyph

namespace Text

/-- The glyphs of a string, all of them characters. -/
def ofString (s : String) : Text := s.toList.map .char

instance : Coe String Text := ⟨ofString⟩

/-- The glyphs of a literal, whose bytes need not be decoded for that. -/
theorem ofString_ofList (cs : List Char) : ofString (String.ofList cs) = cs.map .char := by
  rw [ofString, String.toList_ofList]

/-- The characters of a text, if it holds no stray byte. -/
def chars? : Text → Option (List Char)
  | [] => some []
  | .char c :: r => (chars? r).map (c :: ·)
  | .stray _ :: _ => none

/-- The string with the same characters, if there is one. -/
def string? (t : Text) : Option String := (chars? t).map String.ofList

def ofNat (n : Nat) : Text := (Nat.toDigits 10 n).map .char

/-- The decimal digits of an integer, after a minus sign if it is negative. -/
def ofInt : Int → Text
  | .ofNat n => ofNat n
  | .negSucc n => .char '-' :: ofNat (n + 1)

/-- `padded n w` has at least `w` digits, with zeros in front. -/
def padded (n w : Nat) : Text :=
  let digits := ofNat n
  List.replicate (w - digits.length) (.char '0') ++ digits

/-- Lexicographic order by `Glyph.code`. -/
def le : Text → Text → Bool
  | [], _ => true
  | _ :: _, [] => false
  | g :: r, h :: s => if g.code < h.code then true else if h.code < g.code then false else le r s

def sorted (ts : List Text) : List Text := ts.mergeSort le

/-- The pieces of a text between the separators `g`: one more than there are separators. -/
def split (g : Glyph) : Text → List Text
  | [] => [[]]
  | x :: r =>
    if x = g then [] :: split g r
    else
      match split g r with
      | [] => [[x]]
      | p :: ps => (x :: p) :: ps

/-- What follows `p` at the start of a text. -/
def after? : Text → Text → Option Text
  | [], t => some t
  | _ :: _, [] => none
  | x :: p, y :: t => if x = y then after? p t else none

def startsWith (t p : Text) : Bool := (after? p t).isSome

/-- The texts, one after the other with `sep` in between. -/
def join (sep : Text) (ts : List Text) : Text := List.intercalate sep ts

/-- The text with every glyph `g` turned into `h`. -/
def replace (g h : Glyph) (t : Text) : Text := t.map fun x => if x = g then h else x

/-- The part before the first glyph with `p`, and the rest, which starts with that glyph. -/
def cutAt (p : Glyph → Bool) (t : Text) : Text × Text :=
  (t.takeWhile fun x => !p x, t.dropWhile fun x => !p x)

/-- The text without leading glyphs `g`. -/
def dropLeading (g : Glyph) (t : Text) : Text := t.dropWhile (· == g)

/-- The text without trailing glyphs with `p`. -/
def dropTrailing (p : Glyph → Bool) (t : Text) : Text := (t.reverse.dropWhile p).reverse

/-- The part before the last glyph with `p` and the part after it, if there is one. -/
def cutLast? (p : Glyph → Bool) (t : Text) : Option (Text × Text) :=
  match t.reverse.dropWhile fun x => !p x with
  | [] => none
  | _ :: before => some (before.reverse, (t.reverse.takeWhile fun x => !p x).reverse)

def isAscii (t : Text) : Bool := t.all fun g => g.code < 128

/-- The number that a run of decimal digits writes; other glyphs count as nothing. -/
def decimal (t : Text) : Nat :=
  t.foldl (fun n g => match g with
    | .char c => if c.isDigit then n * 10 + (c.toNat - '0'.toNat) else n
    | .stray _ => n) 0

/-- The number that a run of digits writes in base `b`, by hexadecimal digit values. -/
def inBase (b : Nat) (t : Text) : Nat :=
  t.foldl (fun n g => n * b + g.hexValue?.getD 0) 0

/-! ### Laws of splitting and cutting -/

theorem split_ne_nil (g : Glyph) (t : Text) : split g t ≠ [] := by
  cases t with
  | nil => simp [split]
  | cons x r =>
    simp only [split]
    split
    · simp
    · split <;> simp

/-- Putting the separators back gives the text. -/
theorem join_split (g : Glyph) (t : Text) : join [g] (split g t) = t := by
  induction t with
  | nil => rfl
  | cons x r ih =>
    simp only [split]
    split
    · rename_i h
      subst h
      cases hs : split x r with
      | nil => exact absurd hs (split_ne_nil x r)
      | cons p ps =>
        rw [hs] at ih
        simpa [join, List.intercalate] using ih
    · cases hs : split g r with
      | nil => exact absurd hs (split_ne_nil g r)
      | cons p ps =>
        rw [hs] at ih
        cases ps with
        | nil => simpa [join, List.intercalate] using ih
        | cons q qs => simpa [join, List.intercalate] using ih

theorem not_mem_of_mem_split {g : Glyph} {t p : Text} (h : p ∈ split g t) : g ∉ p := by
  induction t generalizing p with
  | nil =>
    simp only [split, List.mem_singleton] at h
    simp [h]
  | cons x r ih =>
    simp only [split] at h
    split at h
    · rcases List.mem_cons.1 h with rfl | h
      · simp
      · exact ih h
    · rename_i hx
      cases hs : split g r with
      | nil => exact absurd hs (split_ne_nil g r)
      | cons q qs =>
        rw [hs] at h
        rcases List.mem_cons.1 h with rfl | h
        · have := ih (hs ▸ List.mem_cons_self)
          simp only [List.mem_cons, not_or]
          exact ⟨fun e => hx e.symm, this⟩
        · exact ih (hs ▸ List.mem_cons_of_mem _ h)

theorem after?_eq_some {p t r : Text} : after? p t = some r ↔ t = p ++ r := by
  induction p generalizing t with
  | nil => simp [after?, eq_comm]
  | cons x p ih =>
    cases t with
    | nil => simp [after?]
    | cons y t =>
      simp only [after?, List.cons_append, List.cons.injEq]
      by_cases h : x = y
      · simp [h, ih]
      · simp [h, eq_comm]

@[simp] theorem cutAt_append (p : Glyph → Bool) (t : Text) : (cutAt p t).1 ++ (cutAt p t).2 = t :=
  List.takeWhile_append_dropWhile

end Text
end HtmlDeps
