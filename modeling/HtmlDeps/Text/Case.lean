import HtmlDeps.Text.Basic
import HtmlDeps.Text.CaseTable

/-!
# Lowercase and uppercase text

ASCII letters move by 32; other characters follow the Unicode tables.  Two characters are not
settled by a table alone: `İ` becomes `i` with a combining dot, and a capital sigma becomes the
final sigma `ς` after a cased letter that no cased letter follows, case-ignorable characters
not counting.
-/

namespace HtmlDeps

/-- Whether a number lies in one of the inclusive ranges. -/
def inRanges (rs : List (Nat × Nat)) (n : Nat) : Bool := rs.any fun (a, b) => a ≤ n && n ≤ b

/-- The counterpart of a character by a list of case runs. -/
def shiftBy (rs : List Text.CaseRun) (c : Char) : Char :=
  match rs.find? (·.covers c.toNat) with
  | some r => Char.ofNat (c.toNat + r.shift).toNat
  | none => c

/-- The lowercase form of one character by itself. -/
def lowerChar (c : Char) : Char :=
  if c.toNat < 128 then c.toLower else shiftBy Text.lowerRuns c

/-- The uppercase form of one character, which may have several characters. -/
def upperChars (c : Char) : List Char :=
  if c.toNat < 128 then [c.toUpper]
  else
    match Text.upperExpansions.find? (·.1 == c.toNat) with
    | some (_, ns) => ns.map Char.ofNat
    | none => [shiftBy Text.upperRuns c]

namespace Glyph

/-- A cased letter that is not ignored in deciding about a final sigma. -/
def isCased : Glyph → Bool := holds fun c => inRanges Text.casedRanges c.toNat

/-- A character that is ignored in deciding about a final sigma. -/
def isCaseIgnorable : Glyph → Bool := holds fun c => inRanges Text.ignorableRanges c.toNat

end Glyph

namespace Text

/-- Whether the first glyph that is not case-ignorable is cased. -/
def meetsCased (t : Text) : Bool :=
  match t.dropWhile Glyph.isCaseIgnorable with
  | [] => false
  | g :: _ => g.isCased

/-- The loop of `lower`; `before` is the text already read, the last glyph first. -/
def lowerFrom (before : Text) : Text → Text
  | [] => []
  | .stray b :: r => .stray b :: lowerFrom (.stray b :: before) r
  | .char c :: r =>
    let rest := lowerFrom (.char c :: before) r
    if c = 'Σ' then
      .char (if meetsCased before && !meetsCased r then 'ς' else 'σ') :: rest
    else if c = 'İ' then .char 'i' :: .char '\u0307' :: rest
    else .char (lowerChar c) :: rest

def lower (t : Text) : Text := lowerFrom [] t

/-- An ASCII character that is no capital letter stays. -/
theorem mem_lowerFrom {c : Char} (hascii : c.toNat < 128) (hlower : c.toLower = c) {t : Text}
    (h : .char c ∈ t) (before : Text) : .char c ∈ lowerFrom before t := by
  induction t generalizing before with
  | nil => cases h
  | cons g r ih =>
    rcases List.mem_cons.1 h with rfl | hr
    · have hsigma : c ≠ 'Σ' := by
        rintro rfl
        exact absurd hascii (by decide)
      have hdotted : c ≠ 'İ' := by
        rintro rfl
        exact absurd hascii (by decide)
      simp [lowerFrom, lowerChar, hsigma, hdotted, hascii, hlower]
    · cases g with
      | stray b => exact List.mem_cons_of_mem _ (ih hr _)
      | char d =>
        simp only [lowerFrom]
        split
        · exact List.mem_cons_of_mem _ (ih hr _)
        · split
          · exact List.mem_cons_of_mem _ (List.mem_cons_of_mem _ (ih hr _))
          · exact List.mem_cons_of_mem _ (ih hr _)

def upper (t : Text) : Text :=
  t.flatMap fun
    | .char c => (upperChars c).map .char
    | .stray b => [.stray b]

end Text
end HtmlDeps
