import HtmlDeps.Text.Case
import Mathlib.Data.List.Forall2

/-!
# Texts in another letter case

Which texts have a given lowercase form.  The names of settings are made of small letters and
underscores, and hold no `k`.  The lowercase form of a text is such a name exactly if the text is that
name in some mixture of small and capital ASCII letters (`Text.lower_eq_iff`).  The letter `k` is left
out because it is also the lowercase form of the Kelvin sign, the only character outside of ASCII that
becomes an ASCII letter by itself.
-/

namespace HtmlDeps

/-- A small ASCII letter other than `k`, or an underscore. -/
def Glyph.isPlain : Glyph → Bool :=
  Glyph.holds fun c => ('a' ≤ c && c ≤ 'z' || c = '_') && c ≠ 'k'

/-- The glyph with an ASCII letter made a capital. -/
def Glyph.capital : Glyph → Glyph
  | .char c => .char c.toUpper
  | g => g

namespace Text

/-- The first text is the second one with some of its letters made capitals. -/
def InCaseOf : Text → Text → Prop := List.Forall₂ fun g h => g = h ∨ g = h.capital

instance : DecidableRel InCaseOf := fun s t =>
  inferInstanceAs (Decidable (List.Forall₂ (fun g h : Glyph => g = h ∨ g = h.capital) s t))

/-! ### ASCII letters -/

theorem toNat_of_isPlain {c : Char} (h : (Glyph.char c).isPlain) :
    95 ≤ c.toNat ∧ c.toNat < 128 ∧ c.toNat ≠ 107 := by
  simp only [Glyph.isPlain, Glyph.holds, Bool.and_eq_true, Bool.or_eq_true, decide_eq_true_eq] at h
  obtain ⟨hrange, hk⟩ := h
  have hne : c.toNat ≠ 107 := by
    intro heq
    apply hk
    rw [← Char.ofNat_toNat c, heq]
  rcases hrange with ⟨hlow, hhigh⟩ | rfl
  · have hlow : 97 ≤ c.toNat := hlow
    have hhigh : c.toNat ≤ 122 := hhigh
    omega
  · decide

theorem toLower_of_isPlain {c : Char} (h : (Glyph.char c).isPlain) :
    c.toLower = c ∧ c.toUpper.toLower = c ∧ c.toUpper.toNat < 128 := by
  have hall : ∀ n < 128, (Glyph.char (Char.ofNat n)).isPlain → (Char.ofNat n).toLower = Char.ofNat n ∧
      (Char.ofNat n).toUpper.toLower = Char.ofNat n ∧ (Char.ofNat n).toUpper.toNat < 128 := by
    decide
  have hc := hall c.toNat (toNat_of_isPlain h).2.1
  rw [Char.ofNat_toNat] at hc
  exact hc h

theorem eq_or_eq_toUpper {c : Char} (h : c.toNat < 128) : c = c.toLower ∨ c = c.toLower.toUpper := by
  have hall : ∀ n < 128, Char.ofNat n = (Char.ofNat n).toLower ∨
      Char.ofNat n = (Char.ofNat n).toLower.toUpper := by
    decide
  have hc := hall c.toNat h
  rwa [Char.ofNat_toNat] at hc

/-! ### Characters outside of ASCII -/

/-- A run that lies outside of ASCII leads outside of it, but for the Kelvin sign. -/
theorem lowerRuns_far : ∀ r ∈ lowerRuns, r.last < 128 ∨ 128 ≤ r.first + r.shift ∨
    r.first = r.last ∧ r.first + r.shift = 107 := by
  decide +kernel

theorem toNat_ofNat_eq (n : Nat) : (Char.ofNat n).toNat = n ∨ (Char.ofNat n).toNat = 0 := by
  by_cases h : n.isValidChar
  · left
    rw [Char.ofNat, dif_pos h]
    rfl
  · right
    rw [Char.ofNat, dif_neg h]
    rfl

theorem not_isPlain_shiftBy {c : Char} (hc : ¬ c.toNat < 128) :
    ¬ (Glyph.char (shiftBy lowerRuns c)).isPlain := by
  intro hplain
  obtain ⟨hlow, hhigh, hk⟩ := toNat_of_isPlain hplain
  unfold shiftBy at hlow hhigh hk
  split at hlow
  · rename_i r hfind
    simp only [hfind] at hhigh hk
    have hcovers := List.find?_some hfind
    simp only [CaseRun.covers, Bool.and_eq_true, decide_eq_true_eq] at hcovers
    have hfar := lowerRuns_far r (List.mem_of_find?_eq_some hfind)
    have hnat := toNat_ofNat_eq (c.toNat + r.shift).toNat
    omega
  · rename_i hfind
    simp only [hfind] at hhigh
    exact hc hhigh

/-! ### Lowercase forms -/

theorem lowerFrom_of_inCaseOf {s t : Text} (h : s.InCaseOf t) (ht : ∀ g ∈ t, g.isPlain) (before : Text) :
    lowerFrom before s = t := by
  induction h generalizing before with
  | nil => rfl
  | cons hgh hst ih =>
    rename_i g h s t
    rw [List.forall_mem_cons] at ht
    obtain ⟨hplain, ht⟩ := ht
    cases h with
    | stray b => cases hplain
    | char c =>
      obtain ⟨hsame, hcapital, hascii⟩ := toLower_of_isPlain hplain
      obtain ⟨d, rfl, hd, hlower⟩ : ∃ d, g = .char d ∧ d.toNat < 128 ∧ d.toLower = c := by
        rcases hgh with rfl | rfl
        · exact ⟨c, rfl, (toNat_of_isPlain hplain).2.1, hsame⟩
        · exact ⟨c.toUpper, rfl, hascii, hcapital⟩
      have hsigma : d ≠ 'Σ' := by
        rintro rfl
        exact absurd hd (by decide)
      have hdotted : d ≠ 'İ' := by
        rintro rfl
        exact absurd hd (by decide)
      simp only [lowerFrom, if_neg hsigma, if_neg hdotted, lowerChar, if_pos hd, hlower, ih ht]

theorem inCaseOf_of_lowerFrom {s t : Text} {before : Text} (h : lowerFrom before s = t)
    (ht : ∀ g ∈ t, g.isPlain) : s.InCaseOf t := by
  induction s generalizing t before with
  | nil =>
    subst h
    exact .nil
  | cons g s ih =>
    subst h
    cases g with
    | stray b => exact absurd (ht _ List.mem_cons_self) (by simp [Glyph.isPlain, Glyph.holds])
    | char c =>
      simp only [lowerFrom] at ht ⊢
      split at ht
      · -- neither form of the small sigma is plain
        have hhead := ht _ List.mem_cons_self
        split at hhead <;> exact absurd hhead (by decide)
      · split at ht
        · exact absurd (ht _ (List.mem_cons_of_mem _ List.mem_cons_self)) (by decide)
        · rename_i hsigma hdotted
          rw [if_neg hsigma, if_neg hdotted]
          rw [List.forall_mem_cons] at ht
          refine .cons ?_ (ih rfl ht.2)
          by_cases hc : c.toNat < 128
          · rw [lowerChar, if_pos hc]
            exact (eq_or_eq_toUpper hc).imp (congrArg _) (congrArg _)
          · have hplain := ht.1
            rw [lowerChar, if_neg hc] at hplain
            exact absurd hplain (not_isPlain_shiftBy hc)

/-- A plain name is the lowercase form of its own spellings only. -/
theorem lower_eq_iff {s t : Text} (ht : ∀ g ∈ t, g.isPlain) : s.lower = t ↔ s.InCaseOf t :=
  ⟨fun h => inCaseOf_of_lowerFrom h ht, fun h => lowerFrom_of_inCaseOf h ht []⟩

end Text
end HtmlDeps
