import HtmlDeps.Path.Basic

/-!
# The order of texts and paths

Texts are ordered by their first differing glyph, and paths by their first differing part.  Both orders
are total.  That of paths needs that of texts to be antisymmetric too: it tells parts apart by equality,
not by the order.
-/

namespace HtmlDeps

namespace Text

variable {g h : Glyph} {t u v : Text}

theorem le_cons_iff :
    le (g :: t) (h :: u) = true ↔ g.code < h.code ∨ g = h ∧ le t u = true := by
  rw [le]
  split
  · rename_i hlt
    exact iff_of_true rfl (.inl hlt)
  · rename_i hge
    split
    · rename_i hgt
      refine iff_of_false nofun ?_
      rintro (hlt | ⟨rfl, -⟩)
      · exact hge hlt
      · exact Nat.lt_irrefl _ hgt
    · rename_i hle
      have heq : g = h :=
        Glyph.code_injective (Nat.le_antisymm (Nat.not_lt.1 hle) (Nat.not_lt.1 hge))
      simp [heq]

theorem le_trans (htu : le t u = true) (huv : le u v = true) : le t v = true := by
  induction t generalizing u v with
  | nil => rfl
  | cons g t ih =>
    cases u with
    | nil => exact absurd htu nofun
    | cons h u =>
      cases v with
      | nil => exact absurd huv nofun
      | cons i v =>
        rw [le_cons_iff] at *
        obtain hgh | ⟨rfl, htu⟩ := htu
        · obtain hhi | ⟨rfl, -⟩ := huv
          · exact .inl (Nat.lt_trans hgh hhi)
          · exact .inl hgh
        · obtain hgi | ⟨rfl, huv⟩ := huv
          · exact .inl hgi
          · exact .inr ⟨rfl, ih htu huv⟩

theorem le_antisymm (htu : le t u = true) (hut : le u t = true) : t = u := by
  induction t generalizing u with
  | nil =>
    cases u with
    | nil => rfl
    | cons h u => exact absurd hut nofun
  | cons g t ih =>
    cases u with
    | nil => exact absurd htu nofun
    | cons h u =>
      rw [le_cons_iff] at htu hut
      obtain hgh | ⟨rfl, htu⟩ := htu
      · obtain hhg | ⟨rfl, -⟩ := hut
        · exact absurd hhg (Nat.lt_asymm hgh)
        · exact absurd hgh (Nat.lt_irrefl _)
      · obtain hlt | ⟨-, hut⟩ := hut
        · exact absurd hlt (Nat.lt_irrefl _)
        · rw [ih htu hut]

theorem le_total (t u : Text) : le t u = true ∨ le u t = true := by
  induction t generalizing u with
  | nil => exact .inl rfl
  | cons g t ih =>
    cases u with
    | nil => exact .inr rfl
    | cons h u =>
      simp only [le_cons_iff]
      obtain hlt | heq | hgt := Nat.lt_trichotomy g.code h.code
      · exact .inl (.inl hlt)
      · obtain rfl := Glyph.code_injective heq
        exact (ih u).imp (fun hle => .inr ⟨rfl, hle⟩) fun hle => .inr ⟨rfl, hle⟩
      · exact .inr (.inl hgt)

end Text

namespace Path

variable {p q : Text} {ps qs rs : List Text}

theorem partsLe_cons_iff : partsLe (p :: ps) (q :: qs) = true ↔
    p ≠ q ∧ Text.le p q = true ∨ p = q ∧ partsLe ps qs = true := by
  rw [partsLe]
  split <;> simp [*]

theorem partsLe_trans (hpq : partsLe ps qs = true) (hqr : partsLe qs rs = true) :
    partsLe ps rs = true := by
  induction ps generalizing qs rs with
  | nil => rfl
  | cons p ps ih =>
    cases qs with
    | nil => exact absurd hpq nofun
    | cons q qs =>
      cases rs with
      | nil => exact absurd hqr nofun
      | cons r rs =>
        rw [partsLe_cons_iff] at *
        obtain ⟨hne, hpq⟩ | ⟨rfl, hpq⟩ := hpq
        · obtain ⟨-, hqr⟩ | ⟨rfl, -⟩ := hqr
          · -- A part that comes back after another one would be equal to it.
            refine .inl ⟨?_, Text.le_trans hpq hqr⟩
            rintro rfl
            exact hne (Text.le_antisymm hpq hqr)
          · exact .inl ⟨hne, hpq⟩
        · exact hqr.imp_right fun ⟨heq, hqr⟩ => ⟨heq, ih hpq hqr⟩

theorem partsLe_total (ps qs : List Text) : (partsLe ps qs || partsLe qs ps) = true := by
  rw [Bool.or_eq_true]
  induction ps generalizing qs with
  | nil => exact .inl rfl
  | cons p ps ih =>
    cases qs with
    | nil => exact .inr rfl
    | cons q qs =>
      simp only [partsLe_cons_iff]
      by_cases heq : p = q
      · exact (ih qs).imp (fun hle => .inr ⟨heq, hle⟩) fun hle => .inr ⟨heq.symm, hle⟩
      · exact (Text.le_total p q).imp (fun hle => .inl ⟨heq, hle⟩)
          fun hle => .inl ⟨Ne.symm heq, hle⟩

end Path

end HtmlDeps
