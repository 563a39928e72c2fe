import Mathlib.Data.List.Basic
import HtmlDeps.Text.Utf8

/-!
# Texts that survive their bytes

A text is faithful if decoding its bytes gives the text back.  Every decoded text is faithful
(`faithful_decode`), and so are its prefixes and suffixes.  Two faithful texts can be glued together
where an ASCII character stands at the seam (`Faithful.glue`), since no encoding of a character
reaches across it.  Elsewhere stray bytes of the one text may spell a character with those of the
other.
-/

namespace HtmlDeps.Text

/-! ### The character that bytes start with -/

/-- The size of an encoding, told from the number of its first byte. -/
theorem encodedSize_eq (b : UInt8) :
    encodedSize b =
      if b.toNat < 192 then 1 else if b.toNat < 224 then 2 else if b.toNat < 240 then 3 else 4 := by
  simp [encodedSize, UInt8.lt_iff_toNat_lt]

theorem toNat_ofNat_of_lt {n : Nat} (h : n < 256) : (UInt8.ofNat n).toNat = n := by
  rw [UInt8.toNat_ofNat', Nat.mod_eq_of_lt h]

/-- The bytes of a character give its number back, whatever follows them. -/
theorem leadingNumber_append {c : Char} {b : UInt8} {bs : Bytes}
    (h : String.utf8EncodeChar c = b :: bs) (rest : Bytes) :
    leadingNumber b (bs ++ rest) = c.toNat := by
  have hmax : c.toNat < 0x110000 := by
    rcases c.valid with hv | hv
    · exact Nat.lt_trans hv (by decide)
    · exact hv.2
  have hval : c.val.toNat = c.toNat := rfl
  simp only [String.utf8EncodeChar, hval] at h  -- one case for each size of an encoding
  split at h
  · obtain ⟨rfl, rfl⟩ := List.cons.inj h
    have hb := @toNat_ofNat_of_lt c.toNat (by omega)
    have hsize : encodedSize (UInt8.ofNat c.toNat) = 1 := by
      rw [encodedSize_eq, hb, if_pos (by omega)]
    simp only [leadingNumber, hsize, if_true, hb, Nat.sub_self, List.take_zero, List.foldl_nil]
  · split at h
    · obtain ⟨rfl, rfl⟩ := List.cons.inj h
      have hb := @toNat_ofNat_of_lt (c.toNat / 64 % 32 + 192) (by omega)
      have hx := @toNat_ofNat_of_lt (c.toNat % 64 + 128) (by omega)
      have hsize : encodedSize (UInt8.ofNat (c.toNat / 64 % 32 + 192)) = 2 := by
        rw [encodedSize_eq, hb, if_neg (by omega), if_pos (by omega)]
      simp [leadingNumber, hsize, hb, hx, -UInt8.ofNat_add, -UInt8.toNat_ofNat']
      omega
    · split at h
      · obtain ⟨rfl, rfl⟩ := List.cons.inj h
        have hb := @toNat_ofNat_of_lt (c.toNat / 4096 % 16 + 224) (by omega)
        have hx := @toNat_ofNat_of_lt (c.toNat / 64 % 64 + 128) (by omega)
        have hy := @toNat_ofNat_of_lt (c.toNat % 64 + 128) (by omega)
        have hsize : encodedSize (UInt8.ofNat (c.toNat / 4096 % 16 + 224)) = 3 := by
          rw [encodedSize_eq, hb, if_neg (by omega), if_neg (by omega), if_pos (by omega)]
        simp [leadingNumber, hsize, hb, hx, hy, -UInt8.ofNat_add, -UInt8.toNat_ofNat']
        omega
      · obtain ⟨rfl, rfl⟩ := List.cons.inj h
        have hb := @toNat_ofNat_of_lt (c.toNat / 262144 % 8 + 240) (by omega)
        have hx := @toNat_ofNat_of_lt (c.toNat / 4096 % 64 + 128) (by omega)
        have hy := @toNat_ofNat_of_lt (c.toNat / 64 % 64 + 128) (by omega)
        have hz := @toNat_ofNat_of_lt (c.toNat % 64 + 128) (by omega)
        have hsize : encodedSize (UInt8.ofNat (c.toNat / 262144 % 8 + 240)) = 4 := by
          rw [encodedSize_eq, hb, if_neg (by omega), if_neg (by omega), if_neg (by omega)]
        simp [leadingNumber, hsize, hb, hx, hy, hz, -UInt8.ofNat_add, -UInt8.toNat_ofNat']
        omega

/-- Bytes start with a character exactly if they start with its encoding. -/
theorem leadingChar?_eq_some {b : UInt8} {bs : Bytes} {c : Char} :
    leadingChar? b bs = some c ↔ String.utf8EncodeChar c <+: b :: bs := by
  constructor
  · exact encode_of_leadingChar?
  · rintro ⟨rest, hrest⟩
    cases hc : String.utf8EncodeChar c with
    | nil => exact absurd hc String.utf8EncodeChar_ne_nil
    | cons x xs =>
      rw [hc, List.cons_append, List.cons.injEq] at hrest
      obtain ⟨rfl, rfl⟩ := hrest
      have hnumber : Char.ofNat (leadingNumber x (xs ++ rest)) = c := by
        rw [leadingNumber_append hc rest]
        exact Char.ofNat_toNat c
      have hprefix : (String.utf8EncodeChar c).isPrefixOf (x :: (xs ++ rest)) = true := by
        rw [List.isPrefixOf_iff_prefix, hc]
        exact ⟨rest, rfl⟩
      rw [leadingChar?, hnumber, if_pos hprefix]

theorem leadingChar?_eq_none {b : UInt8} {bs : Bytes} :
    leadingChar? b bs = none ↔ ∀ c, ¬ String.utf8EncodeChar c <+: b :: bs := by
  rw [Option.eq_none_iff_forall_ne_some]
  exact forall_congr' fun c => not_congr leadingChar?_eq_some

/-- All bytes of an encoding but the first are above ASCII. -/
theorem le_of_mem_tail_utf8EncodeChar {c : Char} {x : UInt8}
    (h : x ∈ (String.utf8EncodeChar c).tail) : 128 ≤ x.toNat := by
  simp only [String.utf8EncodeChar] at h
  split at h
  · simp at h
  · split at h
    · rw [List.tail_cons, List.mem_singleton] at h
      rw [h, toNat_ofNat_of_lt (by omega)]
      omega
    · split at h
      · simp only [List.tail_cons, List.mem_cons, List.not_mem_nil, or_false] at h
        rcases h with rfl | rfl <;> rw [toNat_ofNat_of_lt (by omega)] <;> omega
      · simp only [List.tail_cons, List.mem_cons, List.not_mem_nil, or_false] at h
        rcases h with rfl | rfl | rfl <;> rw [toNat_ofNat_of_lt (by omega)] <;> omega

/-! ### Decoding glyph by glyph -/

theorem decodeFrom_eq_decode_drop (skip : Nat) (bs : Bytes) :
    decodeFrom skip bs = decode (bs.drop skip) := by
  induction bs generalizing skip with
  | nil => cases skip <;> rfl
  | cons b bs ih =>
    cases skip with
    | zero => rfl
    | succ skip => exact ih skip

theorem decode_utf8EncodeChar_append (c : Char) (bs : Bytes) :
    decode (String.utf8EncodeChar c ++ bs) = .char c :: decode bs := by
  cases hc : String.utf8EncodeChar c with
  | nil => exact absurd hc String.utf8EncodeChar_ne_nil
  | cons x xs =>
    have hlead : leadingChar? x (xs ++ bs) = some c :=
      leadingChar?_eq_some.2 ⟨bs, by rw [hc]; rfl⟩
    simp only [decode, List.cons_append, decodeFrom, hlead]
    rw [decodeFrom_eq_decode_drop, hc]
    simp [decode]

theorem decode_stray {b : UInt8} {bs : Bytes} (h : leadingChar? b bs = none) :
    decode (b :: bs) = .stray b :: decode bs := by
  simp only [decode, decodeFrom, h]

/-! ### Faithful texts -/

/-- Decoding the bytes of the text gives the text back. -/
def Faithful (t : Text) : Prop := decode (encode t) = t

theorem faithful_decode (bs : Bytes) : Faithful (decode bs) := by
  rw [Faithful, encode_decode]

theorem faithful_nil : Faithful [] := rfl

theorem faithful_char_cons {c : Char} {t : Text} :
    Faithful (.char c :: t) ↔ Faithful t := by
  rw [Faithful, encode_cons, Glyph.encode, decode_utf8EncodeChar_append]
  simp [Faithful]

/-- A stray byte in front must not spell a character with the bytes after it. -/
theorem faithful_stray_cons {b : UInt8} {t : Text} :
    Faithful (.stray b :: t) ↔
      (∀ c, ¬ String.utf8EncodeChar c <+: b :: encode t) ∧ Faithful t := by
  constructor
  · intro h
    cases hlead : leadingChar? b (encode t) with
    | none =>
      refine ⟨leadingChar?_eq_none.1 hlead, ?_⟩
      rw [Faithful, encode_cons, Glyph.encode, List.singleton_append, decode_stray hlead] at h
      exact (List.cons.inj h).2
    | some c =>
      simp [Faithful, encode_cons, Glyph.encode, decode, decodeFrom, hlead] at h
  · rintro ⟨hb, ht⟩
    rw [Faithful, encode_cons, Glyph.encode, List.singleton_append,
      decode_stray (leadingChar?_eq_none.2 hb), ht]

theorem Faithful.of_append_right {s t : Text} (h : Faithful (s ++ t)) : Faithful t := by
  induction s with
  | nil => exact h
  | cons g s ih =>
    cases g with
    | char c => exact ih (faithful_char_cons.1 h)
    | stray b => exact ih (faithful_stray_cons.1 h).2

theorem Faithful.of_append_left {s t : Text} (h : Faithful (s ++ t)) : Faithful s := by
  induction s with
  | nil => exact faithful_nil
  | cons g s ih =>
    cases g with
    | char c => exact faithful_char_cons.2 (ih (faithful_char_cons.1 h))
    | stray b =>
      obtain ⟨hb, hrest⟩ := faithful_stray_cons.1 h
      refine faithful_stray_cons.2 ⟨fun c hc => hb c ?_, ih hrest⟩
      change String.utf8EncodeChar c <+: b :: encode (s ++ t)
      rw [encode_append]
      exact hc.trans ⟨encode t, rfl⟩

theorem Faithful.take {t : Text} (h : Faithful t) (n : Nat) : Faithful (t.take n) :=
  Faithful.of_append_left (t := t.drop n) (by rwa [List.take_append_drop])

theorem Faithful.drop {t : Text} (h : Faithful t) (n : Nat) : Faithful (t.drop n) :=
  Faithful.of_append_right (s := t.take n) (by rwa [List.take_append_drop])

/-- An ASCII character separates two faithful texts. -/
theorem Faithful.glue {s t : Text} {a : Char} (ha : a.toNat < 128) (hs : Faithful s)
    (ht : Faithful t) : Faithful (s ++ .char a :: t) := by
  induction s with
  | nil => exact faithful_char_cons.2 ht
  | cons g s ih =>
    cases g with
    | char c => exact faithful_char_cons.2 (ih (faithful_char_cons.1 hs))
    | stray b =>
      obtain ⟨hb, hs⟩ := faithful_stray_cons.1 hs
      refine faithful_stray_cons.2 ⟨fun c hc => ?_, ih hs⟩
      have hbytes : String.utf8EncodeChar a = [UInt8.ofNat a.toNat] := by
        have hv : a.val.toNat ≤ 127 := Nat.le_of_lt_succ ha
        simp only [String.utf8EncodeChar, if_pos hv]
        rfl
      have hsplit : b :: encode (s ++ .char a :: t) =
          (b :: encode s) ++ UInt8.ofNat a.toNat :: encode t := by
        simp [Glyph.encode, hbytes]
      change String.utf8EncodeChar c <+: b :: encode (s ++ .char a :: t) at hc
      rw [hsplit] at hc
      rcases List.prefix_or_prefix_of_prefix hc ⟨_, rfl⟩ with hshort | ⟨r, hr⟩
      · exact hb c hshort
      · -- the encoding would go on with the byte of `a`
        cases r with
        | nil => exact hb c ⟨[], by rw [← hr]; simp⟩
        | cons y r =>
          rw [← hr, List.prefix_append_right_inj] at hc
          obtain ⟨rest, hrest⟩ := hc
          have hy : y = UInt8.ofNat a.toNat := (List.cons.inj hrest).1
          have hmem : y ∈ (String.utf8EncodeChar c).tail := by
            rw [← hr]
            simp
          have hle := le_of_mem_tail_utf8EncodeChar hmem
          rw [hy, toNat_ofNat_of_lt (by omega)] at hle
          omega

end HtmlDeps.Text
