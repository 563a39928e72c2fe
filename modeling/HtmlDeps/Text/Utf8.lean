import HtmlDeps.Text.Basic

/-!
# UTF-8 that loses no byte

`decode` reads a character wherever the bytes are the encoding of one, and keeps any other byte
as a stray glyph; `encode` writes characters in UTF-8 and stray bytes as they are.  The main
statement is `encode_decode`: decoding and encoding again gives the very same bytes, whatever
they were.  The converse fails in general: stray bytes that lie side by side may spell a character.

Two further readings serve where the bytes of a text have to be valid (`decodeStrict?`) and where
an invalid piece is shown as the replacement character (`decodeReplacing`).
-/

namespace HtmlDeps

def Glyph.encode : Glyph → Bytes
  | .char c => String.utf8EncodeChar c
  | .stray b => [b]

namespace Text

def encode (t : Text) : Bytes := t.flatMap Glyph.encode

@[simp] theorem encode_nil : encode [] = [] := rfl

@[simp] theorem encode_cons (g : Glyph) (t : Text) : encode (g :: t) = g.encode ++ encode t := rfl

@[simp] theorem encode_append (s t : Text) : encode (s ++ t) = encode s ++ encode t :=
  List.flatMap_append

/-- How many bytes the encoding that starts with byte `b` has, judged by `b` alone. -/
def encodedSize (b : UInt8) : Nat :=
  if b < 0xC0 then 1 else if b < 0xE0 then 2 else if b < 0xF0 then 3 else 4

/-- The number put together from the bits of the bytes that an encoding starting with `b` has. -/
def leadingNumber (b : UInt8) (bs : Bytes) : Nat :=
  let size := encodedSize b
  let first := if size = 1 then b.toNat else b.toNat % Nat.pow 2 (7 - size)
  (bs.take (size - 1)).foldl (fun n x => n * 64 + x.toNat % 64) first

/-- The character whose encoding the bytes start with, if they do: the character of that number
must have these very bytes as its encoding. -/
def leadingChar? (b : UInt8) (bs : Bytes) : Option Char :=
  if (String.utf8EncodeChar (Char.ofNat (leadingNumber b bs))).isPrefixOf (b :: bs) then
    some (Char.ofNat (leadingNumber b bs))
  else none

theorem encode_of_leadingChar? {b : UInt8} {bs : Bytes} {c : Char} (h : leadingChar? b bs = some c) :
    String.utf8EncodeChar c <+: b :: bs := by
  simp only [leadingChar?] at h
  split at h
  · rename_i hp
    rw [Option.some.injEq] at h
    rw [h] at hp
    exact List.isPrefixOf_iff_prefix.1 hp
  · cases h

/-- What is left after the encoding of the leading character. -/
theorem encode_append_drop_of_leadingChar? {b : UInt8} {bs : Bytes} {c : Char}
    (h : leadingChar? b bs = some c) :
    String.utf8EncodeChar c ++ bs.drop ((String.utf8EncodeChar c).length - 1) = b :: bs := by
  obtain ⟨r, hr⟩ := encode_of_leadingChar? h
  have hpos : 0 < (String.utf8EncodeChar c).length := by
    rw [String.length_utf8EncodeChar]
    exact Char.utf8Size_pos c
  cases hx : String.utf8EncodeChar c with
  | nil => simp [hx] at hpos
  | cons x xs =>
    rw [hx, List.cons_append, List.cons.injEq] at hr
    simp [← hr.1, ← hr.2]

/-- Decodes after passing over `skip` bytes, which belong to the character just read. -/
def decodeFrom : Nat → Bytes → Text
  | _, [] => []
  | skip + 1, _ :: bs => decodeFrom skip bs
  | 0, b :: bs =>
    match leadingChar? b bs with
    | some c => .char c :: decodeFrom ((String.utf8EncodeChar c).length - 1) bs
    | none => .stray b :: decodeFrom 0 bs

/-- Reads bytes as UTF-8, keeping each byte that is not part of a character. -/
def decode (bs : Bytes) : Text := decodeFrom 0 bs

theorem encode_decodeFrom (skip : Nat) (bs : Bytes) :
    encode (decodeFrom skip bs) = bs.drop skip := by
  induction bs generalizing skip with
  | nil => cases skip <;> rfl
  | cons b bs ih =>
    cases skip with
    | succ skip => simpa [decodeFrom] using ih skip
    | zero =>
      cases h : leadingChar? b bs with
      | none => simp [decodeFrom, h, ih, Glyph.encode]
      | some c =>
        simp only [decodeFrom, h, encode_cons, Glyph.encode, ih, List.drop_zero]
        exact encode_append_drop_of_leadingChar? h

/-- Decoding loses no byte. -/
theorem encode_decode (bs : Bytes) : encode (decode bs) = bs := by
  simp [decode, encode_decodeFrom]

/-- Reads bytes that have to be UTF-8 from end to end. -/
def decodeStrict? (bs : Bytes) : Option Text :=
  let t := decode bs
  if t.all (Glyph.holds fun _ => true) then some t else none

/-- The least and the greatest byte that may follow byte `b` in an encoding. -/
def secondByteRange (b : UInt8) : UInt8 × UInt8 :=
  if b = 0xE0 then (0xA0, 0xBF)
  else if b = 0xED then (0x80, 0x9F)
  else if b = 0xF0 then (0x90, 0xBF)
  else if b = 0xF4 then (0x80, 0x8F)
  else (0x80, 0xBF)

/-- How many of the bytes after `b` could go on with an encoding that `b` starts. -/
def openingSize (b : UInt8) (bs : Bytes) : Nat :=
  if b < 0xC2 || 0xF4 < b then 0
  else
    match bs with
    | [] => 0
    | x :: r =>
      let (lo, hi) := secondByteRange b
      if lo ≤ x && x ≤ hi then
        1 + ((r.take (encodedSize b - 2)).takeWhile fun y => 0x80 ≤ y && y ≤ 0xBF).length
      else 0

/-- The loop of `decodeReplacing`, passing over `skip` bytes first. -/
def decodeReplacingFrom : Nat → Bytes → Text
  | _, [] => []
  | skip + 1, _ :: bs => decodeReplacingFrom skip bs
  | 0, b :: bs =>
    match leadingChar? b bs with
    | some c => .char c :: decodeReplacingFrom ((String.utf8EncodeChar c).length - 1) bs
    | none => .char '\uFFFD' :: decodeReplacingFrom (openingSize b bs) bs

/-- Reads bytes as UTF-8 with one replacement character for each longest piece that starts an
encoding and does not finish it. -/
def decodeReplacing (bs : Bytes) : Text := decodeReplacingFrom 0 bs

end Text
end HtmlDeps
