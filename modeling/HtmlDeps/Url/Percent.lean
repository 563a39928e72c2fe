import HtmlDeps.Text.Utf8

/-!
# Percent escapes

`%` and two hexadecimal digits stand for a byte.  The bytes of each run of ASCII are read as UTF-8
with the replacement character for what does not decode; a `%` without two digits stays, and glyphs
outside ASCII are not touched.
-/

namespace HtmlDeps.Percent

/-- Decodes a text; `run` holds the bytes of the ASCII run being read, the last one first. -/
def decodeFrom (run : Bytes) : Text → Text
  | [] => Text.decodeReplacing run.reverse
  | .char '%' :: a :: b :: r =>
    match a.hexValue?, b.hexValue? with
    | some x, some y => decodeFrom (UInt8.ofNat (16 * x + y) :: run) r
    | _, _ => decodeFrom (UInt8.ofNat '%'.toNat :: run) (a :: b :: r)
  | g :: r =>
    if g.code < 128 then decodeFrom (UInt8.ofNat g.code :: run) r
    else Text.decodeReplacing run.reverse ++ g :: decodeFrom [] r

/-- The text with its percent escapes resolved. -/
def decode (t : Text) : Text := decodeFrom [] t

end HtmlDeps.Percent
