import HtmlDeps.Text.Quoted
import HtmlDeps.Text.Utf8

/-!
# Why bytes do not decode

The first place where bytes are not UTF-8: a byte that starts no character, a character that does not
go on as it should, or one that the end of the bytes cuts off.
-/

namespace HtmlDeps

/-- What is wrong where bytes do not decode. -/
inductive DecodingCause where
  | start
  | continuation
  | cutOff
deriving DecidableEq, Repr

/-- The bytes that do not decode, from `first` to `last`, and the first of them. -/
structure Undecodable where
  first : Nat
  last : Nat
  byte : UInt8
  cause : DecodingCause
deriving DecidableEq, Repr

namespace Undecodable

/-- The place in bytes that have a character at their start, or do not. -/
def at_ (first : Nat) (b : UInt8) (bs : Bytes) : Undecodable :=
  let more := Text.openingSize b bs
  if b < 0xC2 || 0xF4 < b then ⟨first, first, b, .start⟩
  else if more = bs.length then ⟨0, more, b, .cutOff⟩
  else ⟨first, first + more, b, .continuation⟩

/-- The first such place in bytes of which `n` were read before, after passing over `skip` of them. -/
def findFrom (n : Nat) : Nat → Bytes → Option Undecodable
  | _, [] => none
  | skip + 1, _ :: bs => findFrom (n + 1) skip bs
  | 0, b :: bs =>
    match Text.leadingChar? b bs with
    | some c => findFrom (n + 1) ((String.utf8EncodeChar c).length - 1) bs
    | none => some (at_ n b bs)

/-- The first such place.  Bytes at the end that are cut off are counted by themselves. -/
def find? (bs : Bytes) : Option Undecodable := findFrom 0 0 bs

def message (u : Undecodable) : Text :=
  let place : Text :=
    if u.first = u.last then
      "byte 0x" ++ Text.hexDigits 2 u.byte.toNat ++ " in position " ++ Text.ofNat u.first
    else "bytes in position " ++ Text.ofNat u.first ++ "-" ++ Text.ofNat u.last
  let reason : Text := match u.cause with
    | .start => "invalid start byte"
    | .continuation => "invalid continuation byte"
    | .cutOff => "unexpected end of data"
  ("'utf-8' codec can't decode " : Text) ++ place ++ ": " ++ reason

end Undecodable
end HtmlDeps
