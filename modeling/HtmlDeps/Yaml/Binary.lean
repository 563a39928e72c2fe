import HtmlDeps.Text.Basic

/-!
# Bytes in base 64

Four glyphs of the alphabet write three bytes, and a last group with padding fewer.  Glyphs outside
the alphabet do not count, and nothing counts after the padding.
-/

namespace HtmlDeps.Yaml.Binary

def alphabet : List Char :=
  "ABCDEFGHIJKLMNOPQRSTUVWXYZabcdefghijklmnopqrstuvwxyz0123456789+/".toList

def digit? : Glyph → Option Nat
  | .char c => alphabet.idxOf? c
  | .stray _ => none

/-- Reads bytes, where `group` holds the numbers of the group that is begun, and `pads` counts the
signs of padding after it; there are none if a group is not complete at the end. -/
def readFrom (group : List Nat) (pads : Nat) : Text → Option Bytes
  | [] => if group.isEmpty then some [] else none
  | g :: r =>
    if g = .char '=' then
      if group.length ≥ 2 && group.length + pads + 1 ≥ 4 then some (bytes group)
      else readFrom group (if group.length ≥ 2 then pads + 1 else pads) r
    else
      match digit? g with
      | none => readFrom group pads r
      | some d =>
        if group.length = 3 then (readFrom [] 0 r).map (bytes (group ++ [d]) ++ ·)
        else readFrom (group ++ [d]) 0 r
where
  -- The bytes that the bits of a group write in full.
  bytes (group : List Nat) : Bytes :=
    let bits := group.foldl (fun n d => n * 64 + d) 0
    let size := group.length * 6 / 8
    let whole := bits / Nat.pow 2 (group.length * 6 - size * 8)
    (List.range size).map fun i => UInt8.ofNat (whole / Nat.pow 256 (size - 1 - i) % 256)

/-- The bytes that a text writes, if it does. -/
def read? (t : Text) : Option Bytes := readFrom [] 0 t

end HtmlDeps.Yaml.Binary
