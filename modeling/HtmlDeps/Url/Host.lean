import HtmlDeps.Text.Quoted

/-!
# Addresses in the host part of a URL

The four decimal numbers of an IPv4 address, the hexadecimal groups of an IPv6 address with at most
one `::`, and what may stand between the square brackets of a host.
-/

namespace HtmlDeps.Host

/-- One number of an IPv4 address: up to 255, of at most three digits, without a leading zero. -/
def isOctet (t : Text) : Bool :=
  !t.isEmpty && t.all Glyph.isDigit && t.length ≤ 3 && Text.decimal t ≤ 255 &&
    (t.head? != some (.char '0') || t.length == 1)

/-- Four numbers between dots. -/
def isIpv4 (t : Text) : Bool :=
  let octets := Text.split (.char '.') t
  octets.length == 4 && octets.all isOctet

/-- One to four hexadecimal digits. -/
def isGroup (t : Text) : Bool := !t.isEmpty && t.length ≤ 4 && t.all Glyph.isHexDigit

/-- The address without its zone, which follows a `%`; a zone is not empty and holds no other
`%`. -/
def withoutZone? (t : Text) : Option Text :=
  match Text.split (.char '%') t with
  | [a] => some a
  | [a, zone] => if zone.isEmpty then none else some a
  | _ => none

/-- The groups with an IPv4 address at the end turned into the two groups of the same bits. -/
def groupsOf? (t : Text) : Option (List Text) :=
  let groups := Text.split (.char ':') t
  if groups.length < 3 then none
  else
    match groups.getLast? with
    | some g =>
      if g.contains (.char '.') then
        if isIpv4 g then some (groups.dropLast ++ [("0" : Text), ("0" : Text)]) else none
      else some groups
    | none => none

/-- Whether groups, among them the empty ones that `::` and the ends leave, make up eight. -/
def areGroups (groups : List Text) : Bool :=
  let inner := (groups.drop 1).dropLast
  let first := groups.headD []
  let final := groups.getLastD []
  match inner.filter (·.isEmpty) with
  | [] => groups.length == 8 && groups.all isGroup
  | [_] =>
    let before := (groups.takeWhile fun g => !g.isEmpty)
    let skip := if first.isEmpty then 1 else before.length
    let low := groups.drop (skip + 1)
    let highOk := if first.isEmpty then (groups.drop 1).head?.any (·.isEmpty) else before.all isGroup
    let high := if first.isEmpty then 0 else before.length
    let lowCount := if final.isEmpty then low.length - 1 else low.length
    let lowOk := if final.isEmpty then lowCount == 0 else low.all isGroup
    groups.length ≤ 9 && highOk && lowOk && high + lowCount < 8
  | _ => false

/-- An IPv6 address, with or without a zone. -/
def isIpv6 (t : Text) : Bool :=
  !t.contains (.char '/') &&
    match withoutZone? t with
    | none => false
    | some a =>
      match groupsOf? a with
      | none => false
      | some groups => areGroups groups

/-- An address of a version yet to come: `v`, hexadecimal digits, a dot, and something after it. -/
def isFuture (t : Text) : Bool :=
  match t with
  | .char 'v' :: r =>
    let (version, rest) := Text.cutAt (fun g => !g.isHexDigit) r
    match rest with
    | .char '.' :: x :: xs => !version.isEmpty && !(x :: xs).contains (.char '\n')
    | _ => false
  | _ => false

/-- Why a bracketed host is refused. -/
inductive Fault where
  | brackets                 -- the brackets do not pair up, or something stands beside them
  | future                   -- the host starts with `v` and is no address of a later version
  | version4                 -- the brackets hold an IPv4 address
  | noAddress (host : Text)  -- the brackets hold no address
deriving DecidableEq, Repr

def Fault.message : Fault → Text
  | .brackets => "Invalid IPv6 URL"
  | .future => "IPvFuture address is invalid"
  | .version4 => "An IPv4 address cannot be in brackets"
  | .noAddress h => h.quoted ++ " does not appear to be an IPv4 or IPv6 address"

/-- What is wrong with the host between brackets, if anything. -/
def bracketedFault? (host : Text) : Option Fault :=
  if host.startsWith "v" then
    if isFuture host then none else some .future
  else if isIpv4 host then some .version4
  else if isIpv6 host then none
  else some (.noAddress host)

/-- What is wrong with the brackets of an authority, if anything.  Only what follows the last `@`
is the host. -/
def fault? (authority : Text) : Option Fault :=
  let opens := authority.contains (.char '[')
  let closes := authority.contains (.char ']')
  if opens != closes then some .brackets
  else if !opens then none
  else
    let hostAndPort := (Text.cutLast? (· == .char '@') authority).elim authority (·.2)
    match Text.cutAt (· == .char '[') hostAndPort with
    | (before, _ :: bracketed) =>
      if !before.isEmpty then some .brackets
      else
        let (host, rest) := Text.cutAt (· == .char ']') bracketed
        match rest with
        | _ :: x :: _ => if x = .char ':' then bracketedFault? host else some .brackets
        | _ => bracketedFault? host
    | (_, []) => bracketedFault? (Text.cutAt (· == .char ':') hostAndPort).1

end HtmlDeps.Host
