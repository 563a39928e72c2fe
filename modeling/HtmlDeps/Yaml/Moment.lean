import HtmlDeps.Yaml.Fault

/-!
# Dates and times in YAML documents

A moment is a date, or a date and a time of day with an offset from UTC in minutes, if one is given.
-/

namespace HtmlDeps.Yaml

/-- A time of day as it is written. -/
structure TimeOfDay where
  hour : Nat
  minute : Nat
  second : Nat
  offset : Option Int
deriving DecidableEq, Repr

/-- A date, and a time of day, as they are written. -/
structure Moment where
  year : Nat
  month : Nat
  day : Nat
  time : Option TimeOfDay
deriving DecidableEq, Repr

namespace Moment

/-- Reads as many as `most` digits, at least `least`: the number and the rest. -/
def digits? (least most : Nat) (t : Text) : Option (Nat × Text) :=
  let ds := (t.take most).takeWhile Glyph.isDigit
  if ds.length < least then none else some (Text.decimal ds, t.drop ds.length)

def sign? (c : Char) : Text → Option Text
  | g :: r => if g = .char c then some r else none
  | [] => none

def trim (t : Text) : Text := t.dropWhile fun g => g == .char ' ' || g == .char '\t'

/-- Reads an offset, which is all that is left. -/
def offset? (t : Text) : Option (Option Int) :=
  match trim t with
  | [] => if t.isEmpty then some none else none
  | .char 'Z' :: r => if r.isEmpty then some (some 0) else none
  | .char s :: r =>
    if s ≠ '+' && s ≠ '-' then none
    else do
      let (hours, r) ← digits? 1 2 r
      let minutes ← if r.isEmpty then some 0 else do
        let (m, r) ← digits? 2 2 (← sign? ':' r)
        if r.isEmpty then some m else none
      let n := Int.ofNat (60 * hours + minutes)
      return some (if s = '-' then -n else n)
  | _ => none

/-- Reads a time of day after what divides it from the date. -/
def time? (t : Text) : Option TimeOfDay := do
  let (hour, t) ← digits? 1 2 t
  let (minute, t) ← digits? 2 2 (← sign? ':' t)
  let (second, t) ← digits? 2 2 (← sign? ':' t)
  let t := match t with
    | .char '.' :: r => r.dropWhile Glyph.isDigit
    | t => t
  return ⟨hour, minute, second, ← offset? t⟩

def read? (t : Text) : Option Moment := do
  let (year, t) ← digits? 4 4 t
  let (month, t) ← digits? 1 2 (← sign? '-' t)
  let (day, t) ← digits? 1 2 (← sign? '-' t)
  match t with
  | [] => return ⟨year, month, day, none⟩
  | .char 'T' :: r | .char 't' :: r => return ⟨year, month, day, some (← time? r)⟩
  | t => if (trim t).length < t.length then return ⟨year, month, day, some (← time? (trim t))⟩ else none

def isLeap (year : Nat) : Bool := year % 4 == 0 && (year % 100 != 0 || year % 400 == 0)

def daysIn (year month : Nat) : Nat :=
  if month = 2 then (if isLeap year then 29 else 28)
  else if month ∈ [4, 6, 9, 11] then 30
  else 31

def fault? (m : Moment) : Option CalendarFault :=
  m.time.bind zone? <|> date? <|> m.time.bind clock?
where
  -- What is wrong with the offset.
  zone? (t : TimeOfDay) : Option CalendarFault :=
    t.offset.bind fun n =>
      if n.natAbs < 1440 then none else some (.offset (n.fdiv 1440) ((n.fmod 1440).toNat * 60))
  -- What is wrong with the date.
  date? : Option CalendarFault :=
    if m.year = 0 then some (.year m.year)
    else if m.month < 1 || 12 < m.month then some .month
    else if m.day < 1 || daysIn m.year m.month < m.day then some .day
    else none
  -- What is wrong with the time of day.
  clock? (t : TimeOfDay) : Option CalendarFault :=
    if 23 < t.hour then some .hour
    else if 59 < t.minute then some .minute
    else if 59 < t.second then some .second
    else none

end Moment
end HtmlDeps.Yaml
