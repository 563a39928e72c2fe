import HtmlDeps.Text.Quoted

/-!
# What is wrong with a YAML document

A document that is not YAML, or that asks for something that no plain value can be, is malformed.
Apart from that, a scalar can fail to be what it claims to be.
-/

namespace HtmlDeps.Yaml

/-- Why a date or a time of day is none. -/
inductive CalendarFault where
  | year (n : Nat)
  | month
  | day
  | hour
  | minute
  | second
  | offset (days : Int) (seconds : Nat)  -- an offset of a day or more: days, and seconds of a day
deriving DecidableEq, Repr

def CalendarFault.message : CalendarFault → Text
  | .year n => "year " ++ Text.ofNat n ++ " is out of range"
  | .month => "month must be in 1..12"
  | .day => "day is out of range for month"
  | .hour => "hour must be in 0..23"
  | .minute => "minute must be in 0..59"
  | .second => "second must be in 0..59"
  | .offset days seconds =>
    let rest : Text := if seconds = 0 then [] else ", seconds=" ++ Text.ofNat seconds
    ("offset must be a timedelta strictly between -timedelta(hours=24) and " : Text) ++
      "timedelta(hours=24), not datetime.timedelta(days=" ++ Text.ofInt days ++ rest ++ ")."

/-- What is wrong with a document. -/
inductive Fault where
  | malformed
  | noCharacter                               -- an escape for a character that does not exist
  | notInteger (base : Nat) (written : Text)  -- a text that is no integer in a base
  | notNumber (written : Text)
  | emptyNumber             -- a number without a glyph
  | notTruth (word : Text)  -- a text that is neither true nor false
  | notMoment               -- a text that is not written as a date
  | calendar (f : CalendarFault)
  | tooLong (digits : Nat)  -- an integer of too many digits
  | tooLarge                -- a number in base 60 whose unit leaves the range of floats
  | foreign (ofValue : Bool) (message : Text)  -- a fault of another reader: whether it is one of a value, or of the system
deriving DecidableEq, Repr

def Fault.message : Fault → Text
  | .malformed => "malformed document"
  | .noCharacter => "chr() arg not in range(0x110000)"
  | .notInteger base t =>
    "invalid literal for int() with base " ++ Text.ofNat base ++ ": " ++ t.quoted
  | .notNumber t => "could not convert string to float: " ++ t.quoted
  | .emptyNumber => "string index out of range"
  | .notTruth w => w.quoted
  | .notMoment => "'NoneType' object has no attribute 'groupdict'"
  | .calendar f => f.message
  | .tooLong n =>
    ("Exceeds the limit (4300 digits) for integer string conversion: value has " : Text) ++
      Text.ofNat n ++ " digits; use sys.set_int_max_str_digits() to increase the limit"
  | .tooLarge => "int too large to convert to float"
  | .foreign _ m => m

end HtmlDeps.Yaml
