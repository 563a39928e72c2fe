import HtmlDeps.Json.Printer
import HtmlDeps.Log.Entry
import HtmlDeps.Log.Template

/-!
# Writing the log

A record of the log is written as a line of text or as a JSON object.  Both give the moment, the
level, the name of the logger, the message, what is known of an exception, and the fields of the
context.

These are `JsonFormatter`, `TextFormatter` and the level that `configure_logging` sets (full specification,
section Logging).
-/

namespace HtmlDeps.Log

/-- A day of the calendar. -/
structure Day where
  year : Int
  month : Nat
  day : Nat
deriving DecidableEq, Repr

/-- The day so many days after the first of January 1970.  Counted are eras of 400 years, which
begin in March so that a leap day comes last. -/
def Day.ofEpoch (n : Int) : Day :=
  let z := n + 719468
  let era := z.fdiv 146097
  let doe := (z - era * 146097).toNat
  let yoe := (doe - doe / 1460 + doe / 36524 - doe / 146096) / 365
  let doy := doe - (365 * yoe + yoe / 4 - yoe / 100)
  let mp := (5 * doy + 2) / 153
  let month := if mp < 10 then mp + 3 else mp - 9
  ⟨era * 400 + yoe + (if month ≤ 2 then 1 else 0), month, doy - (153 * mp + 2) / 5 + 1⟩

/-- A moment by the seconds since the start of 1970, with `between` between date and time. -/
def moment (seconds : Int) (between : Text) : Text :=
  let d := Day.ofEpoch (seconds.fdiv 86400)
  let s := (seconds.fmod 86400).toNat
  let two (n : Nat) : Text := Text.padded n 2
  Text.padded d.year.toNat 4 ++ "-" ++ two d.month ++ "-" ++ two d.day ++ between ++
    two (s / 3600) ++ ":" ++ two (s / 60 % 60) ++ ":" ++ two (s % 60)

/-- A record of the log. -/
structure Record where
  seconds : Int
  milliseconds : Nat
  level : Text
  logger : Text
  template : Text
  arguments : Arguments
  exception : Option (Text × Text)  -- the kind and the words of an exception
  stack : Option Text
  fields : Fields
deriving Repr

/-- Why a record cannot be written. -/
inductive RecordFault where
  | template (f : TemplateFault)
  | json (f : Json.Fault)
deriving DecidableEq, Repr

def RecordFault.message : RecordFault → Text
  | .template f => f.message
  | .json f => f.message

def exceptionText (kind words : Text) : Text :=
  if words.isEmpty then kind else kind ++ ": " ++ words

def Record.asJson (r : Record) : Except RecordFault Text :=
  match message r.template r.arguments with
  | .error f => .error (.template f)
  | .ok m =>
    let always : Fields :=
      [("timestamp", .text (moment r.seconds "T")), ("level", .text r.level),
        ("name", .text r.logger), ("message", .text m)]
    let exception : Fields :=
      r.exception.elim [] fun (k, w) => [("exc_info", .text (exceptionText k w))]
    let stack : Fields := (r.stack.filter (· ≠ [])).elim [] fun s => [("stack", .text s)]
    (Json.print (.record (always ++ exception ++ stack ++ contextual r.fields))).mapError .json

/-- A text on a line of its own after another one. -/
def onNewLine (t more : Text) : Text :=
  if t.getLast? = some (.char '\n') then t ++ more else t ++ [.char '\n'] ++ more

def Record.asText (r : Record) : Except RecordFault Text :=
  match message r.template r.arguments with
  | .error f => .error (.template f)
  | .ok m =>
    let line := moment r.seconds " " ++ "," ++ Text.padded r.milliseconds 3 ++ " " ++ r.level ++
      " " ++ r.logger ++ ": " ++ m
    let line := r.exception.elim line fun (k, w) => onNewLine line (exceptionText k w)
    let line := (r.stack.filter (· ≠ [])).elim line (onNewLine line)
    let fields := (contextual r.fields).map fun (k, v) =>
      k.drop contextMark.length ++ [.char '='] ++ v.shown
    .ok (if fields.isEmpty then line else line ++ " [" ++ Text.join " " fields ++ "]")

/-! ### Levels by value -/

/-- Why a value is not a level. -/
inductive LevelFault where
  | unknown (name : Text)
  | notLevel (v : Text)
deriving DecidableEq, Repr

def LevelFault.message : LevelFault → Text
  | .unknown name => "Unknown level: " ++ name.quoted
  | .notLevel v => "Level not an integer or a valid string: " ++ v

/-- The number of the level that a value stands for: the number itself, or a name in letters of
either case. -/
def levelNumber : Value → Except LevelFault Int
  | .int n => .ok n
  | .bool b => .ok (if b then 1 else 0)
  | .text t =>
    match Level.ofLabel? (Text.upper t) with
    | some l => .ok l.number
    | none => .error (.unknown (Text.upper t))
  | v => .error (.notLevel v.nested)

end HtmlDeps.Log
