import HtmlDeps.Build.Completion

/-!
# Registering files and asking for them

`register` stores a file under its URL and answers those who wait for it.  `load` answers a request
from the registered files; for a file that is not there it takes a ticket and asks for the file once,
by `push`.

These are `BuildAnalyzer.register_file`, `get_file`, `get_file_by_url`, `push_dependency` and
`_enqueue_dependency`, and `StreamLoader.load` and `_wait_for` (full specification, section Url Loader).  No
time passes here: where there are timeouts, a waiting request may time out whenever its turn comes.
-/

namespace HtmlDeps

/-- The fault of matching a path against the patterns of a project. -/
def Fault.ofMatch : Project.MatchFault → Fault
  | .outside f => .outside f
  | .patterns f => .patterns f

namespace Build

variable {C : Crawler}

/-- The rounds that pass between the answer to a ticket and the next turn of one who waits for
it. -/
def answerRounds (s : Setup) : Nat := if s.timeout.isSome then 2 else 1

/-- Lets those who wait for a ticket go on with its answer. -/
def wake (s : Setup) (b : Build C) (ticket : Nat) (contents : Text) : Build C :=
  let (now, later) := b.waiting.partition fun w => w.ticket = ticket
  { b with
    waiting := later
    ready := b.ready ++ now.map fun w => (answerRounds s, w.caller.resume (.ok contents)) }

/-- Answers a request for a path with nothing, and goes on waiting for the file. -/
def release (s : Setup) (b : Build C) (p : Path) : Build C :=
  match b.waitlist.current? p with
  | none => b
  | some n => { b with waitlist := b.waitlist.release p }.wake s n []

/-- Releases a path that nothing can reach any more. -/
def releaseUnreachable (s : Setup) (b : Build C) (ctx : Log.Fields) (p : Path) : Build C :=
  (b.note ctx .debug ("releasing unreachable file: " ++ p.toText)).release s p

/-- The file registered under a URL, which may have a slash in front. -/
def file? (b : Build C) (url : Text) : Option File :=
  b.files.get? (match url with
    | .char '/' :: u => u
    | u => u)

def fileAt (s : Setup) (b : Build C) (p : Path) : Except OutsideRoot (Option File) :=
  (s.project.url p).map b.file?

/-- Registers a file, and answers those who wait for it. -/
def register (s : Setup) (b : Build C) (f : File) : Build C × Option Fault :=
  let p := f.path.normal
  let b := b.note s.context .debug ("register_file: " ++ p.toText)
  match s.project.url p with
  | .error e => (b, some (.outside e))
  | .ok u =>
    let b := { b with files := b.files.put u f }
    match b.waitlist.current? p, b.waitlist.resolve p f.text with
    | some n, .ok w => ({ b with waitlist := w }.wake s n f.text, none)
    | _, _ => (b, none)

/-- Puts a dependency on the queue, once for each URL. -/
def enqueueUrl (b : Build C) (ctx : Log.Fields) (url : Text) (p : Path) : Build C :=
  if b.pushed.contains url then b
  else
    let b := b.note ctx .debug
      ("new dependency found, pushing into dependency stream: " ++ p.toText)
    { b with pushed := b.pushed ++ [url] }.enqueue (some p)

/-- Asks for a dependency.  A source is not asked for, since it arrives by itself; but once the
sources are exhausted, nobody can wait for it any more. -/
def push (s : Setup) (b : Build C) (ctx : Log.Fields) (url : Text) : Build C × Option Fault :=
  if b.status ≠ .running then
    (b.note ctx .warning ("Build is " ++ b.status.label ++ ", dropping dependency " ++ url), none)
  else
    let url := url.dropLeading (.char '/')
    if (b.file? url).isSome || b.pushed.contains url then
      (b.note ctx .debug ("dependency has already been pushed, ignoring: " ++ url), none)
    else
      let p := s.project.path url
      match s.project.isSource p with
      | .error f => (b, some (.ofMatch f))
      | .ok true =>
        let b := b.note ctx .debug ("dependency is a source file, ignoring: " ++ url)
        (if b.exhausted then b.releaseUnreachable s ctx p else b, none)
      | .ok false => (b.enqueueUrl ctx url p, none)

/-- Lets a caller wait for the answer to a ticket; without timeouts there is no wait for one that is
answered already. -/
def await (s : Setup) (b : Build C) (ticket : Nat) (p : Path) (caller : Caller C) : Build C :=
  match b.waitlist.ticket? ticket with
  | some (.answered t) =>
    if s.timeout.isSome then b.schedule 1 (caller.resume (.ok t)) else b.goOn (caller.resume (.ok t))
  | _ => { b with waiting := b.waiting ++ [⟨ticket, p, caller⟩] }

/-- Asks for a path that is not registered. -/
def request (s : Setup) (b : Build C) (ctx : Log.Fields) (p : Path) (caller : Caller C) : Build C :=
  match b.waitlist.current? p with
  | some n => b.await s n p caller
  | none =>
    let (w, n) := b.waitlist.create p
    let b := { b with waitlist := w }
    match s.project.url p with
    | .error e => b.goOn (caller.resume (.error (.outside e)))
    | .ok u =>
      match b.push s ctx u with
      | (b, some f) => b.goOn (caller.resume (.error f))
      | (b, none) => b.await s n p caller

/-- Asks for the text behind a URL.  External URLs have no text. -/
def load (s : Setup) (b : Build C) (url : Text) (caller : Caller C) : Build C :=
  let ctx := b.contextOf s caller
  let b := b.note ctx .debug ("loading: " ++ url)
  let answer (a : Except Fault Text) : Build C := b.goOn (caller.resume a)
  match Url.isExternal url, Url.parse url with
  | .error f, _ => answer (.error (.document (.url f)))
  | .ok true, _ => answer (.ok [])
  | .ok false, .error f => answer (.error (.document (.url f)))
  | .ok false, .ok u =>
    let p := s.project.path u.path
    match b.fileAt s p with
    | .error e => answer (.error (.outside e))
    | .ok (some f) => answer (.ok f.text)
    | .ok none => b.request s ctx p caller

/-- Gives up waiting: the request is answered with nothing. -/
def expire (s : Setup) (b : Build C) (w : Waiter C) : Build C :=
  let b := b.note (b.contextOf s w.caller) .error
    ("Timed out after " ++ s.timeout.getD [] ++ "s waiting for " ++ w.path.toText)
  (b.release s w.path).goOn (w.caller.resume (.ok []))

end Build
end HtmlDeps
