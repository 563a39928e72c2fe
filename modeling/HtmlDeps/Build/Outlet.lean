import HtmlDeps.File

/-!
# Streams of files that end

An outlet passes files on in the order in which they were sent.  It is closed once, with or without
a fault; from then on nothing can be sent, and a reader that has taken all files meets the ending,
again and again.

This is `FileStream` (full specification, section Streams).
-/

namespace HtmlDeps

/-- How a stream ends. -/
inductive Ending (ε : Type) where
  | complete
  | failed (e : ε)
deriving DecidableEq, Repr

/-- A stream of files: all that were sent, how many of them were taken, and the ending. -/
structure Outlet (ε : Type) where
  name : Text
  sent : List File
  taken : Nat
  ending : Option (Ending ε)
deriving DecidableEq, Repr

/-- The stream with a name is closed already. -/
structure Closed where
  name : Text
deriving DecidableEq, Repr

def Closed.message (e : Closed) : Text := e.name ++ " stream is already closed"

/-- What a reader meets. -/
inductive Reading (ε : Type) where
  | file (f : File)
  | ending (e : Ending ε)
  | pending  -- there is nothing yet
deriving DecidableEq, Repr

namespace Outlet

variable {ε : Type}

def start (name : Text) : Outlet ε := ⟨name, [], 0, none⟩

def closed (o : Outlet ε) : Bool := o.ending.isSome

def send (o : Outlet ε) (f : File) : Except Closed (Outlet ε) :=
  if o.closed then .error ⟨o.name⟩ else .ok { o with sent := o.sent ++ [f] }

/-- Closes the stream, if it is not closed already. -/
def close (o : Outlet ε) (e : Ending ε) : Outlet ε :=
  if o.closed then o else { o with ending := some e }

/-- The files that were sent and not taken yet. -/
def waiting (o : Outlet ε) : List File := o.sent.drop o.taken

def next (o : Outlet ε) : Outlet ε × Reading ε :=
  match o.waiting, o.ending with
  | f :: _, _ => ({ o with taken := o.taken + 1 }, .file f)
  | [], some e => (o, .ending e)
  | [], none => (o, .pending)

/-- Reads all files there are, up to the ending. -/
def drain (o : Outlet ε) : Outlet ε × List File × Reading ε :=
  ({ o with taken := o.sent.length }, o.waiting, o.ending.elim .pending .ending)

variable {o o' : Outlet ε} {f : File}

theorem send_eq_ok (h : o.send f = .ok o') :
    o.ending = none ∧ o' = { o with sent := o.sent ++ [f] } := by
  unfold send at h
  split at h
  · cases h
  · rename_i hopen
    exact ⟨Option.not_isSome_iff_eq_none.1 hopen, (Except.ok.inj h).symm⟩

theorem sent_of_send (h : o.send f = .ok o') : o'.sent = o.sent ++ [f] := by
  rw [(send_eq_ok h).2]

theorem ending_of_send (h : o.send f = .ok o') : o'.ending = o.ending := by
  rw [(send_eq_ok h).2]

theorem sent_close (o : Outlet ε) (e : Ending ε) : (o.close e).sent = o.sent := by
  unfold close
  split <;> rfl

/-- A stream that is closed after a fault was not ended properly by that. -/
theorem eq_of_close_failed {e : ε} (h : (o.close (.failed e)).ending = some .complete) :
    o.close (.failed e) = o := by
  unfold close at h ⊢
  split at h
  · rw [if_pos ‹_›]
  · cases h

end Outlet
end HtmlDeps
