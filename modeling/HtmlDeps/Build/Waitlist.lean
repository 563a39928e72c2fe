import HtmlDeps.Log.Entry

/-!
# Requests that wait for a file

A request for a file that is not there yet gets a ticket.  The ticket stays the current one of its
key until the key is resolved, and is answered at most once: with the contents when the key is
resolved, or before that with nothing, when it is released.  A released key stays on the list.

This is `DeferredLoadTable` (full specification, section Deferred Load Table).
-/

namespace HtmlDeps

/-- What has become of a ticket. -/
inductive Ticket where
  | open
  | answered (contents : Text)
  | cancelled
deriving DecidableEq, Repr

/-- Gives a ticket its answer, unless it has been settled before. -/
def Ticket.answer (contents : Text) : Ticket → Ticket
  | .open => .answered contents
  | t => t

/-- The keys that are waited for, each with the number of its current ticket, in the order in which
they came on the list; and all tickets ever given out. -/
structure Waitlist (κ : Type) where
  entries : Table κ Nat
  tickets : List Ticket
deriving DecidableEq, Repr

/-- Nobody waits for a key. -/
structure NotAwaited (κ : Type) where
  key : κ
deriving DecidableEq, Repr

def NotAwaited.message (e : NotAwaited Text) : Text := "No deferred load is pending for " ++ e.key

namespace Waitlist

variable {κ : Type} [DecidableEq κ]

def empty : Waitlist κ := ⟨[], []⟩

def keys (w : Waitlist κ) : List κ := w.entries.keys

def has (w : Waitlist κ) (k : κ) : Bool := w.entries.has k

def current? (w : Waitlist κ) (k : κ) : Option Nat := w.entries.get? k

def ticket? (w : Waitlist κ) (n : Nat) : Option Ticket := w.tickets[n]?

/-- Gives out a new ticket for a key, with its number. -/
def create (w : Waitlist κ) (k : κ) : Waitlist κ × Nat :=
  (⟨w.entries.put k w.tickets.length, w.tickets ++ [.open]⟩, w.tickets.length)

/-- Answers a ticket, unless it has been settled before. -/
def answer (w : Waitlist κ) (n : Nat) (contents : Text) : Waitlist κ :=
  { w with tickets := w.tickets.modify n (Ticket.answer contents) }

/-- Takes a key off the list and answers its ticket. -/
def resolve (w : Waitlist κ) (k : κ) (contents : Text) : Except (NotAwaited κ) (Waitlist κ) :=
  match w.current? k with
  | none => .error ⟨k⟩
  | some n => .ok (answer { w with entries := w.entries.erase k } n contents)

/-- Answers the ticket of a key with nothing and leaves the key on the list. -/
def release (w : Waitlist κ) (k : κ) : Waitlist κ :=
  match w.current? k with
  | none => w
  | some n => w.answer n []

/-- Cancels a ticket that is still open, and says whether it was. -/
def cancel (w : Waitlist κ) (n : Nat) : Waitlist κ × Bool :=
  if w.ticket? n = some .open then
    ({ w with tickets := w.tickets.set n .cancelled }, true)
  else (w, false)

/-- What is logged when a ticket for `k` is created. -/
def creationNotes (w : Waitlist Text) (k : Text) : List Log.Entry :=
  if w.has k then [⟨.warning, "Replacing pending deferred load for " ++ k, []⟩] else []

end Waitlist
end HtmlDeps
