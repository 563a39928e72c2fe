import HtmlDeps.Crawl.Crawler

/-!
# Crawling along imports

This crawler surveys a document, asks for every local file that the document refers to, and surveys
the imported documents in the same way, each URL once.  Every reference of a document has a slot.  A
slot is filled when all that lies behind its reference is known, and a document is done when all its
slots are filled.  The report lists the references depth first, each URL at its first place.

The first fault behind one of its references ends the work on a document; what is still under way
behind the other references goes on, but nobody waits for it any more.

This is `HtmlDocumentParser` with `_scan` and `_follow` (full specification, section Document Parser).
-/

namespace HtmlDeps.Imports

/-- A document that is being crawled, in a slot of the document that imports it. -/
structure Node where
  url : Text
  line : List Nat  -- the nodes above it, the importing document first
  slot : Nat       -- its slot in the document that imports it
  slots : List (Reference × Option (List Reference))  -- Its references, and what was found behind each of them.
  failed : Bool  -- whether a fault has ended the work on it
deriving Repr

/-- What is known so far. -/
structure Memory where
  nodes : List Node
  visited : List Text  -- the URLs that were surveyed or are about to be
  warnings : List Warning
deriving Repr

/-- The work to be done. -/
inductive Thread where
  | scan (node : Nat)
  | scanned (node : Nat) (answer : Except Fault Text)
  | follow (node slot : Nat)
  | loaded (node slot : Nat) (answer : Except Fault Text)
  | collect (node slot : Nat) (outcome : Except Fault (List Reference))
  | rise (node : Nat) (fault : Option Fault)

/-- A turn that notes nothing. -/
def Memory.moves (m : Memory) (move : Move Thread) : Turn Memory Thread := ⟨m, [], move⟩

def Memory.modify (m : Memory) (n : Nat) (f : Node → Node) : Memory :=
  { m with nodes := m.nodes.modify n f }

/-- What a document's slots hold, each reference in front of what lies behind it. -/
def Node.listed (d : Node) : List Reference :=
  d.slots.flatMap fun (r, below) => r :: below.getD []

/-- Whether all slots are filled. -/
def Node.complete (d : Node) : Bool := d.slots.all (·.2.isSome)

/-- The references without those whose URL came before. -/
def firsts (seen : List Text) : List Reference → List Reference
  | [] => []
  | r :: rs =>
    if seen.contains r.url then firsts seen rs else r :: firsts (r.url :: seen) rs

/-- How the work on a document ends: the document above collects it, or, at the top, the crawl
ends. -/
def Memory.deliver (m : Memory) (d : Node) (outcome : Except Fault (List Reference)) : Move Thread :=
  match d.line with
  | p :: _ => .leave [.collect p d.slot outcome]
  | [] => .finish (outcome.map fun rs => ⟨m.warnings, firsts [] rs⟩)

def Memory.survey (m : Memory) (n : Nat) (d : Node) (contents : Text) : Turn Memory Thread :=
  let (s, fault) := Survey.of d.url contents
  let notes := s.pathless.map fun href =>
    "ignoring reference without a path in " ++ d.url ++ ": " ++ href
  match fault with
  | some f => ⟨m, notes, m.deliver d (.error (.document f))⟩
  | none =>
    let m := { m with warnings := m.warnings ++ s.warnings }
    if s.references.isEmpty then ⟨m, notes, m.deliver d (.ok [])⟩
    else
      ⟨m.modify n fun d => { d with slots := s.references.map (·, none) }, notes,
        .leave ((List.range s.references.length).map (.follow n))⟩

def Memory.follow (canLoad : Text → Bool) (m : Memory) (n i : Nat) (d : Node) (r : Reference) :
    Turn Memory Thread :=
  let nothing : Turn Memory Thread := m.moves (.leave [.collect n i (.ok [])])
  match Url.isExternal r.url with
  | .error f => m.moves (.leave [.collect n i (.error (.document (.url f)))])
  | .ok true => nothing
  | .ok false =>
    if !canLoad r.url then nothing
    else if r.kind = .document then
      if m.visited.contains r.url then nothing
      else
        ⟨{ m with
            visited := m.visited ++ [r.url]
            nodes := m.nodes ++ [⟨r.url, n :: d.line, i, [], false⟩] },
          [], .ask r.url (.scanned m.nodes.length)⟩
    else m.moves (.ask r.url (.loaded n i))

/-- Puts the outcome of a slot in its place. -/
def Memory.collect (m : Memory) (n i : Nat) (d : Node) (outcome : Except Fault (List Reference)) :
    Turn Memory Thread :=
  if d.failed then m.moves (.leave [])
  else
    match outcome with
    | .error f => (m.modify n fun d => { d with failed := true }).moves (.leave [.rise n (some f)])
    | .ok rs =>
      let d := { d with slots := d.slots.modify i fun (r, _) => (r, some rs) }
      (m.modify n fun _ => d).moves (.leave (if d.complete then [.rise n none] else []))

def turn (canLoad : Text → Bool) (m : Memory) (t : Thread) : Turn Memory Thread :=
  let at_ (n : Nat) (f : Node → Turn Memory Thread) : Turn Memory Thread :=
    (m.nodes[n]?).elim (m.moves (.leave [])) f
  match t with
  | .scan n => at_ n fun d => m.moves (.ask d.url (.scanned n))
  | .scanned n (.error f) => at_ n fun d => m.moves (m.deliver d (.error f))
  | .scanned n (.ok contents) => at_ n fun d => m.survey n d contents
  | .follow n i => at_ n fun d =>
    (d.slots[i]?).elim (m.moves (.leave [])) fun (r, _) => m.follow canLoad n i d r
  | .loaded n i answer => m.moves (.leave [.collect n i (answer.map fun _ => [])])
  | .collect n i outcome => at_ n fun d => m.collect n i d outcome
  | .rise n none => at_ n fun d => m.moves (m.deliver d (.ok d.listed))
  | .rise n (some f) => at_ n fun d => m.moves (m.deliver d (.error f))

/-- Whether a document on the way from a node to the top has failed; `self` says whether the node
itself counts. -/
def Memory.abandoned (m : Memory) (n : Nat) (self : Bool) : Bool :=
  match m.nodes[n]? with
  | none => true
  | some d => (self && d.failed) || d.line.any fun p => (m.nodes[p]?).any (·.failed)

/-- A thread goes on if nobody waits for it any more. -/
def outlives (m : Memory) : Thread → Bool
  | .scan n => m.abandoned n true
  | .scanned n _ => m.abandoned n true
  | .follow n _ => m.abandoned n true
  | .loaded n _ _ => m.abandoned n true
  | .collect n _ _ => m.abandoned n true
  | .rise n _ => m.abandoned n false

end HtmlDeps.Imports

namespace HtmlDeps

/-- The crawler along imports, for those URLs that can be loaded. -/
def Crawler.imports (canLoad : Text → Bool) : Crawler where
  Memory := Imports.Memory
  Thread := Imports.Thread
  start url := (⟨[⟨url, [], 0, [], false⟩], [url], []⟩, .scan 0)
  turn := Imports.turn canLoad
  outlives := Imports.outlives

end HtmlDeps
