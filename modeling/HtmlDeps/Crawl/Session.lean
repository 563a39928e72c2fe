import HtmlDeps.Crawl.Crawler

/-!
# Crawling with texts at hand

A session runs crawls one after the other, where every request is answered at once.  Threads take
their turns in the order in which they were left behind; those that a failed crawl leaves behind go on
beside the next one.

This is `HtmlDocumentParser.analyze` with a `UrlLoader` that never makes it wait.
-/

namespace HtmlDeps

/-- A session: the memory of each crawl begun so far, the threads that are ready with the number of
their crawl, and the URLs that were asked for. -/
structure Session (C : Crawler) where
  memories : List C.Memory
  ready : List (Nat × C.Thread)
  calls : List Text

namespace Session

variable {C : Crawler}

def start : Session C := ⟨[], [], []⟩

/-- Lets the next thread take its turn; if that ends a crawl, the outcome is given with the number of
the crawl. -/
def step (load : Text → Except Fault Text) (s : Session C) :
    Session C × Option (Nat × Except Fault Report) :=
  match s.ready with
  | [] => (s, none)
  | (k, t) :: rest =>
    match s.memories[k]? with
    | none => ({ s with ready := rest }, none)
    | some m =>
      let turn := C.turn m t
      let s := { s with memories := s.memories.set k turn.memory, ready := rest }
      match turn.move with
      | .ask url next =>
        ({ s with ready := (k, next (load url)) :: s.ready, calls := s.calls ++ [url] }, none)
      | .leave ts => ({ s with ready := s.ready ++ ts.map (k, ·) }, none)
      | .finish outcome => (s, some (k, outcome))

/-- Runs until crawl `k` ends, for at most `limit` turns. -/
def runTo (load : Text → Except Fault Text) (k limit : Nat) (s : Session C) :
    Session C × Option (Except Fault Report) :=
  match limit with
  | 0 => (s, none)
  | limit + 1 =>
    match s.step load with
    | (s, some (j, outcome)) => if j = k then (s, some outcome) else runTo load k limit s
    | (s, none) => if s.ready.isEmpty then (s, none) else runTo load k limit s

/-- Crawls from a URL, for at most `limit` turns: the outcome, and the URLs that were asked for. -/
def crawl (load : Text → Except Fault Text) (limit : Nat) (s : Session C) (url : Text) :
    Session C × Option (Except Fault Report) × List Text :=
  let (memory, thread) := C.start url
  let k := s.memories.length
  let s : Session C := ⟨s.memories ++ [memory], (k, thread) :: s.ready, []⟩
  let (s, outcome) := s.runTo load k limit
  (s, outcome, s.calls)

end Session
end HtmlDeps
