import HtmlDeps.Build.Fault

/-!
# Crawlers

A crawler finds out what a document needs.  It is a machine with a memory and threads of work: a
thread takes its turn, and then asks for the text behind a URL, or leaves more threads behind, or ends
the crawl with a report.  Which thread goes next, and when an answer arrives, is up to whoever runs
the crawler.

This is what `BuildAnalyzer` knows of a `DocumentParser`.
-/

namespace HtmlDeps

/-- What a crawl found. -/
structure Report where
  warnings : List Warning
  references : List Reference
deriving DecidableEq, Repr

/-- How a thread ends its turn. -/
inductive Move (τ : Type) where
  -- It asks for the text behind a URL, and goes on with the answer.
  | ask (url : Text) (next : Except Fault Text → τ)
  | leave (threads : List τ)                -- it is over, and leaves threads behind
  | finish (outcome : Except Fault Report)  -- it is over, and with it the crawl

/-- What a turn brings: the memory after it, what is noted on the way, and its end. -/
structure Turn (σ τ : Type) where
  memory : σ
  notes : List Text
  move : Move τ

/-- A way of crawling. -/
structure Crawler where
  Memory : Type
  Thread : Type
  start : Text → Memory × Thread               -- how a crawl that begins at a URL sets out
  turn : Memory → Thread → Turn Memory Thread  -- the turn of a thread
  outlives : Memory → Thread → Bool  -- Whether a thread goes on when the crawl is given up from outside.

/-- The crawler that knows the report on each URL without asking. -/
def Crawler.knowing (report : Text → Except Fault Report) : Crawler where
  Memory := Unit
  Thread := Text
  start url := ((), url)
  turn _ url := ⟨(), [], .finish (report url)⟩
  outlives _ _ := false

end HtmlDeps
