import HtmlDeps.Proofs.Crawl.Searches

/-!
# What a queue has surveyed

A run is told together with the documents that it surveys, in the order in which it surveys them
(`Queue.Scans`).  If the documents are readable, this is an order of surveys, so that no document comes twice
(`Queue.Scans.orderly`), and the warnings that have come up are those of these documents
(`Queue.Scans.warnings_eq`).
-/

namespace HtmlDeps.Imports

open Memory

variable {load : Text → Except Fault Text} {url : Text} {m : Memory} {t : Thread} {turn : Turn Memory Thread}
  {n : Nat} {d : Node} {contents : Text}

/-- What is wrong with a document. -/
def warnings (load : Text → Except Fault Text) (u : Text) : List Warning :=
  match load u with
  | .ok contents => (Survey.of u contents).1.warnings
  | .error _ => []

/-- The document that a thread surveys in its turn. -/
def Thread.survey? (m : Memory) : Thread → Option Text
  | .scanned n (.ok _) => m.nodes[n]?.map (·.url)
  | .scan _ | .scanned _ (.error _) | .follow _ _ | .loaded _ _ _ | .collect _ _ _ | .rise _ _ => none

/-! ### Warnings of one turn -/

theorem warnings_survey (hsound : (Survey.of d.url contents).2 = none) :
    (m.survey n d contents).memory.warnings = m.warnings ++ (Survey.of d.url contents).1.warnings := by
  unfold Memory.survey
  dsimp only
  split
  · rename_i f hfault
    cases hfault.symm.trans hsound
  · split
    · rfl
    · rfl

theorem warnings_of_turned (h : Turned m t turn) (ht : ∀ n contents, t ≠ .scanned n (.ok contents)) :
    turn.memory.warnings = m.warnings := by
  cases h with
  | unreadable | bare | spread => exact absurd rfl (ht _ _)
  | _ => rfl

/-- What is reported at the end are all warnings. -/
theorem warnings_of_finish (h : Turned m t turn) {report : Report} (hmove : turn.move = .finish (.ok report)) :
    report.warnings = turn.memory.warnings := by
  have hdeliver : ∀ {m' : Memory} {d : Node} {outcome : Except Fault (List Reference)},
      m'.deliver d outcome = .finish (.ok report) → report.warnings = m'.warnings := by
    intro m' d outcome hfinish
    unfold Memory.deliver at hfinish
    split at hfinish
    · cases hfinish
    · cases outcome with
      | error f => cases hfinish
      | ok rs =>
        cases hfinish
        rfl
  cases h with
  | refused | unreadable | bare | risen | sunk => exact hdeliver hmove
  | _ => cases hmove

/-- A thread that has surveyed leaves none behind that is about to survey. -/
theorem Turned.toSurvey_of_scanned {answer : Except Fault Text} (h : Turned m (.scanned n answer) turn) :
    ∀ x ∈ leftBehind load turn, x.toSurvey = none := by
  intro x hx
  cases h with
  | lost => cases hx
  | refused | unreadable | bare => exact (leftBehind_deliver x hx).1
  | spread =>
    obtain ⟨i, -, rfl⟩ := List.mem_map.1 hx
    rfl

namespace Queue

open Crawl

variable {q : Queue} {rest others : List Thread} {done : List Text} {held : Bool}

/-- A run, with the documents that are surveyed in it. -/
inductive Scans (load : Text → Except Fault Text) (url : Text) : Queue → List Text → Prop
  | start : Scans load url (start url) []
  | turn {q : Queue} {t : Thread} {rest : List Thread} {done : List Text} (held : Bool)
      (h : Scans load url q done) (hready : q.ready = t :: rest) :
      Scans load url (q.after load held (Imports.turn (fun _ => true) q.memory t) rest)
        (done ++ (t.survey? q.memory).toList)
  | arrive {q : Queue} {t : Thread} {others : List Thread} {done : List Text} (h : Scans load url q done)
      (hwaiting : q.waiting.Perm (t :: others)) :
      Scans load url { q with ready := q.ready ++ [t], waiting := others } done

theorem Scans.run (h : Scans load url q done) : Run load url q := by
  induction h with
  | start => exact .refl
  | turn held _ hready ih => exact ih.tail (.turn held hready)
  | arrive _ hwaiting ih => exact ih.tail (.arrive hwaiting)

theorem Run.exists_scans (h : Run load url q) : ∃ done, Scans load url q done := by
  induction h with
  | refl => exact ⟨[], .start⟩
  | tail _ hstep ih =>
    obtain ⟨done, h⟩ := ih
    cases hstep with
    | turn held hready => exact ⟨_, h.turn held hready⟩
    | arrive hwaiting => exact ⟨done, h.arrive hwaiting⟩

/-- A thread that surveys does so with the text behind the URL of its document. -/
theorem Run.survey_cases (hrun : Run load url q) (hready : q.ready = t :: rest) :
    (t.survey? q.memory = none ∧ ∀ n contents, t ≠ .scanned n (.ok contents)) ∨
      ∃ n d contents, t = .scanned n (.ok contents) ∧ q.memory.nodes[n]? = some d ∧
        t.survey? q.memory = some d.url ∧ load d.url = .ok contents ∧ Reaches load url d.url := by
  have hthere : t ∈ q.crawl.threads := by
    rw [threads_of_ready hready]
    exact List.mem_cons_self
  cases t with
  | scanned n answer =>
    cases answer with
    | error f => exact .inl ⟨rfl, nofun⟩
    | ok contents =>
      obtain ⟨o, ho, hanswer⟩ := hrun.grounded.answers n _ hthere
      obtain ⟨d, hd, rfl⟩ := exists_node_of_outline ho
      have hd : q.memory.nodes[n]? = some d := hd
      refine .inr ⟨n, d, contents, rfl, hd, ?_, hanswer.symm, hrun.grounded.reached _ (List.mem_of_getElem? ho)⟩
      simp [Thread.survey?, hd]
  | _ => exact .inl ⟨rfl, nofun⟩

/-- The documents that were surveyed are in order. -/
theorem Scans.orderly (h : Scans load url q done) (hreadable : Readable load url) :
    Orderly load url q done := by
  induction h with
  | start => exact orderly_start load url
  | arrive _ hwaiting ih => exact ih.arrive hwaiting
  | @turn q t rest done held h hready ih =>
    have hrun := h.run
    have hturned := turned q.memory t
    have hthreads : q.crawl.threads.Perm (t :: (rest ++ q.waiting)) := .of_eq (threads_of_ready hready)
    have hunfaulty : ¬ t.Faulty := (hrun.smooth hreadable).sound.threads t (hthreads.mem_iff.2 List.mem_cons_self)
    -- A turn surveys a document, or enters one, or does neither; only the first is recorded.
    cases hrun.grounded.effect (hrun.smooth hreadable) hreadable hthreads hturned with
    | @surveys n d answer ht hd hvisited hdue hnone =>
      have hsurvey : t.survey? q.memory = some d.url := by
        subst ht
        cases answer with
        | error f => exact absurd trivial hunfaulty
        | ok contents =>
          have hd : q.memory.nodes[n]? = some d := hd
          simp [Thread.survey?, hd]
      rw [hsurvey]
      exact ih.survey hrun hreadable hready hturned ht hd hvisited hdue hnone
    | enters ht hd hs henters hnew hvisited hthreads =>
      rw [ht, Thread.survey?, Option.toList_none, List.append_nil, ← ht]
      exact ih.enter hrun hreadable hready hturned ht hd hs henters hnew hvisited hthreads
    | passes hvisited hdue hsurveys hfollow =>
      have hsurvey : t.survey? q.memory = none := by
        rcases hrun.survey_cases hready with ⟨hnone, -⟩ | ⟨n, d, contents, rfl, -⟩
        · exact hnone
        · obtain ⟨x, hx, hn⟩ := (hsurveys n).2 rfl
          cases (hturned.toSurvey_of_scanned x hx).symm.trans hn
      rw [hsurvey, Option.toList_none, List.append_nil]
      exact ih.pass hrun hreadable hready hturned hvisited hdue hsurveys hfollow

/-- The warnings so far are those of the documents that were surveyed. -/
theorem Scans.warnings_eq (h : Scans load url q done) (hreadable : Readable load url) :
    q.memory.warnings = done.flatMap (warnings load) := by
  induction h with
  | start => rfl
  | arrive _ _ ih => exact ih
  | @turn q t rest done held h hready ih =>
    rw [memory_after, List.flatMap_append, ← ih]
    rcases h.run.survey_cases hready with ⟨hnone, ht⟩ | ⟨n, d, contents, rfl, hd, hsurvey, hload, hreaches⟩
    · rw [warnings_of_turned (turned _ _) ht, hnone]
      simp
    · have hturn : Imports.turn (fun _ => true) q.memory (.scanned n (.ok contents)) =
          q.memory.survey n d contents := by simp [Imports.turn, hd]
      rw [hturn, warnings_survey (hreadable.surveyed _ _ hreaches hload), hsurvey]
      simp [warnings, hload]

/-- Nothing comes after the report. -/
theorem Run.report_eq_none (hrun : Run load url q) (hreadable : Readable load url) (hready : q.ready = t :: rest) :
    q.report = none := by
  rcases (hrun.smooth hreadable).report with ⟨hnone, -⟩ | ⟨hended, -⟩
  · exact hnone
  · rw [threads_of_ready hready] at hended
    cases hended

theorem Run.warnings_reported (hrun : Run load url q) (hreadable : Readable load url) {report : Report}
    (hreport : q.report = some (.ok report)) : report.warnings = q.memory.warnings := by
  induction hrun with
  | refl => cases hreport
  | @tail q q' hrun hstep ih =>
    cases hstep with
    | arrive hwaiting => exact ih hreport
    | @turn t rest held hready =>
      have hbefore := Run.report_eq_none hrun hreadable hready
      rw [memory_after]
      unfold after at hreport
      cases hmove : (Imports.turn (fun _ => true) q.memory t).move with
      | ask u next =>
        rw [hmove] at hreport
        cases held <;> cases hbefore.symm.trans hreport
      | leave new =>
        rw [hmove] at hreport
        cases hbefore.symm.trans hreport
      | finish outcome =>
        rw [hmove] at hreport
        obtain rfl := Option.some.inj hreport
        exact warnings_of_finish (turned _ _) hmove

end Queue

end HtmlDeps.Imports
