import HtmlDeps.Crawl.Session
import HtmlDeps.Proofs.Crawl.Outcome

/-!
# Crawls with a queue

The threads of a crawl take their turns in the order in which they became ready (`Queue`).  A thread that asks
for a text goes on at once if the text is there, and waits for it otherwise; the texts that are waited for
arrive in any order.

What a queue does, a crawl may do in which any thread may take the next turn (`Queue.Run.exists_crawl`).  So a
queue comes to its end if only finitely many documents can be reached (`Queue.exists_ended`).

A session that is begun with one crawl is a queue in which nothing has to be waited for.  So what the session
reports, a queue reports (`Queue.run_of_crawl`).
-/

namespace HtmlDeps.Imports

open Crawl (rank)

/-- How far a crawl has come: the threads that are ready, those that wait for a text, with that text, the URLs
that were asked for, and how it has ended, if it has. -/
structure Queue where
  memory : Memory
  ready : List Thread
  waiting : List Thread
  asked : List Text
  report : Option (Except Fault Report)

namespace Queue

variable {load : Text → Except Fault Text} {url : Text} {q q' : Queue} {c : Crawl}

/-- A crawl that is about to begin. -/
def start (url : Text) : Queue := ⟨(Crawl.start url).memory, [.scan 0], [], [], none⟩

/-- The queue after the turn of its first thread, in front of the others; `held` says whether a text that the
thread asks for is still to come. -/
def after (load : Text → Except Fault Text) (q : Queue) (held : Bool) (turn : Turn Memory Thread)
    (rest : List Thread) : Queue :=
  match turn.move with
  | .ask u next =>
    if held then ⟨turn.memory, rest, next (load u) :: q.waiting, q.asked ++ [u], q.report⟩
    else ⟨turn.memory, next (load u) :: rest, q.waiting, q.asked ++ [u], q.report⟩
  | .leave new => ⟨turn.memory, rest ++ new, q.waiting, q.asked, q.report⟩
  | .finish outcome => ⟨turn.memory, rest, q.waiting, q.asked, some outcome⟩

/-- The first thread takes its turn, or a text arrives. -/
inductive Step (load : Text → Except Fault Text) : Queue → Queue → Prop
  | turn {q : Queue} {t : Thread} {rest : List Thread} (held : Bool) (h : q.ready = t :: rest) :
      Step load q (q.after load held (turn (fun _ => true) q.memory t) rest)
  | arrive {q : Queue} {t : Thread} {others : List Thread} (h : q.waiting.Perm (t :: others)) :
      Step load q { q with ready := q.ready ++ [t], waiting := others }

/-- What a crawl can come to. -/
abbrev Run (load : Text → Except Fault Text) (url : Text) : Queue → Prop :=
  Relation.ReflTransGen (Step load) (start url)

/-- Nothing is left to be done. -/
def Ended (q : Queue) : Prop := q.ready = [] ∧ q.waiting = []

/-- The crawl that a queue belongs to. -/
def crawl (q : Queue) : Crawl := ⟨q.memory, q.ready ++ q.waiting, q.asked, q.report⟩

theorem threads_of_ready {t : Thread} {rest : List Thread} (hready : q.ready = t :: rest) :
    q.crawl.threads = t :: (rest ++ q.waiting) := by
  rw [crawl, hready]
  rfl

/-- A crawl has come as far as the queue. -/
structure Carries (q : Queue) (c : Crawl) : Prop where
  memory : c.memory = q.memory
  threads : c.threads.Perm q.crawl.threads
  asked : c.asked = q.asked
  report : c.report = q.report

theorem carries_start (url : Text) : Carries (start url) (Crawl.start url) := ⟨rfl, .refl _, rfl, rfl⟩

/-- A turn in the queue is a turn in the crawl. -/
theorem Carries.turn {t : Thread} {rest : List Thread} (h : Carries q c) (hready : q.ready = t :: rest)
    (held : Bool) :
    ∃ c', Crawl.Step load c c' ∧ Carries (q.after load held (turn (fun _ => true) q.memory t) rest) c' := by
  have hthreads := h.threads
  rw [threads_of_ready hready] at hthreads
  refine ⟨_, .turn hthreads, ?_⟩
  rw [h.memory]
  unfold after Crawl.after
  cases (Imports.turn (fun _ => true) q.memory t).move with
  | ask u next =>
    cases held with
    | true => exact ⟨rfl, List.perm_middle.symm, congrArg (· ++ [u]) h.asked, h.report⟩
    | false => exact ⟨rfl, .refl _, congrArg (· ++ [u]) h.asked, h.report⟩
  | leave new =>
    refine ⟨rfl, ?_, h.asked, h.report⟩
    dsimp only
    rw [← List.append_assoc]
    exact List.perm_append_comm.append_right _
  | finish outcome => exact ⟨rfl, .refl _, h.asked, rfl⟩

theorem Carries.arrive {t : Thread} {others : List Thread} (h : Carries q c)
    (hwaiting : q.waiting.Perm (t :: others)) :
    Carries { q with ready := q.ready ++ [t], waiting := others } c := by
  refine ⟨h.memory, h.threads.trans ?_, h.asked, h.report⟩
  rw [crawl, crawl, List.append_assoc]
  exact hwaiting.append_left _

/-- What a queue comes to, a crawl can come to. -/
theorem Run.exists_crawl (h : Run load url q) : ∃ c, Crawl.Run load url c ∧ Carries q c := by
  induction h with
  | refl => exact ⟨_, .refl, carries_start url⟩
  | tail _ hstep ih =>
    obtain ⟨c, hrun, hcarries⟩ := ih
    cases hstep with
    | turn held hready =>
      obtain ⟨c', hturn, hcarries'⟩ := hcarries.turn hready held
      exact ⟨c', hrun.tail hturn, hcarries'⟩
    | arrive hwaiting => exact ⟨c, hrun, hcarries.arrive hwaiting⟩

theorem Run.grounded (h : Run load url q) : Crawl.Grounded load url q.crawl := by
  obtain ⟨⟨m, ts, asked, report⟩, hrun, hmemory, hthreads, hasked, -⟩ := h.exists_crawl
  have hgrounded := hrun.grounded
  obtain rfl : m = q.memory := hmemory
  obtain rfl : asked = q.asked := hasked
  have hmem : ∀ {t}, t ∈ ts → t ∈ q.crawl.threads := hthreads.mem_iff.1
  refine ⟨hgrounded.visited, hgrounded.nodup, hgrounded.top, hgrounded.reached, hgrounded.refs, hgrounded.below,
    fun n answer ht => hgrounded.answers n answer (hthreads.mem_iff.2 ht), fun n o ho => ?_, hgrounded.asked⟩
  rcases hgrounded.covered n o ho with ht | ⟨answer, ht⟩ | ⟨hrefs, hcovered⟩
  · exact .inl (hmem ht)
  · exact .inr (.inl ⟨answer, hmem ht⟩)
  · exact .inr (.inr ⟨hrefs, fun i r hr henters => (hcovered i r hr henters).imp_right hmem⟩)

theorem Run.smooth (h : Run load url q) (hreadable : Readable load url) : Crawl.Smooth q.crawl := by
  obtain ⟨c, hrun, hmemory, hthreads, -, hreport⟩ := h.exists_crawl
  obtain ⟨htidy, htold, hsound, hend⟩ := hrun.smooth hreadable
  rw [hmemory] at htidy htold hsound hend
  rw [hreport] at hend
  refine ⟨htidy.perm hthreads, htold.perm hthreads,
    ⟨hsound.nodes, fun t ht => hsound.threads t (hthreads.mem_iff.2 ht)⟩, ?_⟩
  rcases hend with ⟨hnone, hactive⟩ | ⟨hended, hrest⟩
  · exact .inl ⟨hnone, hactive.congr fun k hk => (hthreads.map Thread.place).mem_iff.1 hk⟩
  · rw [hended] at hthreads
    exact .inr ⟨hthreads.nil_eq.symm, hrest⟩

/-! ### The end -/

/-- How far a queue is from its end. -/
def left (urls : Finset Text) (q : Queue) : (Nat ×ₗ Nat ×ₗ Nat) ×ₗ Nat :=
  toLex (rank urls q.crawl, q.waiting.length)

theorem Carries.rank_eq (h : Carries q c) (urls : Finset Text) :
    rank urls c = rank urls q.crawl := by
  rw [rank, rank, h.memory, Crawl.work_perm h.threads]
  rfl

theorem Run.left_lt {urls : Finset Text} (h : Run load url q) (hurls : ∀ u, Reaches load url u → u ∈ urls)
    (hstep : Step load q q') : left urls q' < left urls q := by
  obtain ⟨c, hrun, hcarries⟩ := h.exists_crawl
  unfold left
  rw [← hcarries.rank_eq]
  cases hstep with
  | turn held hready =>
    obtain ⟨c', hturn, hcarries'⟩ := hcarries.turn hready held
    rw [← hcarries'.rank_eq]
    exact Prod.Lex.toLex_lt_toLex.2 (.inl (hrun.rank_lt hurls hturn))
  | arrive hwaiting =>
    rw [(hcarries.arrive hwaiting).rank_eq]
    refine Prod.Lex.toLex_lt_toLex.2 (.inr ⟨rfl, ?_⟩)
    rw [hwaiting.length_eq]
    exact Nat.lt_succ_self _

theorem run_of_steps {f : Nat → Queue} (hstart : f 0 = start url) (hsteps : ∀ k, Step load (f k) (f (k + 1)))
    (k : Nat) : Run load url (f k) := by
  induction k with
  | zero => rw [hstart]
  | succ k ih => exact ih.tail (hsteps k)

/-- A crawl of finitely many documents does not go on for ever. -/
theorem not_endless (hfinite : {u | Reaches load url u}.Finite) :
    ¬ ∃ f : Nat → Queue, f 0 = start url ∧ ∀ k, Step load (f k) (f (k + 1)) := by
  rintro ⟨f, hstart, hsteps⟩
  have hurls : ∀ u, Reaches load url u → u ∈ hfinite.toFinset := fun u => hfinite.mem_toFinset.2
  obtain ⟨k, hk⟩ := WellFounded.not_rel_apply_succ (r := (· < ·)) fun k => (f k).left hfinite.toFinset
  exact hk ((run_of_steps hstart hsteps k).left_lt hurls (hsteps k))

/-- It can be led to its end, one step after the other. -/
theorem exists_ended (hfinite : {u | Reaches load url u}.Finite) {P : Queue → Prop} (hstart : P (start url))
    (hstep : ∀ q, Run load url q → P q → ¬ q.Ended → ∃ q', Step load q q' ∧ P q') :
    ∃ q, Run load url q ∧ q.Ended ∧ P q := by
  have hurls : ∀ u, Reaches load url u → u ∈ hfinite.toFinset := fun u => hfinite.mem_toFinset.2
  have key : ∀ q, Run load url q → P q → ∃ q, Run load url q ∧ q.Ended ∧ P q := by
    intro q
    induction q using (InvImage.wf (left hfinite.toFinset) wellFounded_lt).induction with
    | _ q ih =>
      intro hrun hq
      by_cases hended : q.Ended
      · exact ⟨q, hrun, hended, hq⟩
      · obtain ⟨q', hnext, hq'⟩ := hstep q hrun hq hended
        exact ih q' (hrun.left_lt hurls hnext) (hrun.tail hnext) hq'
  exact key (start url) .refl hstart

end Queue

end HtmlDeps.Imports

namespace HtmlDeps

/-! ### Sessions as queues -/

/-- The turn of the thread that is ready first. -/
theorem Session.step_cons {C : Crawler} {s : Session C} {k : Nat} {t : C.Thread} {rest : List (Nat × C.Thread)}
    {m : C.Memory} (load : Text → Except Fault Text) (hready : s.ready = (k, t) :: rest)
    (hmemory : s.memories[k]? = some m) :
    s.step load =
      let after (ready : List (Nat × C.Thread)) (calls : List Text) : Session C :=
        ⟨s.memories.set k (C.turn m t).memory, ready, calls⟩
      match (C.turn m t).move with
      | .ask url next => (after ((k, next (load url)) :: rest) (s.calls ++ [url]), none)
      | .leave ts => (after (rest ++ ts.map (k, ·)) s.calls, none)
      | .finish outcome => (after rest s.calls, some (k, outcome)) := by
  rw [Session.step, hready]
  dsimp only
  rewrite [hmemory]
  rfl

namespace Imports.Queue

variable {load : Text → Except Fault Text} {url : Text} {q : Queue}

/-- A session of crawls along imports, for URLs that can all be loaded. -/
abbrev ImportSession : Type := Session (Crawler.imports fun _ => true)

variable {s s' : ImportSession} {limit : Nat} {outcome : Except Fault Report}

/-- The session has come as far as the queue of its one crawl. -/
structure Conducts (s : ImportSession) (q : Queue) : Prop where
  memories : s.memories = [q.memory]
  ready : s.ready = q.ready.map (0, ·)
  waiting : q.waiting = []
  calls : s.calls = q.asked

/-- A turn in the session is one in the queue. -/
theorem Conducts.step {found : Option (Nat × Except Fault Report)} (h : Conducts s q) (hready : s.ready ≠ [])
    (hstep : s.step load = (s', found)) :
    ∃ q', Step load q q' ∧ Conducts s' q' ∧
      ((found = none ∧ q'.report = q.report) ∨ ∃ outcome, found = some (0, outcome) ∧ q'.report = some outcome) := by
  have hqueue := h.ready
  cases hq : q.ready with
  | nil =>
    rw [hq] at hqueue
    exact absurd hqueue hready
  | cons t rest =>
    rw [hq] at hqueue
    have hmemory : s.memories[0]? = some q.memory := by
      rw [h.memories]
      rfl
    rw [Session.step_cons load hqueue hmemory] at hstep
    refine ⟨_, .turn false hq, ?_⟩
    unfold after
    dsimp only at hstep
    rw [h.memories] at hstep
    -- The session and the queue follow the same move, so in each case the states are equal by computation.
    split at hstep
    · rename_i u next hmove
      obtain ⟨rfl, rfl⟩ := Prod.mk.inj hstep
      rw [show (turn (fun _ => true) q.memory t).move = .ask u next from hmove]
      exact ⟨⟨rfl, rfl, h.waiting, congrArg (· ++ [u]) h.calls⟩, .inl ⟨rfl, rfl⟩⟩
    · rename_i new hmove
      obtain ⟨rfl, rfl⟩ := Prod.mk.inj hstep
      rw [show (turn (fun _ => true) q.memory t).move = .leave new from hmove]
      exact ⟨⟨rfl, (List.map_append ..).symm, h.waiting, h.calls⟩, .inl ⟨rfl, rfl⟩⟩
    · rename_i outcome hmove
      obtain ⟨rfl, rfl⟩ := Prod.mk.inj hstep
      rw [show (turn (fun _ => true) q.memory t).move = .finish outcome from hmove]
      exact ⟨⟨rfl, rfl, h.waiting, h.calls⟩, .inr ⟨outcome, rfl, rfl⟩⟩

/-- What ends the crawl of a session is reported by a queue. -/
theorem Conducts.runTo (h : Conducts s q) (hready : s.ready ≠ [])
    (hend : s.runTo load 0 limit = (s', some outcome)) :
    ∃ q', Relation.ReflTransGen (Step load) q q' ∧ Conducts s' q' ∧ q'.report = some outcome := by
  induction limit generalizing s q with
  | zero => cases hend
  | succ limit ih =>
    cases hstep : s.step load with | mk s₁ found =>
    obtain ⟨q₁, hturn, hconducts, hfound⟩ := h.step hready hstep
    rw [Session.runTo, hstep] at hend
    rcases hfound with ⟨rfl, -⟩ | ⟨outcome', rfl, hreport⟩
    · dsimp only at hend
      split at hend
      · cases hend
      · rename_i hnonempty
        obtain ⟨q', hsteps, hrest⟩ := ih hconducts (fun hempty => hnonempty (List.isEmpty_iff.2 hempty)) hend
        exact ⟨q', .head hturn hsteps, hrest⟩
    · dsimp only at hend
      rw [if_pos rfl] at hend
      obtain ⟨rfl, heq⟩ := Prod.mk.inj hend
      exact ⟨q₁, .single hturn, hconducts, hreport.trans heq⟩

/-- What a session reports, a queue reports that asks for the same URLs. -/
theorem run_of_crawl (h : ((Session.start : ImportSession).crawl load limit url).2.1 = some outcome) :
    ∃ q, Run load url q ∧ q.report = some outcome ∧
      q.asked = ((Session.start : ImportSession).crawl load limit url).2.2 := by
  have hconducts : Conducts ⟨[(Crawl.start url).memory], [(0, .scan 0)], []⟩ (start url) :=
    ⟨rfl, rfl, rfl, rfl⟩
  obtain ⟨q, hrun, hend, hreport⟩ := hconducts.runTo (List.cons_ne_nil _ _) (Prod.ext rfl h)
  exact ⟨q, hrun, hreport, hend.calls.symm⟩

end Imports.Queue
end HtmlDeps
