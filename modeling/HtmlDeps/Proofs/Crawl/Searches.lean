import HtmlDeps.Proofs.Crawl.Orders
import HtmlDeps.Proofs.Crawl.Queue

/-!
# Queues and orders of surveys

In a queue, the threads that follow the references of a document take their turns before those of a document
that is surveyed later (`Queue.Orderly`).  So the order of the surveys decides what is reported, and it is up
to the order in which the texts arrive: any order of surveys can come about (`Queue.exists_orderly_of_searched`),
and what a crawl can report is listed by the trees of these orders (`Queue.reported_iff`).
-/

namespace HtmlDeps.Imports

open Memory

variable {load : Text → Except Fault Text} {url p q v w : Text} {i j : Nat} {order more : List Text}

namespace Queue

open Crawl

variable {q : Queue} {t : Thread} {rest : List Thread} {held : Bool} {turn : Turn Memory Thread}

theorem memory_after : (q.after load held turn rest).memory = turn.memory := by
  unfold after
  split
  · split <;> rfl
  · rfl
  · rfl

/-- After a turn there are the other threads, and those that it leaves behind. -/
theorem forall_after {P : Thread → Prop} :
    (∀ x ∈ (q.after load held turn rest).ready ++ (q.after load held turn rest).waiting, P x) ↔
      (∀ x ∈ rest ++ q.waiting, P x) ∧ ∀ x ∈ leftBehind load turn, P x := by
  have hmem : ∀ x, x ∈ (q.after load held turn rest).ready ++ (q.after load held turn rest).waiting ↔
      x ∈ rest ++ q.waiting ∨ x ∈ leftBehind load turn := fun x => by
    unfold after leftBehind
    cases turn.move with
    | ask u next => cases held <;> simp <;> tauto
    | leave new => simp; tauto
    | finish outcome => simp
  simp only [hmem, or_imp, forall_and]

theorem due_after {visited : List Text}
    (hask : ∀ u next, turn.move = .ask u next → (next (load u)).due visited = none) :
    (q.after load held turn rest).ready.filterMap (Thread.due visited) =
      rest.filterMap (Thread.due visited) ++ (leftBehind load turn).filterMap (Thread.due visited) := by
  unfold after leftBehind
  cases hmove : turn.move with
  | ask u next =>
    have hnone := hask u next hmove
    cases held <;> simp [hnone]
  | leave new => simp
  | finish outcome => simp

/-- The documents in the order in which they were surveyed.  The references that were followed come before
those that are still to be followed, and a document was entered where it was first led to. -/
structure Orderly (load : Text → Except Fault Text) (url : Text) (q : Queue) (order : List Text) : Prop where
  searched : order = [] ∨ Searched load url order
  mem : ∀ u ∈ order, u ∈ q.memory.visited
  surveyed : ∀ n u, q.memory.visited[n]? = some u →
    (u ∈ order ↔ ∀ t ∈ q.ready ++ q.waiting, t.toSurvey ≠ some n)
  line : ∃ done, slots load order = done ++ q.ready.filterMap (Thread.due q.memory.visited) ∧
    ∀ p i v, (p, i) ∈ done → ImportAt load p i v → v ∈ q.memory.visited
  picks : ∀ p i, Picked q.memory p i → Claims load url order p i
  held : ∀ t ∈ q.waiting, ∀ visited, t.due visited = none

theorem orderly_start (load : Text → Except Fault Text) (url : Text) : Orderly load url (start url) [] := by
  refine ⟨.inl rfl, nofun, fun n u hn => ?_, ⟨[], rfl, nofun⟩, ?_, nofun⟩
  · cases n with
    | zero => exact iff_of_false List.not_mem_nil fun hall => hall (.scan 0) List.mem_cons_self rfl
    | succ n => cases hn
  · rintro p i ⟨n, d, k, hd, -, hchild⟩
    have hlt := (grounded_start load url).lt_of_child hchild
    obtain ⟨e, he, -⟩ := hchild
    have hk := (List.getElem?_eq_some_iff.1 he).1
    exact absurd hk (Nat.not_lt.2 (Nat.succ_le_of_lt (Nat.zero_lt_of_lt hlt)))

theorem Orderly.arrive {order : List Text} {others : List Thread} (h : Orderly load url q order)
    (hwaiting : q.waiting.Perm (t :: others)) :
    Orderly load url { q with ready := q.ready ++ [t], waiting := others } order := by
  have hnone := h.held t (hwaiting.mem_iff.2 List.mem_cons_self) q.memory.visited
  have hmem : ∀ x, x ∈ q.ready ++ [t] ++ others ↔ x ∈ q.ready ++ q.waiting := fun x => by
    rw [List.append_assoc, List.mem_append, List.mem_append (s := q.ready), hwaiting.mem_iff]
    rfl
  refine ⟨h.searched, h.mem, fun n u hn => ?_, ?_, h.picks, fun x hx => ?_⟩
  · rw [h.surveyed n u hn]
    exact forall_congr' fun x => imp_congr_left (hmem x).symm
  · simpa [hnone] using h.line
  · exact h.held x (hwaiting.mem_iff.2 (List.mem_cons_of_mem _ hx))

/-- No thread that waits after a turn is about to follow a reference. -/
theorem Orderly.held_after {order : List Text} (h : Orderly load url q order) (hturned : Turned q.memory t turn) :
    ∀ x ∈ (q.after load held turn rest).waiting, ∀ visited, x.due visited = none := by
  unfold after
  cases hmove : turn.move with
  | ask u next =>
    cases held with
    | true =>
      intro x hx visited
      rcases List.mem_cons.1 hx with rfl | hx
      · exact hturned.due_of_ask hmove (load u) visited
      · exact h.held x hx visited
    | false => exact h.held
  | leave new => exact h.held
  | finish outcome => exact h.held

section

variable {order : List Text} {n : Nat} {d : Node} (h : Orderly load url q order) (hrun : Run load url q)
  (hreadable : Readable load url) (hready : q.ready = t :: rest) (hturned : Turned q.memory t turn)

include hrun hreadable hready in
/-- Every document is surveyed by one thread. -/
theorem Run.survey_once (ht : t.toSurvey = some n) : ∀ x ∈ rest ++ q.waiting, x.toSurvey ≠ some n := by
  intro x hx hsurvey
  have hplace : ∀ {y : Thread}, y.toSurvey = some n → y.place = .document n := by
    intro y hy
    cases y with
    | scan k | scanned k => exact congrArg Place.document (Option.some.inj hy)
    | _ => cases hy
  have hapart := (hrun.smooth hreadable).tidy.apart
  rw [threads_of_ready hready] at hapart
  refine (List.nodup_cons.1 hapart).1 ?_
  rw [hplace ht, ← hplace hsurvey]
  exact List.mem_map_of_mem hx

include hrun hreadable in
/-- A thread that is about to follow a reference finds it in its slot. -/
theorem Run.slot_of_follow (ht : .follow n i ∈ q.ready ++ q.waiting) :
    ∃ d r, q.memory.nodes[n]? = some d ∧ d.slots[i]? = some (r, none) := by
  obtain ⟨⟨r, d, hd, hs⟩, -⟩ := (hrun.smooth hreadable).tidy.fits _ ht
  exact ⟨d, r, hd, hs⟩

include hrun hreadable in
theorem Run.visited_of_survey (ht : t ∈ q.ready ++ q.waiting) (hsurvey : t.toSurvey = some n) :
    ∃ u, q.memory.visited[n]? = some u := by
  have hfits := (hrun.smooth hreadable).tidy.fits t ht
  cases t with
  | scan k | scanned k =>
    obtain ⟨d, hd, -⟩ := hfits
    exact ⟨d.url, Option.some.inj hsurvey ▸ hrun.grounded.getElem?_visited hd⟩
  | _ => cases hsurvey

include hrun hreadable hready in
/-- The references that are about to be followed are at places that stay. -/
theorem Run.due_grown {u : Text} : rest.filterMap (Thread.due (q.memory.visited ++ [u])) =
    rest.filterMap (Thread.due q.memory.visited) := List.filterMap_congr fun x hx => by
  cases x with
  | follow k j =>
    obtain ⟨d', -, hd', -⟩ := hrun.slot_of_follow hreadable
      (hready ▸ List.mem_append_left _ (List.mem_cons_of_mem _ hx))
    have hk : q.memory.visited[k]? = some d'.url := hrun.grounded.getElem?_visited hd'
    rw [Thread.due, Thread.due, List.getElem?_append_left (List.getElem?_eq_some_iff.1 hk).1]
  | _ => rfl

include h hready in
theorem Orderly.surveyed_cons {u : Text} (hu : q.memory.visited[n]? = some u) :
    u ∈ order ↔ t.toSurvey ≠ some n ∧ ∀ x ∈ rest ++ q.waiting, x.toSurvey ≠ some n := by
  rw [h.surveyed n u hu, hready, List.cons_append, List.forall_mem_cons]

include h hrun hreadable hready hturned

/-- The thread in front surveys a document. -/
theorem Orderly.survey {answer : Except Fault Text} (ht : t = .scanned n answer) (hd : q.memory.nodes[n]? = some d)
    (hvisited : turn.memory.visited = q.memory.visited)
    (hdue : (leftBehind load turn).filterMap (Thread.due q.memory.visited) = slots load [d.url])
    (hnone : ∀ x ∈ leftBehind load turn, x.toSurvey = none) :
    Orderly load url (q.after load held turn rest) (order ++ [d.url]) := by
  have hgrounded := hrun.grounded
  have hn : q.memory.visited[n]? = some d.url := hgrounded.getElem?_visited hd
  have hsurvey : t.toSurvey = some n := by rw [ht]; rfl
  have hnew : d.url ∉ order := fun hmem => ((h.surveyed_cons hready hn).1 hmem).1 hsurvey
  refine ⟨.inr ?_, fun u hu => ?_, fun k u hk => ?_, ?_, ?_, h.held_after hturned⟩
  · by_cases hurl : d.url = url
    · rw [hurl] at hnew ⊢
      rcases h.searched with rfl | hsearched
      · exact .first
      · exact absurd hsearched.mem_url hnew
    · -- the document was entered from another one, which was surveyed before
      obtain ⟨k, e, i, he, -, hchild⟩ := hgrounded.exists_parent (hrun.smooth hreadable).tidy hd hurl
      have hclaims := h.picks e.url i ⟨k, e, n, he, rfl, hchild⟩
      obtain ⟨d', hd', -, himport, -⟩ := hgrounded.import_of_child hchild he
      obtain rfl := Option.some.inj (hd.symm.trans hd')
      rcases h.searched with rfl | hsearched
      · exact absurd hclaims.mem List.not_mem_nil
      · exact .next hsearched hclaims.mem himport.imported hnew
  · rw [memory_after, hvisited]
    rcases List.mem_append.1 hu with hu | hu
    · exact h.mem u hu
    · exact List.mem_singleton.1 hu ▸ List.mem_of_getElem? hn
  · rw [memory_after, hvisited] at hk
    rw [forall_after, List.mem_append, List.mem_singleton]
    by_cases hnk : n = k
    · subst hnk
      obtain rfl := Option.some.inj (hn.symm.trans hk)
      refine iff_of_true (.inr rfl) ⟨hrun.survey_once hreadable hready hsurvey, fun x hx => ?_⟩
      rw [hnone x hx]
      exact nofun
    · have hother : u ≠ d.url := fun heq =>
        hnk ((List.getElem?_inj (List.getElem?_eq_some_iff.1 hn).1 hgrounded.nodup).1 (hn.trans (heq ▸ hk.symm)))
      rw [h.surveyed_cons hready hk, hsurvey]
      simp +contextual [hother, hnk, hnone]
  · obtain ⟨done, hslots, hdone⟩ := h.line
    refine ⟨done, ?_, ?_⟩
    · rw [memory_after, hvisited, slots_append, hslots, due_after fun u next hmove => hturned.due_of_ask hmove _ _,
        hdue, hready, List.filterMap_cons_none (by rw [ht]; rfl), List.append_assoc]
    · rw [memory_after, hvisited]
      exact hdone
  · rw [memory_after]
    refine hgrounded.keeps hturned (fun p i hp => (h.picks p i hp).mono [d.url]) ?_
    rintro ⟨k, i, d', r, found, hfollow, -⟩
    cases ht.symm.trans hfollow

/-- The thread in front enters a document. -/
theorem Orderly.enter {r : Reference} {found : Option (List Reference)} (ht : t = .follow n i)
    (hd : q.memory.nodes[n]? = some d) (hs : d.slots[i]? = some (r, found)) (henters : Enters r)
    (hnew : r.url ∉ q.memory.visited) (hvisited : turn.memory.visited = q.memory.visited ++ [r.url])
    (hthreads : leftBehind load turn = [.scanned q.memory.nodes.length (load r.url)]) :
    Orderly load url (q.after load held turn rest) order := by
  have hgrounded := hrun.grounded
  have hn : q.memory.visited[n]? = some d.url := hgrounded.getElem?_visited hd
  have hlength : q.memory.nodes.length = q.memory.visited.length := by
    have hvisited : q.memory.visited = q.memory.outlines.map (·.url) := hgrounded.visited
    rw [hvisited, Memory.outlines, List.map_map, List.length_map]
  have himport : ImportAt load d.url i r.url := ⟨r, hgrounded.reference_of_slot hd hs, henters, rfl⟩
  have hnext : t.due q.memory.visited = some (d.url, i) := by
    rw [ht, Thread.due, hn]
    rfl
  obtain ⟨done, hslots, hdone⟩ := h.line
  rw [hready, List.filterMap_cons_some hnext] at hslots
  exact {
    searched := h.searched
    mem := fun u hu => by
      rw [memory_after, hvisited]
      exact List.mem_append_left _ (h.mem u hu)
    surveyed := fun k u hk => by
      rw [memory_after, hvisited] at hk
      rw [forall_after, hthreads, List.forall_mem_singleton, hlength]
      -- Documents known before are surveyed or not as before; the new one has its survey ahead of it.
      by_cases hlt : k < q.memory.visited.length
      · rw [List.getElem?_append_left hlt] at hk
        rw [h.surveyed_cons hready hk, ht]
        simp [Thread.toSurvey, hlt.ne']
      · rw [List.getElem?_append_right (not_lt.1 hlt), List.getElem?_singleton] at hk
        split at hk
        · rename_i hzero
          obtain rfl := Option.some.inj hk
          refine iff_of_false (fun hmem => hnew (h.mem _ hmem)) fun hall => hall.2 ?_
          exact congrArg some (Nat.le_antisymm (not_lt.1 hlt) (Nat.sub_eq_zero_iff_le.1 hzero))
        · cases hk
    line := by
      -- The slot in front goes from those still due to those that are done.
      refine ⟨done ++ [(d.url, i)], ?_, fun p j v hmem hleads => ?_⟩
      · rw [memory_after, hvisited, due_after fun u next hmove => hturned.due_of_ask hmove _ _, hthreads, hslots,
          List.append_assoc, hrun.due_grown hreadable hready]
        simp [Thread.due]
      · rw [memory_after, hvisited]
        rcases List.mem_append.1 hmem with hmem | hmem
        · exact List.mem_append_left _ (hdone p j v hmem hleads)
        · obtain ⟨rfl, rfl⟩ := Prod.mk.inj (List.mem_singleton.1 hmem)
          exact List.mem_append_right _ (List.mem_singleton.2 (hleads.unique himport))
    picks := by
      rw [memory_after]
      refine hgrounded.keeps hturned h.picks ?_
      rintro ⟨k, j, d', r', found', heq, hd', hs', henters', hnew', hnot⟩
      obtain ⟨rfl, rfl⟩ := Thread.follow.inj (ht.symm.trans heq)
      obtain rfl := Option.some.inj (hd.symm.trans hd')
      -- All that stands ahead in the line has been entered, so the slot is the first to name the URL.
      refine hnot (claims_of_slots hslots himport (fun hurl => ?_) fun x hx hleads => hnew (hdone _ _ _ hx hleads))
      obtain ⟨d₀, hd₀, hurl₀, -⟩ := hgrounded.top_node
      exact hnew (hurl ▸ hurl₀ ▸ hgrounded.mem_visited hd₀)
    held := h.held_after hturned }

/-- The thread in front does neither. -/
theorem Orderly.pass (hvisited : turn.memory.visited = q.memory.visited)
    (hdue : ∀ n i, .follow n i ∉ leftBehind load turn)
    (hsurveys : ∀ n, (∃ x ∈ leftBehind load turn, x.toSurvey = some n) ↔ t.toSurvey = some n)
    (hfollow : ∀ (n i : Nat) (d : Node) (r : Reference) (found : Option (List Reference)), t = .follow n i →
      q.memory.nodes[n]? = some d → d.slots[i]? = some (r, found) → Enters r → r.url ∈ q.memory.visited) :
    Orderly load url (q.after load held turn rest) order := by
  have hgrounded := hrun.grounded
  refine ⟨h.searched, fun u hu => ?_, fun k u hk => ?_, ?_, ?_, h.held_after hturned⟩
  · rw [memory_after, hvisited]
    exact h.mem u hu
  · rw [memory_after, hvisited] at hk
    rw [forall_after, h.surveyed_cons hready hk, and_comm]
    refine and_congr_right fun _ => (not_congr (hsurveys k)).symm.trans ?_
    exact not_exists.trans (forall_congr' fun _ => not_and)
  · obtain ⟨done, hslots, hdone⟩ := h.line
    -- No slot is added to the line, and the one in front of it goes, if the thread was following one.
    have hbehind : (leftBehind load turn).filterMap (Thread.due q.memory.visited) = [] :=
      List.filterMap_eq_nil_iff.2 fun x hx => by
        cases x with
        | follow n i => exact absurd hx (hdue n i)
        | _ => rfl
    rw [memory_after, hvisited, due_after fun u next hmove => hturned.due_of_ask hmove _ _, hbehind, List.append_nil]
    rw [hready] at hslots
    cases hnext : t.due q.memory.visited with
    | none =>
      rw [List.filterMap_cons_none hnext] at hslots
      exact ⟨done, hslots, hdone⟩
    | some x =>
      rw [List.filterMap_cons_some hnext] at hslots
      refine ⟨done ++ [x], by rw [hslots, List.append_assoc]; rfl, fun p i v hmem hleads => ?_⟩
      rcases List.mem_append.1 hmem with hmem | hmem
      · exact hdone p i v hmem hleads
      · rw [← List.mem_singleton.1 hmem] at hnext
        cases t with
        | follow n j =>
          obtain ⟨d, r, hd, hs⟩ := hrun.slot_of_follow hreadable
            (hready ▸ List.mem_append_left _ List.mem_cons_self)
          rw [Thread.due, show q.memory.visited[n]? = some d.url from hgrounded.getElem?_visited hd] at hnext
          obtain ⟨rfl, rfl⟩ := Prod.mk.inj (Option.some.inj hnext)
          obtain ⟨r', hr', henters, rfl⟩ := hleads
          obtain rfl := Option.some.inj ((hgrounded.reference_of_slot hd hs).symm.trans hr')
          exact hfollow n j d r none rfl hd hs henters
        | _ => cases hnext
  · rw [memory_after]
    refine hgrounded.keeps hturned h.picks ?_
    rintro ⟨k, j, d, r, found, ht, hd, hs, henters, hnew, -⟩
    exact hnew (hfollow k j d r found ht hd hs henters)

/-- A turn adds to the order what it surveys. -/
theorem Orderly.advance :
    Orderly load url (q.after load held turn rest) order ∨ ∃ n u, t.toSurvey = some n ∧
      q.memory.visited[n]? = some u ∧ Orderly load url (q.after load held turn rest) (order ++ [u]) := by
  have hthreads : q.crawl.threads.Perm (t :: (rest ++ q.waiting)) := .of_eq (threads_of_ready hready)
  cases hrun.grounded.effect (hrun.smooth hreadable) hreadable hthreads hturned with
  | surveys ht hd hvisited hdue hnone =>
    refine .inr ⟨_, _, by rw [ht]; rfl, hrun.grounded.getElem?_visited hd, ?_⟩
    exact h.survey hrun hreadable hready hturned ht hd hvisited hdue hnone
  | enters ht hd hs henters hnew hvisited hthreads =>
    exact .inl (h.enter hrun hreadable hready hturned ht hd hs henters hnew hvisited hthreads)
  | passes hvisited hdue hsurveys hfollow =>
    exact .inl (h.pass hrun hreadable hready hturned hvisited hdue hsurveys hfollow)

end

theorem Run.exists_orderly (hrun : Run load url q) (hreadable : Readable load url) :
    ∃ order, Orderly load url q order := by
  induction hrun with
  | refl => exact ⟨[], orderly_start load url⟩
  | tail hrun hstep ih =>
    obtain ⟨order, h⟩ := ih
    cases hstep with
    | turn held hready =>
      rcases h.advance hrun hreadable hready (turned _ _) with h | ⟨n, u, -, -, h⟩
      · exact ⟨order, h⟩
      · exact ⟨order ++ [u], h⟩
    | arrive hwaiting => exact ⟨order, h.arrive hwaiting⟩

/-! ### The end -/

section

variable {order : List Text} (h : Orderly load url q order) (hrun : Run load url q) (hreadable : Readable load url)
  (hended : q.Ended)

include hrun hreadable hended in
theorem Run.over : Over load url q.crawl :=
  ⟨hrun.grounded, hrun.smooth hreadable, by rw [crawl, hended.1, hended.2]; rfl⟩

include h hrun hended

/-- At the end, all documents that can be reached are surveyed. -/
theorem Orderly.complete (hv : Reaches load url v) : v ∈ order := by
  have hthreads : q.ready ++ q.waiting = [] := by rw [hended.1, hended.2]; rfl
  obtain ⟨n, hn⟩ := List.mem_iff_getElem?.1 (hrun.grounded.visited_of_reaches hthreads hv)
  refine (h.surveyed n v hn).2 fun t ht => ?_
  rw [hthreads] at ht
  cases ht

include hreadable

/-- Documents are expanded behind the imports that lead to them first. -/
theorem Orderly.picked_iff (hsearched : Searched load url order) :
    Picked q.memory p i ↔ Claims load url order p i := by
  have hover := hrun.over hreadable hended
  refine ⟨h.picks p i, fun hclaims => ?_⟩
  have hp := hsearched.reaches p hclaims.mem
  obtain ⟨v, hne, hv⟩ := hclaims
  have himport := leads_iff.1 (List.find?_some hv)
  obtain ⟨k, e, he, rfl⟩ := hover.grounded.exists_node
    (hover.grounded.visited_of_reaches hover.ended (hp.tail himport.imported))
  obtain ⟨n, d, j, hd, -, hchild⟩ := hover.grounded.exists_parent hover.smooth.tidy he hne
  obtain ⟨e', he', -, himport', -⟩ := hover.grounded.import_of_child hchild hd
  obtain rfl := Option.some.inj (he.symm.trans he')
  have hpicked : Picked q.memory d.url j := ⟨n, d, k, hd, rfl, hchild⟩
  obtain ⟨v', -, hv'⟩ := h.picks d.url j hpicked
  obtain rfl := (leads_iff.1 (List.find?_some hv')).unique himport'
  obtain ⟨rfl, rfl⟩ := Prod.mk.inj (Option.some.inj (hv.symm.trans hv'))
  exact hpicked

/-- What is reported at the end. -/
theorem Orderly.report :
    Searched load url order ∧ Spanning load url (Claims load url order) ∧
      ∃ ws out, q.report = some (.ok ⟨ws, firsts [] out⟩) ∧
        Lists load (Claims load url order) url 0 (references load url) out := by
  have hover := hrun.over hreadable hended
  have hsearched : Searched load url order := h.searched.resolve_left fun hempty => by
    have hmem := h.complete hrun hended .refl
    rw [hempty] at hmem
    cases hmem
  have hsame : Picked q.memory = Claims load url order :=
    funext fun p => funext fun i => propext (h.picked_iff hrun hreadable hended hsearched)
  obtain ⟨ws, out, hreport, hlists⟩ := hover.report
  have hspanning := hover.spanning
  exact ⟨hsearched, hsame ▸ hspanning, ws, out, hreport, hsame ▸ hlists⟩

end

/-! ### Every order can come about -/

/-- Of the threads that are ready after a turn whose text is still to come, none but the others may be about
to survey a document. -/
theorem mem_of_ready_after (h : Turned q.memory t turn) {x : Thread}
    (hx : x ∈ (q.after load true turn rest).ready) (hsurvey : x.toSurvey ≠ none) : x ∈ rest := by
  unfold after at hx
  cases hmove : turn.move with
  | ask u next =>
    rw [hmove] at hx
    exact hx
  | leave new =>
    rw [hmove] at hx
    exact (List.mem_append.1 hx).resolve_right fun hnew => hsurvey (h.toSurvey_of_leave hmove x hnew)
  | finish outcome =>
    rw [hmove] at hx
    exact hx

/-- The documents `before` are surveyed, and no other is about to be than the first of those that come `after`. -/
structure Heading (load : Text → Except Fault Text) (url : Text) (before after : List Text) (q : Queue) : Prop where
  orderly : Orderly load url q before
  next : ∀ t ∈ q.ready, ∀ n, t.toSurvey = some n →
    ∃ u, q.memory.visited[n]? = some u ∧ after.head? = some u

section

variable {before after : List Text} (h : Heading load url before after q) (hrun : Run load url q)
  (hreadable : Readable load url)

include h hrun hreadable

/-- The thread in front takes its turn. -/
theorem Heading.advance (hready : q.ready = t :: rest) :
    ∃ before' after', before' ++ after' = before ++ after ∧
      Heading load url before' after' (q.after load true (Imports.turn (fun _ => true) q.memory t) rest) := by
  have hturned := turned q.memory t
  have hthreads : q.crawl.threads.Perm (t :: (rest ++ q.waiting)) := .of_eq (threads_of_ready hready)
  have heffect := hrun.grounded.effect (hrun.smooth hreadable) hreadable hthreads hturned
  have hothers : ∀ x ∈ rest, x ∈ q.ready := fun x hx => hready ▸ List.mem_cons_of_mem _ hx
  have hadvance := @Orderly.advance load url q t rest true _ before h.orderly hrun hreadable hready hturned
  rcases hadvance with horderly | ⟨n, u, ht, hn, horderly⟩
  · refine ⟨before, after, rfl, horderly, fun x hx k hk => ?_⟩
    have hrest := mem_of_ready_after hturned hx (by rw [hk]; exact nofun)
    obtain ⟨u, hu, hnext⟩ := h.next x (hothers x hrest) k hk
    exact ⟨u, by rw [memory_after]; exact heffect.getElem?_visited hu, hnext⟩
  · obtain ⟨u', hu', hnext⟩ := h.next t (hready ▸ List.mem_cons_self) n ht
    obtain rfl := Option.some.inj (hn.symm.trans hu')
    obtain ⟨after, rfl⟩ := List.head?_eq_some_iff.1 hnext
    refine ⟨before ++ [u], after, by rw [List.append_assoc]; rfl, horderly, fun x hx k hk => ?_⟩
    -- no second thread is about to survey the next document
    have hrest := mem_of_ready_after hturned hx (by rw [hk]; exact nofun)
    obtain ⟨w, hw, hnext'⟩ := h.next x (hothers x hrest) k hk
    obtain rfl := Option.some.inj hnext'
    obtain rfl := (List.getElem?_inj (List.getElem?_eq_some_iff.1 hn).1 hrun.grounded.nodup).1 (hn.trans hw.symm)
    exact absurd hk (hrun.survey_once hreadable hready ht x (List.mem_append_left _ hrest))

/-- When no thread is ready, a text may arrive, so that the next document is surveyed. -/
theorem Heading.arrive (hsearched : Searched load url (before ++ after))
    (hcomplete : ∀ v, Reaches load url v → v ∈ before ++ after) (hready : q.ready = [])
    (hwaiting : q.waiting ≠ []) : ∃ q', Step load q q' ∧ Heading load url before after q' := by
  have harrive : ∀ t ∈ q.waiting,
      (∀ n, t.toSurvey = some n → ∃ u, q.memory.visited[n]? = some u ∧ after.head? = some u) →
        ∃ q', Step load q q' ∧ Heading load url before after q' := by
    intro t ht hnext
    obtain ⟨front, back, heq⟩ := List.append_of_mem ht
    have hperm : q.waiting.Perm (t :: (front ++ back)) := heq ▸ List.perm_middle
    refine ⟨_, .arrive hperm, h.orderly.arrive hperm, fun x hx => ?_⟩
    rw [hready] at hx
    rw [List.mem_singleton.1 hx]
    exact hnext
  obtain ⟨t, ht⟩ := List.exists_mem_of_ne_nil _ hwaiting
  cases hsurvey : t.toSurvey with
  | none => exact harrive t ht fun n hn => by cases hsurvey.symm.trans hn
  | some n =>
    have hthere : t ∈ q.ready ++ q.waiting := List.mem_append_right _ ht
    obtain ⟨u, hu⟩ := hrun.visited_of_survey hreadable hthere hsurvey
    have hlater : u ∉ before := fun hmem => (h.orderly.surveyed n u hu).1 hmem t hthere hsurvey
    have hreached := hrun.grounded.reaches_of_visited (List.mem_of_getElem? hu)
    have hafter : u ∈ after := (List.mem_append.1 (hcomplete u hreached)).resolve_left hlater
    -- the next document was entered, since the one that imports it is surveyed and all its references are followed
    cases after with
    | nil => cases hafter
    | cons w after =>
      have hw : w ∈ q.memory.visited := by
        rcases hsearched.next_cases rfl with ⟨-, rfl⟩ | ⟨p, hp, r, hr, henters, rfl⟩
        · obtain ⟨d, hd, hurl, -⟩ := hrun.grounded.top_node
          exact hurl ▸ hrun.grounded.mem_visited hd
        · obtain ⟨i, hi⟩ := List.mem_iff_getElem?.1 hr
          obtain ⟨done, hslots, hdone⟩ := h.orderly.line
          rw [hready, List.filterMap_nil, List.append_nil] at hslots
          have hmem := mem_slots_iff.2 ⟨hp, (List.getElem?_eq_some_iff.1 hi).1⟩
          exact hdone p i r.url (hslots ▸ hmem) ⟨r, hi, henters, rfl⟩
      obtain ⟨k, hk⟩ := List.mem_iff_getElem?.1 hw
      have hnew : w ∉ before := fun hmem =>
        (List.nodup_append.1 hsearched.nodup).2.2 w hmem w List.mem_cons_self rfl
      obtain ⟨x, hx, hxk⟩ : ∃ x ∈ q.ready ++ q.waiting, x.toSurvey = some k := by
        by_contra hnone
        exact hnew ((h.orderly.surveyed k w hk).2 fun x hx hxk => hnone ⟨x, hx, hxk⟩)
      rw [hready] at hx
      refine harrive x hx fun k' hk' => ⟨w, ?_, rfl⟩
      rwa [← Option.some.inj (hxk.symm.trans hk')]

end

/-- Each order of surveys can come about. -/
theorem exists_orderly_of_searched {order : List Text} (hreadable : Readable load url)
    (hfinite : {u | Reaches load url u}.Finite) (hsearched : Searched load url order)
    (hcomplete : ∀ v, Reaches load url v → v ∈ order) :
    ∃ q, Run load url q ∧ q.Ended ∧ Orderly load url q order := by
  have hled : ∃ q, Run load url q ∧ q.Ended ∧ ∃ before after, before ++ after = order ∧
      Heading load url before after q := by
    refine exists_ended hfinite ⟨[], order, rfl, orderly_start load url, fun t ht n hn => ?_⟩
      fun q hrun ⟨before, after, heq, hheading⟩ hmore => ?_
    · rw [List.mem_singleton.1 ht] at hn
      obtain rfl := Option.some.inj hn
      exact ⟨url, rfl, hsearched.head?⟩
    · subst heq
      cases hready : q.ready with
      | nil =>
        obtain ⟨q', hstep, hheading'⟩ := hheading.arrive hrun hreadable hsearched hcomplete hready
          fun hwaiting => hmore ⟨hready, hwaiting⟩
        exact ⟨q', hstep, before, after, rfl, hheading'⟩
      | cons t rest =>
        obtain ⟨before', after', heq, hheading'⟩ := hheading.advance hrun hreadable hready
        exact ⟨_, .turn true hready, before', after', heq, hheading'⟩
  obtain ⟨q, hrun, hended, before, after, rfl, hheading⟩ := hled
  -- all documents are surveyed, so that no other comes after them
  have hnil : after = [] := List.eq_nil_iff_forall_not_mem.2 fun v hv => by
    have hreached := hsearched.reaches v (List.mem_append_right _ hv)
    have hbefore := hheading.orderly.complete hrun hended hreached
    exact (List.nodup_append.1 hsearched.nodup).2.2 v hbefore v hv rfl
  rw [hnil, List.append_nil]
  exact ⟨q, hrun, hended, hheading.orderly⟩

/-- **What a crawl can report** is listed by the trees of the orders of surveys, each URL at its first place. -/
theorem reported_iff (hreadable : Readable load url) (hfinite : {u | Reaches load url u}.Finite)
    (rs : List Reference) :
    (∃ q ws, Run load url q ∧ q.Ended ∧ q.report = some (.ok ⟨ws, rs⟩)) ↔
      ∃ order out, Searched load url order ∧ (∀ v, Reaches load url v → v ∈ order) ∧
        Lists load (Claims load url order) url 0 (references load url) out ∧ firsts [] out = rs := by
  constructor
  · rintro ⟨q, ws, hrun, hended, hreport⟩
    obtain ⟨order, h⟩ := hrun.exists_orderly hreadable
    obtain ⟨hsearched, -, ws', out, hreport', hlists⟩ := h.report hrun hreadable hended
    cases hreport.symm.trans hreport'
    exact ⟨order, out, hsearched, fun v => h.complete hrun hended, hlists, rfl⟩
  · rintro ⟨order, out, hsearched, hcomplete, hlists, rfl⟩
    obtain ⟨q, hrun, hended, h⟩ := exists_orderly_of_searched hreadable hfinite hsearched hcomplete
    obtain ⟨-, -, ws, out', hreport, hlists'⟩ := h.report hrun hreadable hended
    exact ⟨q, ws, hrun, hended, hlists.unique hlists' ▸ hreport⟩

end Queue

end HtmlDeps.Imports
