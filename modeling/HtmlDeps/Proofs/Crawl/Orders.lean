import HtmlDeps.Proofs.Crawl.Trees

/-!
# Orders of surveys

Documents are surveyed in an order in which each but the first is imported by one before it (`Searched`).  The
order decides behind which of its imports a document is expanded: behind the first that leads to it (`Claims`).

A turn surveys a document, or enters one, or does neither (`Effect`).
-/

namespace HtmlDeps.Imports

open Memory

variable {load : Text → Except Fault Text} {url p q v w : Text} {i j : Nat} {order more : List Text}

/-! ### Orders of surveys -/

/-- Documents in an order in which they can be surveyed. -/
inductive Searched (load : Text → Except Fault Text) (url : Text) : List Text → Prop
  | first : Searched load url [url]
  | next {order : List Text} {p v : Text} (h : Searched load url order) (hp : p ∈ order)
      (himport : Imported load p v) (hnew : v ∉ order) : Searched load url (order ++ [v])

/-- The places of the references of some documents. -/
def slots (load : Text → Except Fault Text) (order : List Text) : List (Text × Nat) :=
  order.flatMap fun p => (List.range (references load p).length).map (p, ·)

/-- An import at this place leads to `v`. -/
def leads (load : Text → Except Fault Text) (v : Text) (x : Text × Nat) : Bool :=
  ((references load x.1)[x.2]?).any fun r => Enters r ∧ r.url = v

/-- The first import of some documents that leads to `v`. -/
def claim? (load : Text → Except Fault Text) (order : List Text) (v : Text) : Option (Text × Nat) :=
  (slots load order).find? (leads load v)

/-- The imports behind which documents are expanded that are surveyed in this order. -/
def Claims (load : Text → Except Fault Text) (url : Text) (order : List Text) (p : Text) (i : Nat) : Prop :=
  ∃ v, v ≠ url ∧ claim? load order v = some (p, i)

theorem leads_iff : leads load v (p, i) = true ↔ ImportAt load p i v := by
  simp [leads, ImportAt, Option.any_eq_true]

theorem slots_append : slots load (order ++ more) = slots load order ++ slots load more := List.flatMap_append

theorem mem_slots_iff : (p, i) ∈ slots load order ↔ p ∈ order ∧ i < (references load p).length := by
  simp [slots]

theorem Claims.mono (h : Claims load url order p i) (more : List Text) : Claims load url (order ++ more) p i := by
  obtain ⟨v, hne, hv⟩ := h
  refine ⟨v, hne, ?_⟩
  rw [claim?, slots_append, List.find?_append]
  rw [claim?] at hv
  rw [hv]
  rfl

theorem Claims.mem (h : Claims load url order p i) : p ∈ order := by
  obtain ⟨v, -, hv⟩ := h
  exact (mem_slots_iff.1 (List.mem_of_find?_eq_some hv)).1

/-- The first place from which a document is led to. -/
theorem claims_of_slots {done rest : List (Text × Nat)} (hslots : slots load order = done ++ (p, i) :: rest)
    (himport : ImportAt load p i v) (hne : v ≠ url) (hnew : ∀ x ∈ done, ¬ ImportAt load x.1 x.2 v) :
    Claims load url order p i := by
  have hnone : done.find? (leads load v) = none :=
    List.find?_eq_none.2 fun x hx hleads => hnew x hx (leads_iff.1 hleads)
  refine ⟨v, hne, ?_⟩
  rw [claim?, hslots, List.find?_append, hnone, List.find?_cons_of_pos (leads_iff.2 himport)]
  rfl

theorem Searched.nodup (h : Searched load url order) : order.Nodup := by
  induction h with
  | first => exact List.nodup_singleton url
  | next _ _ _ hnew ih => exact List.concat_eq_append ▸ ih.concat hnew

theorem Searched.reaches (h : Searched load url order) : ∀ v ∈ order, Reaches load url v := by
  induction h with
  | first => exact fun v hv => List.mem_singleton.1 hv ▸ .refl
  | next _ hp himport _ ih =>
    intro v hv
    rcases List.mem_append.1 hv with hv | hv
    · exact ih v hv
    · exact List.mem_singleton.1 hv ▸ (ih _ hp).tail himport

theorem Searched.mem_url (h : Searched load url order) : url ∈ order := by
  induction h with
  | first => exact List.mem_singleton_self url
  | next _ _ _ _ ih => exact List.mem_append_left _ ih

/-- What comes next is the first document, or is imported by one before. -/
theorem Searched.next_cases {all : List Text} (h : Searched load url all) (hall : all = order ++ v :: more) :
    (order = [] ∧ v = url) ∨ ∃ p ∈ order, Imported load p v := by
  induction h generalizing more with
  | first =>
    cases order with
    | nil => exact .inl ⟨rfl, (List.cons.inj hall).1.symm⟩
    | cons x order => exact absurd (List.cons.inj hall).2.symm (by simp)
  | @next before p w _ hp himport _ ih =>
    rcases List.eq_nil_or_concat more with rfl | ⟨more, x, rfl⟩
    · obtain ⟨rfl, hw⟩ := List.append_inj' hall rfl
      exact .inr ⟨p, hp, (List.cons.inj hw).1 ▸ himport⟩
    · rw [List.concat_eq_append, ← List.cons_append, ← List.append_assoc] at hall
      exact ih (List.append_inj' hall rfl).1

theorem Searched.head? (h : Searched load url order) : order.head? = some url := by
  cases hhead : order with
  | nil => exact absurd (hhead ▸ h.mem_url) List.not_mem_nil
  | cons u more =>
    rcases h.next_cases (show order = [] ++ u :: more from hhead) with ⟨-, rfl⟩ | ⟨p, hp, -⟩
    · rfl
    · cases hp

/-! ### What a turn does for the order -/

/-- The document that a thread is about to survey. -/
def Thread.toSurvey : Thread → Option Nat
  | .scan n | .scanned n _ => some n
  | .follow _ _ | .loaded _ _ _ | .collect _ _ _ | .rise _ _ => none

/-- The place of the reference that a thread is about to follow. -/
def Thread.due (visited : List Text) : Thread → Option (Text × Nat)
  | .follow n i => visited[n]?.map (·, i)
  | .scan _ | .scanned _ _ | .loaded _ _ _ | .collect _ _ _ | .rise _ _ => none

/-- The threads that a turn leaves behind. -/
def leftBehind (load : Text → Except Fault Text) (turn : Turn Memory Thread) : List Thread :=
  match turn.move with
  | .ask u next => [next (load u)]
  | .leave new => new
  | .finish _ => []

/-- What a turn does for the order: a document is surveyed, or a document is entered, or neither. -/
inductive Effect (load : Text → Except Fault Text) (m : Memory) (t : Thread) (turn : Turn Memory Thread) : Prop
  | surveys {n : Nat} {d : Node} {answer : Except Fault Text} (ht : t = .scanned n answer)
      (hd : m.nodes[n]? = some d) (hvisited : turn.memory.visited = m.visited)
      (hdue : (leftBehind load turn).filterMap (Thread.due m.visited) = slots load [d.url])
      (hnone : ∀ x ∈ leftBehind load turn, x.toSurvey = none)
  | enters {n i : Nat} {d : Node} {r : Reference} {found : Option (List Reference)} (ht : t = .follow n i)
      (hd : m.nodes[n]? = some d) (hs : d.slots[i]? = some (r, found)) (henters : Enters r)
      (hnew : r.url ∉ m.visited) (hvisited : turn.memory.visited = m.visited ++ [r.url])
      (hthreads : leftBehind load turn = [.scanned m.nodes.length (load r.url)])
  | passes (hvisited : turn.memory.visited = m.visited) (hdue : ∀ n i, .follow n i ∉ leftBehind load turn)
      (hsurveys : ∀ n, (∃ x ∈ leftBehind load turn, x.toSurvey = some n) ↔ t.toSurvey = some n)
      (hfollow : ∀ (n i : Nat) (d : Node) (r : Reference) (found : Option (List Reference)), t = .follow n i →
        m.nodes[n]? = some d → d.slots[i]? = some (r, found) → Enters r → r.url ∈ m.visited)

@[simp] theorem leftBehind_leave (m : Memory) (new : List Thread) : leftBehind load (m.moves (.leave new)) = new := rfl

@[simp] theorem leftBehind_ask (m : Memory) (u : Text) (next : Except Fault Text → Thread) :
    leftBehind load (m.moves (.ask u next)) = [next (load u)] := rfl

theorem leftBehind_deliver {m' m'' : Memory} {notes : List Text} {d : Node}
    {outcome : Except Fault (List Reference)} :
    ∀ x ∈ leftBehind load ⟨m', notes, m''.deliver d outcome⟩, x.toSurvey = none ∧ ∀ n i, x ≠ .follow n i := by
  intro x hx
  unfold leftBehind Memory.deliver at hx
  cases hline : d.line with
  | nil =>
    rw [hline] at hx
    cases hx
  | cons k above =>
    rw [hline] at hx
    rw [List.mem_singleton.1 hx]
    exact ⟨rfl, nofun⟩

namespace Crawl

variable {c : Crawl} {t : Thread} {rest : List Thread}

theorem Grounded.getElem?_visited (h : Grounded load url c) {n : Nat} {d : Node}
    (hd : c.memory.nodes[n]? = some d) : c.memory.visited[n]? = some d.url := by
  rw [h.visited, List.getElem?_map, getElem?_outlines hd]
  rfl

/-- A turn that neither surveys nor enters a document, and leaves no such thread behind. -/
theorem effect_of_bare {m : Memory} {turn : Turn Memory Thread} (hvisited : turn.memory.visited = m.visited)
    (hnew : ∀ x ∈ leftBehind load turn, x.toSurvey = none ∧ ∀ n i, x ≠ .follow n i) (ht : t.toSurvey = none)
    (hfollow : ∀ (n i : Nat) (d : Node) (r : Reference) (found : Option (List Reference)), t = .follow n i →
      m.nodes[n]? = some d → d.slots[i]? = some (r, found) → Enters r → r.url ∈ m.visited) :
    Effect load m t turn := by
  refine .passes hvisited (fun n i hmem => (hnew _ hmem).2 n i rfl) (fun n => ⟨?_, fun hn => ?_⟩) hfollow
  · rintro ⟨x, hx, hn⟩
    cases (hnew x hx).1.symm.trans hn
  · cases ht.symm.trans hn

/-- What was surveyed of a document are its references. -/
theorem Grounded.references_eq (h : Grounded load url c) {n : Nat} {d : Node} {contents : Text}
    (hd : c.memory.nodes[n]? = some d) (hmem : .scanned n (.ok contents) ∈ c.threads)
    (hsound : (Survey.of d.url contents).2 = none) :
    references load d.url = (Survey.of d.url contents).1.references :=
  references_of_survey (h.answer_eq hmem hd).symm hsound

theorem visited_of_slot {m : Memory} {n i : Nat} {d : Node} {r : Reference} {found : Option (List Reference)}
    (hd : m.nodes[n]? = some d) (hs : d.slots[i]? = some (r, found)) (hvisited : Enters r → r.url ∈ m.visited)
    (k j : Nat) (d' : Node) (r' : Reference) (found' : Option (List Reference))
    (heq : Thread.follow n i = .follow k j) (hd' : m.nodes[k]? = some d') (hs' : d'.slots[j]? = some (r', found')) :
    Enters r' → r'.url ∈ m.visited := by
  obtain ⟨rfl, rfl⟩ := Thread.follow.inj heq
  obtain rfl := Option.some.inj (hd.symm.trans hd')
  obtain ⟨rfl, -⟩ := Prod.mk.inj (Option.some.inj (hs.symm.trans hs'))
  exact hvisited

/-- What the turns of a crawl of readable documents do for the order. -/
theorem Grounded.effect {turn : Turn Memory Thread} (h : Grounded load url c) (hsmooth : Smooth c)
    (hreadable : Readable load url) (hthreads : c.threads.Perm (t :: rest)) (hturned : Turned c.memory t turn) :
    Effect load c.memory t turn := by
  have hthere : t ∈ c.threads := hthreads.mem_iff.2 List.mem_cons_self
  have hfine : ¬ t.Faulty := hsmooth.sound.threads t hthere
  have htidy := hsmooth.tidy.perm hthreads
  cases hturned with  -- A lost thread is at a place that is not there, which a tidy crawl does not have.
  | lost hnode hslot =>
    cases hplace : t.place with
    | document n =>
      obtain ⟨d, hd⟩ := htidy.exists_node List.mem_cons_self hplace
      cases (hnode n hplace).symm.trans hd
    | slot n i =>
      obtain ⟨r, hs⟩ := htidy.exists_slot List.mem_cons_self hplace
      exact absurd hs (hslot n i hplace r none)
  | @scan n d hd =>
    refine .passes rfl (fun k i hmem => ?_) (fun k => ?_) nofun
    · cases List.mem_singleton.1 hmem
    · simp [Thread.toSurvey]
  | refused => exact absurd trivial hfine
  | unreadable hd hfault => cases hfault.symm.trans (h.survey_sound hreadable hthere hd)
  | @bare n d contents hd hsound hnone ws notes =>
    have hempty := (h.references_eq hd hthere hsound).trans hnone
    refine .surveys rfl hd rfl ?_ fun x hx => (leftBehind_deliver x hx).1
    rw [show slots load [d.url] = [] by simp [slots, hempty]]
    refine List.filterMap_eq_nil_iff.2 fun x hx => ?_
    cases x with
    | follow k i => exact absurd rfl ((leftBehind_deliver _ hx).2 k i)
    | _ => rfl
  | @spread n d contents refs hd hsound hrefs ws notes =>
    have hlisted := (h.references_eq hd hthere hsound).trans hrefs
    refine .surveys rfl hd rfl ?_ fun x hx => ?_
    · simp [leftBehind, slots, hlisted, Thread.due, h.getElem?_visited hd, List.filterMap_map, Function.comp_def]
    · obtain ⟨i, -, rfl⟩ := List.mem_map.1 hx
      rfl
  | misread hd hs hfault =>
    refine effect_of_bare rfl (by simp [Thread.toSurvey]) rfl
      (visited_of_slot hd hs fun henters => ?_)
    cases henters.2.symm.trans hfault
  | pass hd hs hpass =>
    refine effect_of_bare rfl (by simp [Thread.toSurvey]) rfl
      (visited_of_slot hd hs fun henters => ?_)
    -- What is passed over is outside, or was entered before: then it is among the visited.
    rcases hpass with hexternal | ⟨-, hvisited⟩
    · cases henters.2.symm.trans hexternal
    · exact hvisited
  | enter hd hs henters hnew => exact .enters rfl hd hs henters hnew rfl rfl
  | fetch hd hs hkind =>
    refine effect_of_bare rfl (by simp [Thread.toSurvey]) rfl
      (visited_of_slot hd hs fun henters => ?_)
    exact absurd henters.1 hkind
  | loaded answer => exact effect_of_bare rfl (by simp [Thread.toSurvey]) rfl nofun
  | dropped => exact effect_of_bare rfl (by simp) rfl nofun
  | broken => exact absurd trivial hfine
  | filled hd hopen he =>
    refine effect_of_bare rfl (fun x hx => ?_) rfl nofun
    rw [leftBehind_leave] at hx
    split at hx
    · rw [List.mem_singleton.1 hx]
      exact ⟨rfl, nofun⟩
    · cases hx
  | risen => exact effect_of_bare rfl leftBehind_deliver rfl nofun
  | sunk => exact absurd trivial hfine

end Crawl

/-- A thread that asks for a text does not go on to follow a reference. -/
theorem Turned.due_of_ask {m : Memory} {t : Thread} {turn : Turn Memory Thread} (h : Turned m t turn) {u : Text}
    {next : Except Fault Text → Thread} (hmove : turn.move = .ask u next) (answer : Except Fault Text)
    (visited : List Text) : (next answer).due visited = none := by
  have hdeliver : ∀ {m' : Memory} {d : Node} {outcome : Except Fault (List Reference)},
      m'.deliver d outcome ≠ .ask u next := by
    intro m' d outcome
    unfold Memory.deliver
    split <;> exact nofun
  cases h with
  | scan | enter | fetch =>
    obtain ⟨-, rfl⟩ := Move.ask.inj hmove
    rfl
  | refused | unreadable | bare | risen | sunk => exact absurd hmove hdeliver
  | _ => cases hmove

/-- Documents that were entered stay where they are. -/
theorem Effect.getElem?_visited {m : Memory} {t : Thread} {turn : Turn Memory Thread}
    (h : Effect load m t turn) {n : Nat} {u : Text} (hn : m.visited[n]? = some u) : turn.memory.visited[n]? = some u := by
  cases h with
  | surveys _ _ hvisited | passes hvisited => rwa [hvisited]
  | enters _ _ _ _ _ hvisited =>
    rwa [hvisited, List.getElem?_append_left (List.getElem?_eq_some_iff.1 hn).1]

/-- A turn leaves no thread behind that is about to survey a document. -/
theorem Turned.toSurvey_of_leave {m : Memory} {t : Thread} {turn : Turn Memory Thread} (h : Turned m t turn)
    {new : List Thread} (hmove : turn.move = .leave new) : ∀ x ∈ new, x.toSurvey = none := by
  have hbehind : leftBehind (fun _ => .ok []) turn = new := by rw [leftBehind, hmove]
  have hdeliver : ∀ {m' m'' : Memory} {notes : List Text} {d : Node} {outcome : Except Fault (List Reference)},
      turn = ⟨m', notes, m''.deliver d outcome⟩ → ∀ x ∈ new, x.toSurvey = none := by
    rintro m' m'' notes d outcome rfl x hx
    exact (leftBehind_deliver x (hbehind ▸ hx)).1
  intro x hx
  cases h with
  | refused | unreadable | bare | risen | sunk => exact hdeliver rfl x hx
  | scan | enter | fetch => cases hmove
  | spread =>
    obtain rfl := Move.leave.inj hmove
    obtain ⟨i, -, rfl⟩ := List.mem_map.1 hx
    rfl
  | filled =>
    obtain rfl := Move.leave.inj hmove
    split at hx
    · rw [List.mem_singleton.1 hx]
      rfl
    · cases hx
  | lost | dropped =>
    obtain rfl := Move.leave.inj hmove
    cases hx
  | misread | pass | loaded | broken =>
    obtain rfl := Move.leave.inj hmove
    rw [List.mem_singleton.1 hx]
    rfl

end HtmlDeps.Imports
