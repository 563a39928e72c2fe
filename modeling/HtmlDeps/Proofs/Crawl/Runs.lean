import Mathlib.Logic.Relation
import HtmlDeps.Proofs.Crawl.Turn

/-!
# Runs of a crawl

A crawl is given the texts behind the URLs by a loader.  In a run, any thread may take the next turn
(`Crawl.Step`); a thread that has asked for a text goes on with it in a turn of its own, so that the texts
arrive in any order.

A document leads to those that it imports (`Imported`).  Every document that a crawl surveys can be reached
in this way, each is surveyed once, and the imports of a surveyed document are surveyed, too, or will be
(`Grounded`).
-/

namespace HtmlDeps.Imports

open Memory

variable {load : Text → Except Fault Text} {url : Text} {m : Memory}

/-! ### What documents refer to -/

/-- The references of a document, if it can be surveyed. -/
def references (load : Text → Except Fault Text) (u : Text) : List Reference :=
  match load u with
  | .ok contents =>
    if (Survey.of u contents).2.isNone then (Survey.of u contents).1.references else []
  | .error _ => []

/-- A reference by which a local document is imported. -/
def Enters (r : Reference) : Prop := r.kind = .document ∧ Url.isExternal r.url = .ok false

instance : DecidablePred Enters := fun _ => inferInstanceAs (Decidable (_ ∧ _))

/-- One document imports another. -/
def Imported (load : Text → Except Fault Text) (u v : Text) : Prop :=
  ∃ r ∈ references load u, Enters r ∧ r.url = v

/-- The documents that can be reached from one. -/
abbrev Reaches (load : Text → Except Fault Text) : Text → Text → Prop :=
  Relation.ReflTransGen (Imported load)

/-- The URLs that have to be asked for. -/
def Wanted (load : Text → Except Fault Text) (url u : Text) : Prop :=
  Reaches load url u ∨ ∃ v, Reaches load url v ∧ ∃ r ∈ references load v,
    Url.isExternal r.url = .ok false ∧ r.url = u

theorem references_of_error {u : Text} {f : Fault} (h : load u = .error f) :
    references load u = [] := by rw [references, h]

theorem references_of_fault {u contents : Text} {f : DocumentFault} (h : load u = .ok contents)
    (hfault : (Survey.of u contents).2 = some f) : references load u = [] := by
  rw [references, h]
  simp [hfault]

theorem references_of_survey {u contents : Text} (h : load u = .ok contents)
    (hsound : (Survey.of u contents).2 = none) :
    references load u = (Survey.of u contents).1.references := by
  rw [references, h]
  simp [hsound]

/-- If the references of some documents lead to none but these, no others are asked for. -/
theorem wanted_of_closed {urls : List Text} (hurl : url ∈ urls)
    (hclosed : ∀ u ∈ urls, ∀ r ∈ references load u, Url.isExternal r.url = .ok false → r.url ∈ urls)
    {u : Text} (h : Wanted load url u) : u ∈ urls := by
  have hreaches : ∀ {v : Text}, Reaches load url v → v ∈ urls := by
    intro v hv
    induction hv with
    | refl => exact hurl
    | tail _ himported ih =>
      obtain ⟨r, hr, henters, rfl⟩ := himported
      exact hclosed _ ih r hr henters.2
  rcases h with h | ⟨v, hv, r, hr, hlocal, rfl⟩
  · exact hreaches h
  · exact hclosed v (hreaches hv) r hr hlocal

/-! ### Steps -/

/-- How far a crawl has come: its memory, the threads under way, the URLs that were asked for, and how it
has ended, if it has. -/
structure Crawl where
  memory : Memory
  threads : List Thread
  asked : List Text
  report : Option (Except Fault Report)

namespace Crawl

/-- A crawl that is about to begin. -/
def start (url : Text) : Crawl := ⟨⟨[⟨url, [], 0, [], false⟩], [url], []⟩, [.scan 0], [], none⟩

/-- The crawl after the turn of a thread, with the other threads. -/
def after (load : Text → Except Fault Text) (c : Crawl) (turn : Turn Memory Thread)
    (rest : List Thread) : Crawl :=
  match turn.move with
  | .ask u next => ⟨turn.memory, next (load u) :: rest, c.asked ++ [u], c.report⟩
  | .leave new => ⟨turn.memory, new ++ rest, c.asked, c.report⟩
  | .finish outcome => ⟨turn.memory, rest, c.asked, some outcome⟩

/-- Some thread takes its turn. -/
inductive Step (load : Text → Except Fault Text) : Crawl → Crawl → Prop
  | turn {c : Crawl} {t : Thread} {rest : List Thread} (h : c.threads.Perm (t :: rest)) :
      Step load c (c.after load (turn (fun _ => true) c.memory t) rest)

/-- What a crawl can come to. -/
abbrev Run (load : Text → Except Fault Text) (url : Text) : Crawl → Prop :=
  Relation.ReflTransGen (Step load) (start url)

end Crawl

/-! ### Turns -/

/-- What a turn amounts to, one case for each way in which a thread may go on. -/
inductive Turned (m : Memory) : Thread → Turn Memory Thread → Prop
  -- The document of the thread is not there.
  | lost {t : Thread} (h : ∀ n, t.place = .document n → m.nodes[n]? = none)
      (hslot : ∀ n i, t.place = .slot n i → ∀ r found, ¬ m.Slot n i r found) :
      Turned m t (m.moves (.leave []))
  | scan {n : Nat} {d : Node} (hd : m.nodes[n]? = some d) : Turned m (.scan n) (m.moves (.ask d.url (.scanned n)))
  | refused {n : Nat} {d : Node} {f : Fault} (hd : m.nodes[n]? = some d) :
      Turned m (.scanned n (.error f)) (m.moves (m.deliver d (.error f)))
  | unreadable {n : Nat} {d : Node} {contents : Text} {f : DocumentFault}
      (hd : m.nodes[n]? = some d) (hfault : (Survey.of d.url contents).2 = some f) (notes : List Text) :
      Turned m (.scanned n (.ok contents)) ⟨m, notes, m.deliver d (.error (.document f))⟩
  | bare {n : Nat} {d : Node} {contents : Text} (hd : m.nodes[n]? = some d)
      (hsound : (Survey.of d.url contents).2 = none)
      (hnone : (Survey.of d.url contents).1.references = []) (ws : List Warning) (notes : List Text) :
      Turned m (.scanned n (.ok contents))
        ⟨{ m with warnings := ws }, notes, { m with warnings := ws }.deliver d (.ok [])⟩
  | spread {n : Nat} {d : Node} {contents : Text} {refs : List Reference}
      (hd : m.nodes[n]? = some d)
      (hsound : (Survey.of d.url contents).2 = none)
      (hrefs : (Survey.of d.url contents).1.references = refs) (ws : List Warning)
      (notes : List Text) :
      Turned m (.scanned n (.ok contents))
        ⟨{ m with warnings := ws }.put n { d with slots := refs.map (·, none) }, notes,
          .leave ((List.range refs.length).map (.follow n))⟩
  | misread {n i : Nat} {d : Node} {r : Reference} {found : Option (List Reference)} {f : Url.Fault}
      (hd : m.nodes[n]? = some d) (hs : d.slots[i]? = some (r, found))
      (h : Url.isExternal r.url = .error f) :
      Turned m (.follow n i) (m.moves (.leave [.collect n i (.error (.document (.url f)))]))
  | pass {n i : Nat} {d : Node} {r : Reference} {found : Option (List Reference)}
      (hd : m.nodes[n]? = some d) (hs : d.slots[i]? = some (r, found))
      (h : Url.isExternal r.url = .ok true ∨ Enters r ∧ r.url ∈ m.visited) :
      Turned m (.follow n i) (m.moves (.leave [.collect n i (.ok [])]))
  | enter {n i : Nat} {d : Node} {r : Reference} {found : Option (List Reference)}
      (hd : m.nodes[n]? = some d) (hs : d.slots[i]? = some (r, found)) (henters : Enters r)
      (hnew : r.url ∉ m.visited) : Turned m (.follow n i)
        ⟨m.grow ⟨r.url, n :: d.line, i, [], false⟩, [], .ask r.url (.scanned m.nodes.length)⟩
  | fetch {n i : Nat} {d : Node} {r : Reference} {found : Option (List Reference)}
      (hd : m.nodes[n]? = some d) (hs : d.slots[i]? = some (r, found)) (hkind : r.kind ≠ .document)
      (hlocal : Url.isExternal r.url = .ok false) :
      Turned m (.follow n i) (m.moves (.ask r.url (.loaded n i)))
  | loaded {n i : Nat} (answer : Except Fault Text) :
      Turned m (.loaded n i answer) (m.moves (.leave [.collect n i (answer.map fun _ => [])]))
  | dropped {n i : Nat} {d : Node} {outcome : Except Fault (List Reference)}
      (hd : m.nodes[n]? = some d) (hfailed : d.failed = true) : Turned m (.collect n i outcome) (m.moves (.leave []))
  | broken {n i : Nat} {d : Node} {f : Fault} (hd : m.nodes[n]? = some d) (hopen : d.failed = false) :
      Turned m (.collect n i (.error f))
        ((m.put n { d with failed := true }).moves (.leave [.rise n (some f)]))
  | filled {n i : Nat} {d e : Node} {rs : List Reference} (hd : m.nodes[n]? = some d)
      (hopen : d.failed = false) (he : e = { d with slots := d.slots.modify i fun (r, _) => (r, some rs) }) :
      Turned m (.collect n i (.ok rs))
        ((m.put n e).moves (.leave (if e.complete then [.rise n none] else [])))
  | risen {n : Nat} {d : Node} (hd : m.nodes[n]? = some d) :
      Turned m (.rise n none) (m.moves (m.deliver d (.ok d.listed)))
  | sunk {n : Nat} {d : Node} {f : Fault} (hd : m.nodes[n]? = some d) :
      Turned m (.rise n (some f)) (m.moves (m.deliver d (.error f)))

variable {t : Thread} {ts new : List Thread} {n i : Nat} {d : Node}

theorem turned_survey {contents : Text} (hd : m.nodes[n]? = some d) :
    Turned m (.scanned n (.ok contents)) (m.survey n d contents) := by
  unfold Memory.survey
  dsimp only
  split
  · exact .unreadable hd ‹_› _
  · rename_i hsound
    split
    · exact .bare hd hsound (List.isEmpty_iff.1 ‹_›) _ _
    · have hput := modify_eq_put
        (m := { m with warnings := m.warnings ++ (Survey.of d.url contents).1.warnings }) hd
        fun d' => { d' with slots := (Survey.of d.url contents).1.references.map (·, none) }
      rw [hput]
      exact .spread hd hsound rfl _ _

theorem turned_follow {r : Reference} {found : Option (List Reference)} (hd : m.nodes[n]? = some d)
    (hs : d.slots[i]? = some (r, found)) :
    Turned m (.follow n i) (m.follow (fun _ => true) n i d r) := by
  unfold Memory.follow
  dsimp only
  split
  · exact .misread hd hs ‹_›
  · exact .pass hd hs (.inl ‹_›)
  · rename_i hlocal
    simp only [Bool.not_true, Bool.false_eq_true, if_false]
    split
    · rename_i hkind
      split
      · rename_i hvisited
        exact .pass hd hs (.inr ⟨⟨hkind, hlocal⟩, List.contains_iff_mem.1 hvisited⟩)
      · rename_i hnew
        exact .enter hd hs ⟨hkind, hlocal⟩ (mt List.contains_iff_mem.2 hnew)
    · exact .fetch hd hs ‹_› hlocal

theorem turned_collect {outcome : Except Fault (List Reference)} (hd : m.nodes[n]? = some d) :
    Turned m (.collect n i outcome) (m.collect n i d outcome) := by
  unfold Memory.collect
  split
  · exact .dropped hd ‹_›
  · rename_i hopen
    rw [Bool.not_eq_true] at hopen
    split
    · rw [modify_eq_put hd]
      exact .broken hd hopen
    · dsimp only
      rw [modify_eq_put hd]
      exact .filled hd hopen rfl

theorem not_slot_of_none (hd : m.nodes[n]? = none) (r : Reference) (found : Option (List Reference)) :
    ¬ m.Slot n i r found := by
  rintro ⟨d, hd', -⟩
  cases hd.symm.trans hd'

theorem not_slot_of_slot_none (hd : m.nodes[n]? = some d) (hs : d.slots[i]? = none) (r : Reference)
    (found : Option (List Reference)) : ¬ m.Slot n i r found := by
  rintro ⟨d', hd', hs'⟩
  obtain rfl : d = d' := Option.some.inj (hd.symm.trans hd')
  cases hs.symm.trans hs'

theorem turned_document (hplace : t.place = .document n) (hn : m.nodes[n]? = none) :
    Turned m t (m.moves (.leave [])) := by
  refine .lost (fun k hk => ?_) fun k j hk => ?_
  · obtain rfl := Place.document.inj (hplace.symm.trans hk)
    exact hn
  · cases hplace.symm.trans hk

theorem turned_slot (hplace : t.place = .slot n i) (hn : ∀ r found, ¬ m.Slot n i r found) :
    Turned m t (m.moves (.leave [])) := by
  refine .lost (fun k hk => ?_) fun k j hk => ?_
  · cases hplace.symm.trans hk
  · obtain ⟨rfl, rfl⟩ := Place.slot.inj (hplace.symm.trans hk)
    exact hn

/-- Every turn is one of those in `Turned`. -/
theorem turned (m : Memory) (t : Thread) : Turned m t (turn (fun _ => true) m t) := by
  cases t with
  | scan n =>
    cases hd : m.nodes[n]? with
    | none => simpa [turn, hd] using turned_document rfl hd
    | some d => simpa [turn, hd] using Turned.scan hd
  | scanned n answer =>
    cases hd : m.nodes[n]? with
    | none => cases answer <;> simpa [turn, hd] using turned_document rfl hd
    | some d =>
      cases answer with
      | error f => simpa [turn, hd] using Turned.refused hd
      | ok contents => simpa [turn, hd] using turned_survey hd
  | follow n i =>
    cases hd : m.nodes[n]? with
    | none => simpa [turn, hd] using turned_slot rfl (not_slot_of_none hd)
    | some d =>
      cases hs : d.slots[i]? with
      | none => simpa [turn, hd, hs] using turned_slot rfl (not_slot_of_slot_none hd hs)
      | some x => simpa [turn, hd, hs] using turned_follow hd hs
  | loaded n i answer => exact .loaded answer
  | collect n i outcome =>
    cases hd : m.nodes[n]? with
    | none => simpa [turn, hd] using turned_slot rfl (not_slot_of_none hd)
    | some d => simpa [turn, hd] using turned_collect hd
  | rise n fault =>
    cases hd : m.nodes[n]? with
    | none => cases fault <;> simpa [turn, hd] using turned_document rfl hd
    | some d =>
      cases fault with
      | none => simpa [turn, hd] using Turned.risen hd
      | some f => simpa [turn, hd] using Turned.sunk hd

/-! ### What a crawl has surveyed -/

/-- What stays of a document while the work on it goes on. -/
structure Outline where
  url : Text
  line : List Nat
  slot : Nat
  refs : List Reference

def Node.outline (d : Node) : Outline := ⟨d.url, d.line, d.slot, d.slots.map (·.1)⟩

theorem Node.getElem?_refs (d : Node) (i : Nat) : d.outline.refs[i]? = d.slots[i]?.map (·.1) :=
  List.getElem?_map ..

def Memory.outlines (m : Memory) : List Outline := m.nodes.map Node.outline

theorem getElem?_outlines (hd : m.nodes[n]? = some d) : m.outlines[n]? = some d.outline := by
  rw [Memory.outlines, List.getElem?_map, hd]
  rfl

theorem exists_node_of_outline {o : Outline} (h : m.outlines[n]? = some o) :
    ∃ d, m.nodes[n]? = some d ∧ d.outline = o := by
  rw [Memory.outlines, List.getElem?_map] at h
  exact Option.map_eq_some_iff.1 h

theorem outline_unique {o : Outline} (hd : m.nodes[n]? = some d) (ho : m.outlines[n]? = some o) :
    o = d.outline := Option.some.inj (ho.symm.trans (getElem?_outlines hd))

theorem outlines_put {e : Node} : (m.put n e).outlines = m.outlines.set n e.outline := by
  rw [Memory.outlines, Memory.put, List.map_set]
  rfl

theorem set_of_getElem? {α : Type} {l : List α} {a : α} (h : l[n]? = some a) : l.set n a = l := by
  obtain ⟨hn, rfl⟩ := List.getElem?_eq_some_iff.1 h
  exact List.set_getElem_self hn

theorem outlines_put_eq {e : Node} (hd : m.nodes[n]? = some d) (he : e.outline = d.outline) :
    (m.put n e).outlines = m.outlines := by
  rw [outlines_put, he, set_of_getElem? (getElem?_outlines hd)]

theorem outline_fill (d : Node) (i : Nat) (rs : List Reference) :
    ({ d with slots := d.slots.modify i fun (r, _) => (r, some rs) } : Node).outline = d.outline := by
  have hrefs : (d.slots.modify i fun (r, _) => (r, some rs)).map (·.1) = d.slots.map (·.1) := by
    refine List.ext_getElem? fun j => ?_
    rw [List.getElem?_map, List.getElem?_map, List.getElem?_modify]
    by_cases hj : i = j
    · subst hj
      cases d.slots[i]? <;> simp
    · cases d.slots[j]? <;> simp [hj]
  rw [Node.outline, hrefs]
  rfl

/-- Every outline stays in its place, and keeps the references that it has. -/
def Grown (os os' : List Outline) : Prop :=
  ∀ (k : Nat) (o : Outline), os[k]? = some o → ∃ o', os'[k]? = some o' ∧ o'.url = o.url ∧ o'.line = o.line ∧
    ∀ (i : Nat) (r : Reference), o.refs[i]? = some r → o'.refs[i]? = some r

section

variable {os : List Outline} {o o' : Outline}

theorem getElem?_set_cases {k : Nat} (h : (os.set n o')[k]? = some o) :
    k = n ∧ o = o' ∨ k ≠ n ∧ os[k]? = some o := by
  by_cases hk : n = k
  · subst hk
    obtain ⟨hn, heq⟩ := List.getElem?_eq_some_iff.1 h
    exact .inl ⟨rfl, heq.symm.trans (List.getElem_set_self hn)⟩
  · exact .inr ⟨Ne.symm hk, (List.getElem?_set_ne hk).symm.trans h⟩

theorem getElem?_concat_cases {k : Nat} (h : (os ++ [o'])[k]? = some o) :
    os[k]? = some o ∨ k = os.length ∧ o = o' := by
  rcases Nat.lt_or_ge k os.length with hk | hk
  · exact .inl ((List.getElem?_append_left hk).symm.trans h)
  · rw [List.getElem?_append_right hk] at h
    obtain ⟨hzero, heq⟩ := List.getElem?_eq_some_iff.1 h
    rw [List.length_singleton] at hzero
    exact .inr ⟨by omega, by rw [← heq, List.getElem_singleton]⟩

theorem grown_set (ho : os[n]? = some o) (hurl : o'.url = o.url) (hline : o'.line = o.line)
    (hrefs : ∀ (i : Nat) (r : Reference), o.refs[i]? = some r → o'.refs[i]? = some r) :
    Grown os (os.set n o') := by
  intro k x hx
  by_cases hk : n = k
  · subst hk
    obtain rfl : o = x := Option.some.inj (ho.symm.trans hx)
    exact ⟨o', List.getElem?_set_self (List.getElem?_eq_some_iff.1 ho).1, hurl, hline, hrefs⟩
  · exact ⟨x, (List.getElem?_set_ne hk).trans hx, rfl, rfl, fun _ _ => id⟩

theorem grown_concat : Grown os (os ++ [o']) := fun _ x hx =>
  ⟨x, (List.getElem?_append_left (List.getElem?_eq_some_iff.1 hx).1).trans hx, rfl, rfl, fun _ _ => id⟩

theorem urls_set (ho : os[n]? = some o) (hurl : o'.url = o.url) :
    (os.set n o').map (·.url) = os.map (·.url) := by
  rw [List.map_set, hurl]
  exact set_of_getElem? (by rw [List.getElem?_map, ho]; rfl)

end

/-- What was surveyed can be reached, and what can be reached is surveyed or will be. -/
structure Crawl.Grounded (load : Text → Except Fault Text) (url : Text) (c : Crawl) : Prop where
  visited : c.memory.visited = c.memory.outlines.map (·.url)
  nodup : c.memory.visited.Nodup
  top : ∃ o, c.memory.outlines[0]? = some o ∧ o.url = url ∧ o.line = []
  reached : ∀ o ∈ c.memory.outlines, Reaches load url o.url
  refs : ∀ o ∈ c.memory.outlines, o.refs = [] ∨ o.refs = references load o.url
  below : ∀ (n k : Nat) (o : Outline) (above : List Nat), c.memory.outlines[n]? = some o →
    o.line = k :: above → k < n ∧ ∃ o' r, c.memory.outlines[k]? = some o' ∧
      o'.refs[o.slot]? = some r ∧ Enters r ∧ r.url = o.url
  answers : ∀ n answer, .scanned n answer ∈ c.threads →
    ∃ o, c.memory.outlines[n]? = some o ∧ answer = load o.url
  covered : ∀ (n : Nat) (o : Outline), c.memory.outlines[n]? = some o →
    .scan n ∈ c.threads ∨ (∃ answer, .scanned n answer ∈ c.threads) ∨
      o.refs = references load o.url ∧ ∀ (i : Nat) (r : Reference), o.refs[i]? = some r → Enters r →
        r.url ∈ c.memory.visited ∨ .follow n i ∈ c.threads
  asked : ∀ u ∈ c.asked, Wanted load url u

/-- The references of a document will be read, or were, and then those that lead to documents were entered or
will be. -/
def Covered (load : Text → Except Fault Text) (visited : List Text) (ts : List Thread) (n : Nat)
    (o : Outline) : Prop :=
  .scan n ∈ ts ∨ (∃ answer, .scanned n answer ∈ ts) ∨
    o.refs = references load o.url ∧ ∀ (i : Nat) (r : Reference), o.refs[i]? = some r → Enters r →
      r.url ∈ visited ∨ .follow n i ∈ ts

theorem Covered.mono {visited visited' : List Text} {ts' : List Thread} {o : Outline}
    (h : Covered load visited ts n o) (hvisited : ∀ u ∈ visited, u ∈ visited')
    (hscan : .scan n ∈ ts → .scan n ∈ ts') (hscanned : ∀ answer, .scanned n answer ∈ ts → .scanned n answer ∈ ts')
    (hfollow : ∀ (i : Nat) (r : Reference), o.refs[i]? = some r → Enters r → .follow n i ∈ ts →
      r.url ∈ visited' ∨ .follow n i ∈ ts') : Covered load visited' ts' n o := by
  rcases h with hmem | ⟨answer, hmem⟩ | ⟨hrefs, hcovered⟩
  · exact .inl (hscan hmem)
  · exact .inr (.inl ⟨answer, hscanned answer hmem⟩)
  · refine .inr (.inr ⟨hrefs, fun i r hr henters => ?_⟩)
    rcases hcovered i r hr henters with hmem | hmem
    · exact .inl (hvisited _ hmem)
    · exact hfollow i r hr henters hmem

/-- A thread has nothing left to survey or to enter. -/
structure Thread.Spent (load : Text → Except Fault Text) (m : Memory) (t : Thread) : Prop where
  scan : ∀ n o, m.outlines[n]? = some o → (t = .scan n ∨ ∃ answer, t = .scanned n answer) →
    references load o.url = []
  follow : ∀ (n i : Nat) (o : Outline) (r : Reference), t = .follow n i → m.outlines[n]? = some o →
    o.refs[i]? = some r → Enters r → r.url ∈ m.visited

theorem spent_scanned {answer : Except Fault Text} (hd : m.nodes[n]? = some d)
    (hnone : references load d.url = []) : Thread.Spent load m (.scanned n answer) where
  scan k o ho hk := by
    rcases hk with hk | ⟨answer', hk⟩
    · cases hk
    · obtain ⟨rfl, -⟩ := Thread.scanned.inj hk
      obtain rfl := outline_unique hd ho
      exact hnone
  follow := nofun

theorem spent_follow {r : Reference} {found : Option (List Reference)} (hd : m.nodes[n]? = some d)
    (hs : d.slots[i]? = some (r, found)) (hvisited : Enters r → r.url ∈ m.visited) :
    Thread.Spent load m (.follow n i) where
  scan := nofun
  follow k j o r' heq ho hj henters := by
    obtain ⟨rfl, rfl⟩ := Thread.follow.inj heq
    obtain rfl := outline_unique hd ho
    rw [Node.getElem?_refs, hs] at hj
    obtain rfl := Option.some.inj hj
    exact hvisited henters

/-- A thread that does not find where it works. -/
theorem spent_lost (hnode : ∀ n, t.place = .document n → m.nodes[n]? = none)
    (hslot : ∀ n i, t.place = .slot n i → ∀ r found, ¬ m.Slot n i r found) : t.Spent load m where
  scan n o ho ht := by
    obtain ⟨d, hd, -⟩ := exists_node_of_outline ho
    have hplace : t.place = .document n := by
      rcases ht with rfl | ⟨answer, rfl⟩ <;> rfl
    cases (hnode n hplace).symm.trans hd
  follow n i o r ht ho hi := by
    obtain ⟨d, hd, rfl⟩ := exists_node_of_outline ho
    rw [Node.getElem?_refs, Option.map_eq_some_iff] at hi
    obtain ⟨⟨r', found⟩, hs, -⟩ := hi
    exact absurd ⟨d, hd, hs⟩ (hslot n i (ht ▸ rfl) r' found)

namespace Crawl

variable {c c' : Crawl} {rest : List Thread} {notes : List Text} {m' : Memory}

theorem grounded_start (load : Text → Except Fault Text) (url : Text) : Grounded load url (start url) := by
  have hone : ∀ {n : Nat} {o : Outline}, (start url).memory.outlines[n]? = some o →
      n = 0 ∧ o = ⟨url, [], 0, []⟩ := by
    intro n o ho
    cases n with
    | zero => exact ⟨rfl, (Option.some.inj ho).symm⟩
    | succ n => cases ho
  have hall : ∀ o ∈ (start url).memory.outlines, o = ⟨url, [], 0, []⟩ := fun o ho =>
    List.mem_singleton.1 ho
  exact {
    visited := rfl
    nodup := List.nodup_singleton _
    top := ⟨_, rfl, rfl, rfl⟩
    reached := fun o ho => by rw [hall o ho]
    refs := fun o ho => .inl (by rw [hall o ho])
    below := fun n k o above ho hline => by
      rw [(hone ho).2] at hline
      cases hline
    answers := fun n answer hmem => by cases List.mem_singleton.1 hmem
    covered := fun n o ho => by
      obtain ⟨rfl, -⟩ := hone ho
      exact .inl List.mem_cons_self
    asked := nofun }

section

variable {os : List Outline} {r : Reference} {found : Option (List Reference)} {answer : Except Fault Text}
  (h : Grounded load url c)

include h

theorem Grounded.reaches (hd : c.memory.nodes[n]? = some d) : Reaches load url d.url :=
  h.reached _ (List.mem_of_getElem? (getElem?_outlines hd))

/-- What a slot refers to, at its place. -/
theorem Grounded.reference_of_slot (hd : c.memory.nodes[n]? = some d) (hs : d.slots[i]? = some (r, found)) :
    (references load d.url)[i]? = some r := by
  have hr : d.outline.refs[i]? = some r := by
    rw [Node.getElem?_refs, hs]
    rfl
  rcases h.refs _ (List.mem_of_getElem? (getElem?_outlines hd)) with hnone | hrefs
  · rw [hnone] at hr
    cases hr
  · exact hrefs ▸ hr

theorem Grounded.mem_references (hd : c.memory.nodes[n]? = some d) (hs : d.slots[i]? = some (r, found)) :
    r ∈ references load d.url := List.mem_of_getElem? (h.reference_of_slot hd hs)

/-- What a thread has surveyed is the document where it works. -/
theorem Grounded.answer_eq (hmem : .scanned n answer ∈ c.threads) (hd : c.memory.nodes[n]? = some d) :
    answer = load d.url := by
  obtain ⟨o, ho, hanswer⟩ := h.answers n answer hmem
  obtain rfl := outline_unique hd ho
  exact hanswer

theorem Grounded.top_grown (hgrown : Grown c.memory.outlines os) :
    ∃ o, os[0]? = some o ∧ o.url = url ∧ o.line = [] := by
  obtain ⟨o, ho, hurl, hline⟩ := h.top
  obtain ⟨o', ho', hurl', hline', -⟩ := hgrown 0 o ho
  exact ⟨o', ho', hurl'.trans hurl, hline'.trans hline⟩

theorem Grounded.below_grown (hgrown : Grown c.memory.outlines os) {k j : Nat} {o : Outline} {above : List Nat}
    (ho : c.memory.outlines[k]? = some o) (hline : o.line = j :: above) :
    j < k ∧ ∃ o' r, os[j]? = some o' ∧ o'.refs[o.slot]? = some r ∧ Enters r ∧ r.url = o.url := by
  obtain ⟨hlt, o', r, ho', hr, henters⟩ := h.below k j o above ho hline
  obtain ⟨o'', ho'', -, -, hrefs⟩ := hgrown j o' ho'
  exact ⟨hlt, o'', r, ho'', hrefs _ _ hr, henters⟩

theorem Grounded.answers_grown (hgrown : Grown c.memory.outlines os) (hmem : .scanned n answer ∈ c.threads) :
    ∃ o, os[n]? = some o ∧ answer = load o.url := by
  obtain ⟨o, ho, hanswer⟩ := h.answers n answer hmem
  obtain ⟨o', ho', hurl, -⟩ := hgrown n o ho
  exact ⟨o', ho', hurl ▸ hanswer⟩

end

theorem mem_rest {x : Thread} (hthreads : c.threads.Perm (t :: rest)) (hx : x ∈ c.threads) (hne : x ≠ t) :
    x ∈ rest := (List.mem_cons.1 (hthreads.mem_iff.1 hx)).resolve_left hne

/-- The documents stay as they are, and a thread makes way for others: what it would have surveyed is
surveyed by them, or holds no references, and what it would have entered was entered before. -/
theorem Grounded.replace (h : Grounded load url c) (new : List Thread) (hthreads : c.threads.Perm (t :: rest))
    (houtlines : c'.memory.outlines = c.memory.outlines) (hvisited : c'.memory.visited = c.memory.visited)
    (hnew : c'.threads = new ++ rest)
    (hanswers : ∀ n answer, .scanned n answer ∈ new →
      ∃ o, c.memory.outlines[n]? = some o ∧ answer = load o.url)
    (hscan : ∀ n o, c.memory.outlines[n]? = some o → (t = .scan n ∨ ∃ answer, t = .scanned n answer) →
      (∃ answer, .scanned n answer ∈ new) ∨ references load o.url = [])
    (hfollow : ∀ (n i : Nat) (o : Outline) (r : Reference), t = .follow n i →
      c.memory.outlines[n]? = some o → o.refs[i]? = some r → Enters r → r.url ∈ c.memory.visited)
    (hasked : ∀ u ∈ c'.asked, u ∈ c.asked ∨ Wanted load url u) : Grounded load url c' := by
  have hcovered : ∀ n o, c.memory.outlines[n]? = some o → Covered load c.memory.visited c'.threads n o := by
    intro n o ho
    rw [hnew]
    -- Only the thread that makes way can take the cover off a document; the rest stays in place.
    by_cases ht : t = .scan n ∨ ∃ answer, t = .scanned n answer
    · rcases hscan n o ho ht with ⟨answer, hmem⟩ | hnone
      · exact .inr (.inl ⟨answer, List.mem_append_left _ hmem⟩)
      · have hempty : o.refs = [] := (h.refs o (List.mem_of_getElem? ho)).elim id fun hrefs => hrefs.trans hnone
        refine .inr (.inr ⟨hempty.trans hnone.symm, fun i r hr => ?_⟩)
        rw [hempty] at hr
        cases hr
    · have hcover : Covered load c.memory.visited c.threads n o := h.covered n o ho
      have hrest : ∀ x ∈ c.threads, x ≠ t → x ∈ new ++ rest := fun x hx hne =>
        List.mem_append_right _ (mem_rest hthreads hx hne)
      refine hcover.mono (fun _ => id) (fun hmem => hrest _ hmem fun heq => ht (.inl heq.symm))
        (fun answer hmem => hrest _ hmem fun heq => ht (.inr ⟨answer, heq.symm⟩)) fun i r hr henters hmem => ?_
      rcases eq_or_ne t (.follow n i) with ht | ht
      · exact .inl (hfollow n i o r ht ho hr henters)
      · exact .inr (hrest _ hmem ht.symm)
  exact {
    visited := by rw [hvisited, houtlines, h.visited]
    nodup := by
      rw [hvisited]
      exact h.nodup
    top := by
      rw [houtlines]
      exact h.top
    reached := by
      rw [houtlines]
      exact h.reached
    refs := by
      rw [houtlines]
      exact h.refs
    below := by
      rw [houtlines]
      exact h.below
    answers := fun n answer hmem => by
      rw [houtlines]
      rw [hnew, List.mem_append] at hmem
      rcases hmem with hmem | hmem
      · exact hanswers n answer hmem
      · exact h.answers n answer (hthreads.mem_iff.2 (List.mem_cons_of_mem _ hmem))
    covered := by
      rw [houtlines, hvisited]
      exact hcovered
    asked := fun u hu => (hasked u hu).elim (h.asked u) id }

/-- A document is given its slots. -/
theorem Grounded.spread {contents : Text} {refs : List Reference} {ws : List Warning}
    (h : Grounded load url c) (hthreads : c.threads.Perm (.scanned n (.ok contents) :: rest))
    (hd : c.memory.nodes[n]? = some d) (hrefs : references load d.url = refs) :
    Grounded load url ⟨{ c.memory with warnings := ws }.put n { d with slots := refs.map (·, none) },
      (List.range refs.length).map (.follow n) ++ rest, c.asked, c.report⟩ := by
  have houtline := getElem?_outlines hd
  have hslots : ({ d with slots := refs.map (·, none) } : Node).outline =
      { d.outline with refs := refs } := by
    simp [Node.outline, Function.comp_def]
  have houtlines : ({ c.memory with warnings := ws }.put n
      { d with slots := refs.map (·, none) }).outlines =
        c.memory.outlines.set n { d.outline with refs := refs } := by
    rw [outlines_put, hslots]
    rfl
  have hurls : (c.memory.outlines.set n { d.outline with refs := refs }).map (·.url) =
      c.memory.outlines.map (·.url) := urls_set houtline rfl
  have hgrown : Grown c.memory.outlines ({ c.memory with warnings := ws }.put n
      { d with slots := refs.map (·, none) }).outlines := by
    rw [houtlines]
    refine grown_set houtline rfl rfl fun i r hr => ?_
    -- References that were known already are the same ones, since both are those of the document.
    rcases h.refs _ (List.mem_of_getElem? houtline) with hnone | hsame
    · rw [hnone] at hr
      cases hr
    · rwa [hsame.trans hrefs] at hr
  exact {
    visited := h.visited.trans (hurls.symm.trans (congrArg _ houtlines.symm))
    nodup := h.nodup
    top := h.top_grown hgrown
    reached := fun o ho => by
      rcases List.mem_or_eq_of_mem_set (houtlines ▸ ho) with ho | rfl
      · exact h.reached o ho
      · exact h.reaches hd
    refs := fun o ho => by
      rcases List.mem_or_eq_of_mem_set (houtlines ▸ ho) with ho | rfl
      · exact h.refs o ho
      · exact .inr hrefs.symm
    below := fun k j o above ho hline => by
      rcases getElem?_set_cases (houtlines ▸ ho) with ⟨rfl, rfl⟩ | ⟨-, ho⟩
      · have hline : d.outline.line = j :: above := hline
        have hbelow := h.below_grown hgrown houtline hline
        exact hbelow
      · exact h.below_grown hgrown ho hline
    answers := fun k answer hmem => by
      refine h.answers_grown hgrown ?_
      rcases List.mem_append.1 hmem with hmem | hmem
      · obtain ⟨i, -, hi⟩ := List.mem_map.1 hmem
        cases hi
      · exact hthreads.mem_iff.2 (List.mem_cons_of_mem _ hmem)
    covered := fun k o ho => by
      rcases getElem?_set_cases (houtlines ▸ ho) with ⟨rfl, rfl⟩ | ⟨hk, ho⟩
      -- The survey is spent, and what covers the document now is a thread for each of its slots.
      · refine .inr (.inr ⟨hrefs.symm, fun i r hr _ => .inr (List.mem_append_left _ ?_)⟩)
        exact List.mem_map_of_mem (List.mem_range.2 (List.getElem?_eq_some_iff.1 hr).1)
      · have hcover : Covered load c.memory.visited c.threads k o := h.covered k o ho
        exact hcover.mono (fun _ => id) (fun hmem => List.mem_append_right _ (mem_rest hthreads hmem nofun))
          (fun answer hmem => List.mem_append_right _
            (mem_rest hthreads hmem fun heq => hk (Thread.scanned.inj heq).1))
          fun i r _ _ hmem => .inr (List.mem_append_right _ (mem_rest hthreads hmem nofun))
    asked := h.asked }

/-- A document is entered. -/
theorem Grounded.enter {r : Reference} {found : Option (List Reference)} (h : Grounded load url c)
    (hthreads : c.threads.Perm (.follow n i :: rest)) (hd : c.memory.nodes[n]? = some d)
    (hs : d.slots[i]? = some (r, found)) (henters : Enters r) (hnew : r.url ∉ c.memory.visited) :
    Grounded load url ⟨c.memory.grow ⟨r.url, n :: d.line, i, [], false⟩,
      .scanned c.memory.nodes.length (load r.url) :: rest, c.asked ++ [r.url], c.report⟩ := by
  have houtlines : (c.memory.grow ⟨r.url, n :: d.line, i, [], false⟩).outlines =
      c.memory.outlines ++ [⟨r.url, n :: d.line, i, []⟩] := List.map_append
  have hlength : c.memory.outlines.length = c.memory.nodes.length := List.length_map _
  -- Outlines are only added to, so what was known of the old ones stays true.
  have hgrown : Grown c.memory.outlines (c.memory.grow ⟨r.url, n :: d.line, i, [], false⟩).outlines :=
    houtlines ▸ grown_concat
  have hslot : d.outline.refs[i]? = some r := by
    rw [Node.getElem?_refs, hs]
    rfl
  have hreached : Reaches load url r.url :=
    (h.reaches hd).tail ⟨r, h.mem_references hd hs, henters, rfl⟩
  exact {
    visited := by
      change c.memory.visited ++ [r.url] = (_ : Memory).outlines.map (·.url)
      rw [houtlines, List.map_append, ← h.visited]
      rfl
    nodup := by
      refine List.nodup_append.2 ⟨h.nodup, List.nodup_singleton _, fun x hx y hy heq => hnew ?_⟩
      have hy : y = r.url := List.mem_singleton.1 hy
      rwa [← hy, ← heq]
    top := h.top_grown hgrown
    reached := fun o ho => by
      rcases List.mem_append.1 (houtlines ▸ ho) with ho | ho
      · exact h.reached o ho
      · rw [List.mem_singleton.1 ho]
        exact hreached
    refs := fun o ho => by
      rcases List.mem_append.1 (houtlines ▸ ho) with ho | ho
      · exact h.refs o ho
      · rw [List.mem_singleton.1 ho]
        exact .inl rfl
    below := fun k j o above ho hline => by
      rcases getElem?_concat_cases (houtlines ▸ ho) with ho | ⟨rfl, rfl⟩
      · exact h.below_grown hgrown ho hline
      · obtain ⟨rfl, -⟩ := List.cons.inj hline
        obtain ⟨o', ho', -, -, hrefs⟩ := hgrown n _ (getElem?_outlines hd)
        exact ⟨(List.getElem?_eq_some_iff.1 (getElem?_outlines hd)).1, o', r, ho', hrefs i r hslot, henters, rfl⟩
    answers := fun k answer hmem => by
      rcases List.mem_cons.1 hmem with heq | hmem
      · obtain ⟨rfl, rfl⟩ := Thread.scanned.inj heq
        refine ⟨⟨r.url, n :: d.line, i, []⟩, ?_, rfl⟩
        rw [← hlength]
        exact (congrArg (·[_]?) houtlines).trans List.getElem?_concat_length
      · exact h.answers_grown hgrown (hthreads.mem_iff.2 (List.mem_cons_of_mem _ hmem))
    covered := fun k o ho => by
      rcases getElem?_concat_cases (houtlines ▸ ho) with hprior | ⟨rfl, rfl⟩
      · have hcover : Covered load c.memory.visited c.threads k o := h.covered k o hprior
        refine hcover.mono (fun _ => List.mem_append_left _)
          (fun hmem => List.mem_cons_of_mem _ (mem_rest hthreads hmem nofun))
          (fun answer hmem => List.mem_cons_of_mem _ (mem_rest hthreads hmem nofun)) fun j r' hr' _ hmem => ?_
        -- The slot that is followed here is covered by the visit; the thread of any other is still there.
        by_cases heq : Thread.follow k j = .follow n i
        · obtain ⟨rfl, rfl⟩ := Thread.follow.inj heq
          obtain rfl := outline_unique hd hprior
          obtain rfl := Option.some.inj (hslot.symm.trans hr')
          exact .inl (List.mem_append_right _ List.mem_cons_self)
        · exact .inr (List.mem_cons_of_mem _ (mem_rest hthreads hmem heq))
      · exact .inr (.inl ⟨load r.url, hlength ▸ List.mem_cons_self⟩)
    asked := fun u hu => by
      rcases List.mem_append.1 hu with hu | hu
      · exact h.asked u hu
      · rw [List.mem_singleton.1 hu]
        exact .inl hreached }

/-- Delivering a document leaves at most a thread that collects it. -/
theorem exists_after_deliver (load : Text → Except Fault Text) (c : Crawl) (m' m'' : Memory) (d : Node)
    (notes : List Text) (outcome : Except Fault (List Reference)) (rest : List Thread) :
    ∃ new report, c.after load ⟨m', notes, m''.deliver d outcome⟩ rest = ⟨m', new ++ rest, c.asked, report⟩ ∧
      (new = [] ∨ ∃ k above, d.line = k :: above ∧ new = [.collect k d.slot outcome]) := by
  unfold Memory.deliver
  cases hline : d.line with
  | nil => exact ⟨[], _, rfl, .inl rfl⟩
  | cons k above => exact ⟨_, _, rfl, .inr ⟨k, above, rfl, rfl⟩⟩

/-- A spent thread makes way for threads that do not survey anything. -/
theorem Grounded.pass (h : Grounded load url c) (new : List Thread) (hthreads : c.threads.Perm (t :: rest))
    {report : Option (Except Fault Report)} (houtlines : m'.outlines = c.memory.outlines)
    (hvisited : m'.visited = c.memory.visited) (hspent : t.Spent load c.memory)
    (hnew : ∀ n answer, .scanned n answer ∉ new) : Grounded load url ⟨m', new ++ rest, c.asked, report⟩ :=
  h.replace _ hthreads houtlines hvisited rfl (fun n answer hmem => absurd hmem (hnew n answer))
    (fun n o ho ht => .inr (hspent.scan n o ho ht)) hspent.follow fun _ => .inl

/-- A spent thread delivers a document. -/
theorem Grounded.deliver {outcome : Except Fault (List Reference)} (h : Grounded load url c)
    (hthreads : c.threads.Perm (t :: rest)) (houtlines : m'.outlines = c.memory.outlines)
    (hvisited : m'.visited = c.memory.visited) {m'' : Memory} (hspent : t.Spent load c.memory) :
    Grounded load url (c.after load ⟨m', notes, m''.deliver d outcome⟩ rest) := by
  obtain ⟨new, report, heq, hnew⟩ := exists_after_deliver load c m' m'' d notes outcome rest
  rw [heq]
  refine h.pass _ hthreads houtlines hvisited hspent fun n answer hmem => ?_
  rcases hnew with rfl | ⟨k, above, -, rfl⟩
  · cases hmem
  · cases List.mem_singleton.1 hmem

/-- A document is asked for. -/
theorem Grounded.ask (h : Grounded load url c) (hthreads : c.threads.Perm (.scan n :: rest))
    (hd : c.memory.nodes[n]? = some d) : Grounded load url
      ⟨c.memory, .scanned n (load d.url) :: rest, c.asked ++ [d.url], c.report⟩ := by
  refine h.replace [.scanned n (load d.url)] hthreads rfl rfl rfl (fun k answer hmem => ?_)
    (fun k o ho ht => ?_) nofun fun u hu => ?_
  · obtain ⟨rfl, rfl⟩ := Thread.scanned.inj (List.mem_singleton.1 hmem)
    exact ⟨_, getElem?_outlines hd, rfl⟩
  · rcases ht with ht | ⟨answer, ht⟩
    · obtain rfl := Thread.scan.inj ht
      exact .inl ⟨_, List.mem_cons_self⟩
    · cases ht
  · rcases List.mem_append.1 hu with hu | hu
    · exact .inl hu
    · rw [List.mem_singleton.1 hu]
      exact .inr (.inl (h.reaches hd))

/-- What is no document is asked for. -/
theorem Grounded.fetch {r : Reference} {found : Option (List Reference)} (h : Grounded load url c)
    (hthreads : c.threads.Perm (.follow n i :: rest)) (hd : c.memory.nodes[n]? = some d)
    (hs : d.slots[i]? = some (r, found)) (hkind : r.kind ≠ .document)
    (hlocal : Url.isExternal r.url = .ok false) : Grounded load url
      ⟨c.memory, .loaded n i (load r.url) :: rest, c.asked ++ [r.url], c.report⟩ := by
  have hspent : Thread.Spent load c.memory (.follow n i) :=
    spent_follow hd hs fun henters => absurd henters.1 hkind
  refine h.replace [.loaded n i (load r.url)] hthreads rfl rfl rfl (by simp) nofun hspent.follow fun u hu => ?_
  rcases List.mem_append.1 hu with hu | hu
  · exact .inl hu
  · rw [List.mem_singleton.1 hu]
    exact .inr (.inr ⟨d.url, h.reaches hd, r, h.mem_references hd hs, hlocal, rfl⟩)

/-- A turn keeps a crawl grounded. -/
theorem Grounded.turn {turn : Turn Memory Thread} (h : Grounded load url c)
    (hthreads : c.threads.Perm (t :: rest)) (hturned : Turned c.memory t turn) :
    Grounded load url (c.after load turn rest) := by
  have hthere : t ∈ c.threads := hthreads.mem_iff.2 List.mem_cons_self
  -- All turns but those that spread or enter leave the outlines alone; there, the thread was spent.
  cases hturned with
  | lost hnode hslot => exact h.pass [] hthreads rfl rfl (spent_lost hnode hslot) nofun
  | scan hd => exact h.ask hthreads hd
  | refused hd =>
    have hnone := references_of_error (h.answer_eq hthere hd).symm
    exact h.deliver hthreads rfl rfl (spent_scanned hd hnone)
  | unreadable hd hfault =>
    have hnone := references_of_fault (h.answer_eq hthere hd).symm hfault
    exact h.deliver hthreads rfl rfl (spent_scanned hd hnone)
  | bare hd hsound hempty ws =>
    have hnone := (references_of_survey (h.answer_eq hthere hd).symm hsound).trans hempty
    refine h.deliver hthreads ?_ ?_ (spent_scanned hd hnone) <;> rfl
  | spread hd hsound hrefs =>
    exact h.spread hthreads hd ((references_of_survey (h.answer_eq hthere hd).symm hsound).trans hrefs)
  | misread hd hs hfault =>
    refine h.pass _ hthreads rfl rfl (spent_follow hd hs fun henters => ?_) (by simp)
    cases henters.2.symm.trans hfault
  | pass hd hs hpass =>
    refine h.pass _ hthreads rfl rfl (spent_follow hd hs fun henters => ?_) (by simp)
    rcases hpass with hexternal | ⟨-, hvisited⟩
    · cases henters.2.symm.trans hexternal
    · exact hvisited
  | enter hd hs henters hnew => exact h.enter hthreads hd hs henters hnew
  | fetch hd hs hkind hlocal => exact h.fetch hthreads hd hs hkind hlocal
  | loaded => exact h.pass _ hthreads rfl rfl ⟨nofun, nofun⟩ (by simp)
  | dropped => exact h.pass [] hthreads rfl rfl ⟨nofun, nofun⟩ nofun
  | broken hd => exact h.pass _ hthreads (outlines_put_eq hd rfl) rfl ⟨nofun, nofun⟩ (by simp)
  | filled hd hopen he =>
    subst he
    refine h.pass _ hthreads (outlines_put_eq hd (outline_fill _ _ _)) rfl ⟨nofun, nofun⟩ fun n answer hmem => ?_
    split at hmem
    · cases List.mem_singleton.1 hmem
    · cases hmem
  | risen => exact h.deliver hthreads rfl rfl ⟨nofun, nofun⟩
  | sunk => exact h.deliver hthreads rfl rfl ⟨nofun, nofun⟩

theorem Run.grounded (h : Run load url c) : Grounded load url c := by
  induction h with
  | refl => exact grounded_start load url
  | tail _ hstep ih =>
    cases hstep with
    | turn hthreads => exact ih.turn hthreads (turned _ _)

end Crawl

end HtmlDeps.Imports
