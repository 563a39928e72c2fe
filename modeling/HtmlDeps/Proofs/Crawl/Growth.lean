import HtmlDeps.Proofs.Crawl.Handover

/-!
# Threads that open a document

A thread that follows a reference to a document opens it in its slot, and from then on works there
(`Tidy.open`).
-/

namespace HtmlDeps.Imports

open Memory

variable {asked : Text → Prop} {m : Memory} {ts : List Thread} {t : Thread} {n i : Nat}
  {d e : Node} {r : Reference}

/-- The memory with a document more. -/
def Memory.grow (m : Memory) (e : Node) : Memory :=
  { m with visited := m.visited ++ [e.url], nodes := m.nodes ++ [e] }

theorem getElem?_grow_iff {c : Nat} {d' : Node} : (m.grow e).nodes[c]? = some d' ↔
    m.nodes[c]? = some d' ∨ c = m.nodes.length ∧ d' = e := by
  rw [Memory.grow]
  rcases Nat.lt_trichotomy c m.nodes.length with hlt | rfl | hgt
  · rw [List.getElem?_append_left hlt]
    simp [Nat.ne_of_lt hlt]
  · simp [eq_comm]
  · rw [List.getElem?_append_right (Nat.le_of_lt hgt), List.getElem?_eq_none (Nat.le_of_lt hgt)]
    obtain ⟨k, hk⟩ := Nat.exists_eq_add_of_lt hgt
    have hc : c ≠ m.nodes.length := Nat.ne_of_gt hgt
    rw [show c - m.nodes.length = k + 1 by omega]
    simp [hc]

theorem slot_grow_iff (he : e.slots = []) {k j : Nat} {found : Option (List Reference)} :
    (m.grow e).Slot k j r found ↔ m.Slot k j r found := by
  constructor
  · rintro ⟨d', hd', hs⟩
    rcases getElem?_grow_iff.1 hd' with hd' | ⟨-, rfl⟩
    · exact ⟨d', hd', hs⟩
    · rw [he] at hs
      cases hs
  · rintro ⟨d', hd', hs⟩
    exact ⟨d', getElem?_grow_iff.2 (.inl hd'), hs⟩

theorem child_grow_iff {k j c : Nat} : (m.grow e).Child k j c ↔
    m.Child k j c ∨ c = m.nodes.length ∧ e.line.head? = some k ∧ e.slot = j := by
  constructor
  · rintro ⟨d', hd', hline, hslot⟩
    rcases getElem?_grow_iff.1 hd' with hd' | ⟨hc, rfl⟩
    · exact .inl ⟨d', hd', hline, hslot⟩
    · exact .inr ⟨hc, hline, hslot⟩
  · rintro (⟨d', hd', hline, hslot⟩ | ⟨hc, hline, hslot⟩)
    · exact ⟨d', getElem?_grow_iff.2 (.inl hd'), hline, hslot⟩
    · exact ⟨e, getElem?_grow_iff.2 (.inr ⟨hc, rfl⟩), hline, hslot⟩

theorem known_grow (h : m.Known asked r) : (m.grow e).Known asked r :=
  h.imp_right (Or.imp_right (List.mem_append_left _))

/-- `e` is new, in slot `i` of node `n`, which is `d`. -/
structure Fresh (n i : Nat) (d : Node) (r : Reference) (e : Node) : Prop where
  url : r.url = e.url
  line : e.line = n :: d.line
  slot : e.slot = i
  slots : e.slots = []
  failed : e.failed = false

section

variable {answer : Except Fault Text} (h : Tidy asked m (.follow n i :: ts))
  (hfresh : Fresh n i d r e)

theorem well_grow {c : Nat} (hc : m.Well asked (places (.follow n i :: ts)) c) :
    (m.grow e).Well asked (places (.scanned m.nodes.length answer :: ts)) c := by
  obtain ⟨hplace, d', hd', hrest⟩ := hc
  refine ⟨fun hmem => ?_, d', getElem?_grow_iff.2 (.inl hd'), hrest⟩
  rcases List.mem_cons.1 hmem with hmem | hmem
  · rw [Place.document.inj hmem] at hd'
    exact absurd (List.getElem?_eq_some_iff.1 hd').1 (Nat.lt_irrefl _)
  · exact hplace (List.mem_cons_of_mem _ hmem)

theorem active_grow {c : Nat} (hc : m.Active (places (.follow n i :: ts)) c) :
    (m.grow e).Active (places (.scanned m.nodes.length answer :: ts)) c := by
  rcases hc with hmem | ⟨d', hd', hopen⟩
  · exact .inl (List.mem_cons_of_mem _ (mem_places_of_ne hmem nofun))
  · exact .inr ⟨d', getElem?_grow_iff.2 (.inl hd'), hopen⟩

theorem active_of_grow {c : Nat} (hne : c ≠ m.nodes.length)
    (hc : (m.grow e).Active (places (.scanned m.nodes.length answer :: ts)) c) :
    m.Active (places (.follow n i :: ts)) c := by
  rcases hc with hmem | ⟨d', hd', hopen⟩
  · rcases List.mem_cons.1 hmem with hmem | hmem
    · exact absurd (Place.document.inj hmem) hne
    · exact .inl (List.mem_cons_of_mem _ hmem)
  · rcases getElem?_grow_iff.1 hd' with hd' | ⟨hc, -⟩
    · exact .inr ⟨d', hd', hopen⟩
    · exact absurd hc hne

include hfresh in
/-- Only the slot where the thread was has got a document. -/
theorem Fresh.child_grow_iff {k j c : Nat} : (m.grow e).Child k j c ↔
    m.Child k j c ∨ c = m.nodes.length ∧ k = n ∧ j = i := by
  rw [Imports.child_grow_iff, hfresh.line, hfresh.slot]
  simp [eq_comm]

include h hfresh in
/-- The other threads do not mind. -/
theorem Fresh.fits_rest {x : Thread} (hx : x ∈ ts) :
    Fits asked (m.grow e) (places (.scanned m.nodes.length answer :: ts)) x := by
  have hfit := h.fits x (List.mem_cons_of_mem _ hx)
  -- Only the slot that was followed gets a document, and no other thread is at it.
  have hplace : x.place ≠ .slot n i := by
    intro hplace
    refine h.not_mem ?_
    change Place.slot n i ∈ places ts
    exact hplace ▸ List.mem_map_of_mem hx
  have hchild : ∀ k j c, x.place = .slot k j → (m.grow e).Child k j c → m.Child k j c := by
    intro k j c hxp hc
    rcases hfresh.child_grow_iff.1 hc with hc | ⟨-, rfl, rfl⟩
    · exact hc
    · exact absurd hxp hplace
  have hnode : ∀ k (P : Node → Prop), (∃ d, m.nodes[k]? = some d ∧ P d) →
      ∃ d, (m.grow e).nodes[k]? = some d ∧ P d :=
    fun k P => Exists.imp fun d hd => ⟨getElem?_grow_iff.2 (.inl hd.1), hd.2⟩
  cases x with
  | scan k => exact hnode k _ hfit
  | scanned k answer => exact hnode k _ hfit
  | follow k j =>
    obtain ⟨⟨r', hs⟩, hnone⟩ := hfit
    exact ⟨⟨r', (slot_grow_iff hfresh.slots).2 hs⟩, fun c hc => hnone c (hchild k j c rfl hc)⟩
  | loaded k j answer =>
    obtain ⟨⟨r', hs, hknown⟩, hnone⟩ := hfit
    exact ⟨⟨r', (slot_grow_iff hfresh.slots).2 hs, fun hok => known_grow (hknown hok)⟩,
      fun c hc => hnone c (hchild k j c rfl hc)⟩
  | collect k j outcome =>
    obtain ⟨r', hs, hok⟩ := hfit
    refine ⟨r', (slot_grow_iff hfresh.slots).2 hs, fun rs hrs => ?_⟩
    obtain ⟨hknown, hrest, hwell⟩ := hok rs hrs
    exact ⟨known_grow hknown, fun y hy => known_grow (hrest y hy),
      fun c hc => well_grow (hwell c (hchild k j c rfl hc))⟩
  | rise k fault =>
    cases fault with
    | none => exact hnode k _ hfit
    | some f => exact hnode k _ hfit

include h in
/-- No thread works at the new document yet. -/
theorem Tidy.apart_grow : (places (.scanned m.nodes.length answer :: ts)).Nodup := by
  refine List.nodup_cons.2 ⟨fun hmem => ?_, (List.nodup_cons.1 h.apart).2⟩
  obtain ⟨x, hx, hplace⟩ := List.mem_map.1 hmem
  obtain ⟨d', hd'⟩ := h.exists_node (List.mem_cons_of_mem _ hx) hplace
  exact absurd (List.getElem?_eq_some_iff.1 hd').1 (Nat.lt_irrefl _)

variable (hd : m.nodes[n]? = some d) (hs : d.slots[i]? = some (r, none))

include hd hs in
theorem not_slot_of_empty {r' : Reference} {found : List Reference} : ¬ m.Slot n i r' (some found) := by
  rintro ⟨d', hd', hs'⟩
  obtain rfl : d = d' := Option.some.inj (hd.symm.trans hd')
  rw [hs] at hs'
  cases hs'

include h hfresh hd hs

theorem Fresh.below_all {c : Nat} {d' : Node} (hd' : (m.grow e).nodes[c]? = some d') :
    d'.line = [] ∧ c = 0 ∨ ∃ k above r found, d'.line = k :: above ∧ k < c ∧
      (m.grow e).Slot k d'.slot r found ∧ r.url = d'.url := by
  rcases getElem?_grow_iff.1 hd' with hd' | ⟨rfl, rfl⟩
  · refine (h.below c d' hd').imp_right ?_
    rintro ⟨k, above, r', found, hline, hlt, hs', hurl⟩
    exact ⟨k, above, r', found, hline, hlt, (slot_grow_iff hfresh.slots).2 hs', hurl⟩
  · refine .inr ⟨n, d.line, r, none, hfresh.line, (List.getElem?_eq_some_iff.1 hd).1, ?_, hfresh.url⟩
    rw [hfresh.slot]
    exact (slot_grow_iff hfresh.slots).2 ⟨d, hd, hs⟩

omit hd hs in
theorem Fresh.single_all {k j c c' : Nat} (hc : (m.grow e).Child k j c) (hc' : (m.grow e).Child k j c') :
    c = c' := by
  have hnone := (h.fits _ List.mem_cons_self).2
  rcases hfresh.child_grow_iff.1 hc with hc | ⟨rfl, rfl, rfl⟩ <;>
    rcases hfresh.child_grow_iff.1 hc' with hc' | ⟨hlast, hk⟩
  · exact h.single k j c c' hc hc'
  · obtain ⟨rfl, rfl⟩ := hk
    exact absurd hc (hnone c)
  · exact absurd hc' (hnone c')
  · exact hlast.symm

theorem Fresh.pending_all {k j c : Nat} (hc : (m.grow e).Child k j c)
    (hactive : (m.grow e).Active (places (.scanned m.nodes.length answer :: ts)) c) :
    (∀ r found, ¬ (m.grow e).Slot k j r (some found)) ∧
      .slot k j ∉ places (.scanned m.nodes.length answer :: ts) := by
  rcases hfresh.child_grow_iff.1 hc with hc | ⟨-, rfl, rfl⟩
  · have hlt : c ≠ m.nodes.length := by
      obtain ⟨d', hd', -⟩ := hc
      exact Nat.ne_of_lt (List.getElem?_eq_some_iff.1 hd').1
    obtain ⟨hslot, hplace⟩ := h.pending k j c hc (active_of_grow hlt hactive)
    refine ⟨fun r' found hs' => hslot r' found ((slot_grow_iff hfresh.slots).1 hs'), fun hmem => ?_⟩
    exact hplace (List.mem_cons_of_mem _ (mem_places_of_ne hmem nofun))
  · refine ⟨fun r' found hs' => not_slot_of_empty hd hs ((slot_grow_iff hfresh.slots).1 hs'), fun hmem => ?_⟩
    exact h.not_mem (mem_places_of_ne hmem nofun)

theorem Fresh.filled_all {k j : Nat} {r' : Reference} {found : List Reference}
    (hs' : (m.grow e).Slot k j r' (some found)) :
    (m.grow e).Known asked r' ∧ (∀ x ∈ found, (m.grow e).Known asked x) ∧
      ∀ c, (m.grow e).Child k j c →
        (m.grow e).Well asked (places (.scanned m.nodes.length answer :: ts)) c := by
  have hs' := (slot_grow_iff hfresh.slots).1 hs'
  obtain ⟨hknown, hrest, hwell⟩ := h.filled k j r' found hs'
  refine ⟨known_grow hknown, fun x hx => known_grow (hrest x hx), fun c hc => ?_⟩
  rcases hfresh.child_grow_iff.1 hc with hc | ⟨-, rfl, rfl⟩
  · exact well_grow (hwell c hc)
  · exact absurd hs' (not_slot_of_empty hd hs)

omit hd hs in
/-- The slot that the thread leaves is the one where the new document is worked on. -/
theorem Fresh.empty_all {k j : Nat} {d' : Node} {r' : Reference} (hd' : (m.grow e).nodes[k]? = some d')
    (hs' : d'.slots[j]? = some (r', none)) (hopen : d'.failed = false) :
    .slot k j ∈ places (.scanned m.nodes.length answer :: ts) ∨ ∃ c, (m.grow e).Child k j c ∧
      (m.grow e).Active (places (.scanned m.nodes.length answer :: ts)) c := by
  rcases getElem?_grow_iff.1 hd' with hd' | ⟨-, rfl⟩
  · rcases h.empty k j d' r' hd' hs' hopen with hmem | ⟨c, hc, hactive⟩
    · rcases List.mem_cons.1 hmem with hplace | hmem
      · obtain ⟨rfl, rfl⟩ := Place.slot.inj hplace
        exact .inr ⟨m.nodes.length, hfresh.child_grow_iff.2 (.inr ⟨rfl, rfl, rfl⟩),
          .inl List.mem_cons_self⟩
      · exact .inl (List.mem_cons_of_mem _ hmem)
    · exact .inr ⟨c, hfresh.child_grow_iff.2 (.inl hc), active_grow hactive⟩
  · rw [hfresh.slots] at hs'
    cases hs'

omit hd hs in
theorem Fresh.failed_all {c : Nat} {d' : Node} (hd' : (m.grow e).nodes[c]? = some d')
    (hfailed : d'.failed = true) : (∃ f, .rise c (some f) ∈ .scanned m.nodes.length answer :: ts) ∨
      d'.line = [] ∨ ∃ k above, d'.line = k :: above ∧
        ((∃ e', (m.grow e).nodes[k]? = some e' ∧ e'.failed = true) ∨
          ∃ f, .collect k d'.slot (.error f) ∈ .scanned m.nodes.length answer :: ts) := by
  rcases getElem?_grow_iff.1 hd' with hd' | ⟨-, rfl⟩
  · rcases h.failed c d' hd' hfailed with ⟨f, hf⟩ | htop | ⟨k, above, hline, ⟨e', he', hk⟩ | ⟨f, hf⟩⟩
    · exact .inl ⟨f, List.mem_cons_of_mem _ ((List.mem_cons.1 hf).resolve_left nofun)⟩
    · exact .inr (.inl htop)
    · exact .inr (.inr ⟨k, above, hline, .inl ⟨e', getElem?_grow_iff.2 (.inl he'), hk⟩⟩)
    · exact .inr (.inr ⟨k, above, hline, .inr
        ⟨f, List.mem_cons_of_mem _ ((List.mem_cons.1 hf).resolve_left nofun)⟩⟩)
  · rw [hfresh.failed] at hfailed
    cases hfailed

end

/-- A thread opens a document in its slot, and goes on there. -/
theorem Tidy.open (h : Tidy asked m (.follow n i :: ts)) (hd : m.nodes[n]? = some d)
    (hs : d.slots[i]? = some (r, none)) (hfresh : Fresh n i d r e) {answer : Except Fault Text}
    (hanswer : answer.isOk → asked e.url) :
    Tidy asked (m.grow e) (.scanned m.nodes.length answer :: ts) where
  visited := by simp [Memory.grow, h.visited]
  apart := h.apart_grow
  fits x hx := by
    rcases List.mem_cons.1 hx with rfl | hx
    · exact ⟨e, getElem?_grow_iff.2 (.inr ⟨rfl, rfl⟩), hfresh.slots, hfresh.failed, hanswer⟩
    · exact hfresh.fits_rest h hx
  top := h.top.imp fun d' hd' => ⟨getElem?_grow_iff.2 (.inl hd'.1), hd'.2⟩
  below c d' := hfresh.below_all h hd hs
  single k j c c' := hfresh.single_all h
  pending k j c := hfresh.pending_all h hd hs
  filled k j r' found := hfresh.filled_all h hd hs
  surveyed k d' hd' hslots := by
    rcases getElem?_grow_iff.1 hd' with hd' | ⟨-, rfl⟩
    · exact h.surveyed k d' hd' hslots
    · exact absurd hfresh.slots hslots
  empty k j d' r' := hfresh.empty_all h
  failed c d' := hfresh.failed_all h

end HtmlDeps.Imports
