import HtmlDeps.Proofs.Crawl.Handover

/-!
# Threads that change the document where they work

A turn may change one document, on which the work is not over, and leave other threads there
(`Rework`).  The rest of the crawl does not mind (`Tidy.rework`).
-/

namespace HtmlDeps.Imports

open Memory

variable {asked : Text → Prop} {m : Memory} {ts new : List Thread} {t : Thread} {n i : Nat}
  {d e : Node}

theorem Tidy.slot_of_child (h : Tidy asked m ts) {c : Nat} (hc : m.Child n i c) :
    ∃ r found, m.Slot n i r found := by
  obtain ⟨d, hd, hline, rfl⟩ := hc
  rcases h.below c d hd with ⟨htop, -⟩ | ⟨k, above, r, found, hline', -, hs, -⟩
  · rw [htop] at hline
    cases hline
  · rw [hline'] at hline
    obtain rfl := Option.some.inj hline
    exact ⟨r, found, hs⟩

/-- The memory with another node in the place of one. -/
def Memory.put (m : Memory) (n : Nat) (e : Node) : Memory := { m with nodes := m.nodes.set n e }

theorem modify_eq_put (hd : m.nodes[n]? = some d) (f : Node → Node) :
    m.modify n f = m.put n (f d) := by
  rw [Memory.modify, Memory.put, List.modify_eq_set_getElem?, hd]
  rfl

theorem getElem?_put_self (hd : m.nodes[n]? = some d) : (m.put n e).nodes[n]? = some e := by
  rw [Memory.put, List.getElem?_set_self (List.getElem?_eq_some_iff.1 hd).1]

theorem getElem?_put_ne {c : Nat} (hc : n ≠ c) : (m.put n e).nodes[c]? = m.nodes[c]? := by
  rw [Memory.put, List.getElem?_set_ne hc]

theorem child_put_iff (hd : m.nodes[n]? = some d) (hline : e.line = d.line) (hslot : e.slot = d.slot)
    {k i c : Nat} : (m.put n e).Child k i c ↔ m.Child k i c := by
  by_cases hc : n = c
  · subst hc
    constructor
    · rintro ⟨d', hd', hhead, hs⟩
      obtain rfl : e = d' := Option.some.inj ((getElem?_put_self hd).symm.trans hd')
      exact ⟨d, hd, hline ▸ hhead, hslot ▸ hs⟩
    · rintro ⟨d', hd', hhead, hs⟩
      obtain rfl : d = d' := Option.some.inj (hd.symm.trans hd')
      exact ⟨e, getElem?_put_self hd, hline ▸ hhead, hslot ▸ hs⟩
  · rw [Memory.Child, Memory.Child, getElem?_put_ne hc]

theorem slot_put_self_iff (hd : m.nodes[n]? = some d) {i : Nat} {r : Reference}
    {found : Option (List Reference)} :
    (m.put n e).Slot n i r found ↔ e.slots[i]? = some (r, found) := by
  rw [Memory.Slot, getElem?_put_self hd]
  simp

theorem slot_put_ne_iff {k i : Nat} {r : Reference} {found : Option (List Reference)}
    (hk : n ≠ k) : (m.put n e).Slot k i r found ↔ m.Slot k i r found := by
  rw [Memory.Slot, Memory.Slot, getElem?_put_ne hk]

/-- A thread at node `n`, which is `d`, makes it `e` and makes way for others there. -/
structure Rework (asked : Text → Prop) (m : Memory) (t : Thread) (ts : List Thread) (n : Nat)
    (d e : Node) (new : List Thread) : Prop where
  url : e.url = d.url
  line : e.line = d.line
  slot : e.slot = d.slot
  here : t.place = .document n ∨ ∃ i, t.place = .slot n i
  alone : .document n ∉ places ts
  before : d.failed = false ∧ m.Active (places (t :: ts)) n
  after : .document n ∈ places new ∨ e.failed = false ∧ e.complete = false
  keeps : ∀ (i : Nat) (r : Reference) (found : Option (List Reference)),
    d.slots[i]? = some (r, found) → ∃ found', e.slots[i]? = some (r, found') ∧
      (found = none → t.place ≠ .slot n i → found' = none)
  filled : ∀ (i : Nat) (r : Reference) (found : List Reference), e.slots[i]? = some (r, some found) →
    d.slots[i]? = some (r, some found) ∨ m.Known asked r ∧ (∀ x ∈ found, m.Known asked x) ∧
      ∀ c, m.Child n i c → m.Well asked (places (t :: ts)) c
  surveyed : e.slots ≠ [] → asked d.url
  empty : ∀ (i : Nat) (r : Reference), e.slots[i]? = some (r, none) → e.failed = false →
    .slot n i ∈ places new ∨ d.slots[i]? = some (r, none) ∧ t.place ≠ .slot n i
  failed : e.failed = true → ∃ f, .rise n (some f) ∈ new
  report : t.Faulty → e.failed = true
  apart : (places new).Nodup
  there : ∀ p ∈ places new, p = .document n ∨ d.slots = [] ∧ ∃ i, p = .slot n i
  fits : ∀ x ∈ new, Fits asked (m.put n e) (places (new ++ ts)) x

section

variable (h : Tidy asked m (t :: ts)) (hd : m.nodes[n]? = some d)
  (hwork : Rework asked m t ts n d e new)

include hd hwork

theorem Rework.child_iff {k i c : Nat} : (m.put n e).Child k i c ↔ m.Child k i c :=
  child_put_iff hd hwork.line hwork.slot

omit hd in
theorem Rework.document_mem {c : Nat} (hc : n ≠ c) :
    .document c ∈ places (new ++ ts) ↔ .document c ∈ places (t :: ts) := by
  rw [places_append, List.mem_append]
  constructor
  · rintro (hmem | hmem)
    · rcases hwork.there _ hmem with hp | ⟨-, i, hp⟩
      · exact absurd (Place.document.inj hp).symm hc
      · cases hp
    · exact List.mem_cons_of_mem _ hmem
  · intro hmem
    rcases List.mem_cons.1 hmem with ht | hmem
    · rcases hwork.here with hhere | ⟨i, hhere⟩
      · exact absurd (Place.document.inj (ht.trans hhere)).symm hc
      · cases ht.trans hhere
    · exact .inr hmem

theorem Rework.active_iff {c : Nat} :
    (m.put n e).Active (places (new ++ ts)) c ↔ m.Active (places (t :: ts)) c := by
  by_cases hc : n = c
  · subst hc
    refine iff_of_true ?_ hwork.before.2
    rcases hwork.after with hmem | ⟨hopen, hincomplete⟩
    · rw [places_append]
      exact .inl (List.mem_append_left _ hmem)
    · exact .inr ⟨e, getElem?_put_self hd, hopen, hincomplete⟩
  · rw [Memory.Active, Memory.Active, hwork.document_mem hc, getElem?_put_ne hc]

omit hd in
theorem Rework.well {c : Nat} (hc : m.Well asked (places (t :: ts)) c) :
    (m.put n e).Well asked (places (new ++ ts)) c := by
  have hne : n ≠ c := by
    rintro rfl
    exact hc.not_active hwork.before.2
  rw [Memory.Well, hwork.document_mem hne, getElem?_put_ne hne]
  exact hc

include h in
/-- The other threads do not mind. -/
theorem Rework.fits_rest {x : Thread} (hx : x ∈ ts) :
    Fits asked (m.put n e) (places (new ++ ts)) x := by
  have hfit := h.fits x (List.mem_cons_of_mem t hx)
  have hplace : x.place ∈ places ts := List.mem_map_of_mem hx
  -- A thread elsewhere needs its slot empty still: the rework fills at most that of the thread in hand.
  have hslot : ∀ k i r, x.place = .slot k i → m.Slot k i r none →
      (m.put n e).Slot k i r none := by
    intro k i r hxp hs
    by_cases hk : n = k
    · subst hk
      obtain ⟨d', hd', hs⟩ := hs
      obtain rfl : d = d' := Option.some.inj (hd.symm.trans hd')
      obtain ⟨found', hs', hnone⟩ := hwork.keeps i r none hs
      rw [slot_put_self_iff hd, hs', hnone rfl]
      intro ht
      exact h.not_mem (ht.trans hxp.symm ▸ hplace)
    · exact (slot_put_ne_iff hk).2 hs
  -- No other thread stands at the document that is reworked.
  have hnode : ∀ k (P : Node → Prop), x.place = .document k → (∃ d, m.nodes[k]? = some d ∧ P d) →
      ∃ d, (m.put n e).nodes[k]? = some d ∧ P d := by
    intro k P hxp hk
    by_cases hne : n = k
    · subst hne
      exact absurd (hxp ▸ hplace) hwork.alone
    · rwa [getElem?_put_ne hne]
  cases x with
  | scan k => exact hnode k _ rfl hfit
  | scanned k answer => exact hnode k _ rfl hfit
  | follow k i =>
    obtain ⟨⟨r, hs⟩, hchild⟩ := hfit
    exact ⟨⟨r, hslot k i r rfl hs⟩, fun c hc => hchild c ((hwork.child_iff hd).1 hc)⟩
  | loaded k i answer =>
    obtain ⟨⟨r, hs, hknown⟩, hchild⟩ := hfit
    exact ⟨⟨r, hslot k i r rfl hs, hknown⟩, fun c hc => hchild c ((hwork.child_iff hd).1 hc)⟩
  | collect k i outcome =>
    obtain ⟨r, hs, hok⟩ := hfit
    refine ⟨r, hslot k i r rfl hs, fun rs hrs => ?_⟩
    obtain ⟨hknown, hrest, hwell⟩ := hok rs hrs
    exact ⟨hknown, hrest, fun c hc => hwork.well (hwell c ((hwork.child_iff hd).1 hc))⟩
  | rise k fault =>
    cases fault with
    | none => exact hnode k _ rfl hfit
    | some f => exact hnode k _ rfl hfit

include h in
theorem Rework.apart_all : (places (new ++ ts)).Nodup := by
  rw [places_append, List.nodup_append]
  refine ⟨hwork.apart, (List.nodup_cons.1 h.apart).2, fun p hp q hq hpq => ?_⟩
  subst hpq
  rcases hwork.there p hp with rfl | ⟨hslots, i, rfl⟩
  · exact hwork.alone hq
  · obtain ⟨x, hx, hplace⟩ := List.mem_map.1 hq
    obtain ⟨r, d', hd', hs⟩ := h.exists_slot (List.mem_cons_of_mem t hx) hplace
    obtain rfl : d = d' := Option.some.inj (hd.symm.trans hd')
    rw [hslots] at hs
    cases hs

include h in
theorem Rework.failed_all {c : Nat} {d' : Node} (hd' : (m.put n e).nodes[c]? = some d')
    (hfailed : d'.failed = true) : (∃ f, .rise c (some f) ∈ new ++ ts) ∨ d'.line = [] ∨
      ∃ k above, d'.line = k :: above ∧
        ((∃ e', (m.put n e).nodes[k]? = some e' ∧ e'.failed = true) ∨
          ∃ f, .collect k d'.slot (.error f) ∈ new ++ ts) := by
  by_cases hc : n = c
  · subst hc
    obtain rfl : e = d' := Option.some.inj ((getElem?_put_self hd).symm.trans hd')
    obtain ⟨f, hf⟩ := hwork.failed hfailed
    exact .inl ⟨f, List.mem_append_left _ hf⟩
  · rw [getElem?_put_ne hc] at hd'
    rcases h.failed c d' hd' hfailed with ⟨f, hf⟩ | htop | ⟨k, above, hline, ⟨e', he', hk⟩ | ⟨f, hf⟩⟩
    -- The fault was on its way up with the thread in hand, or it still is with another.
    · rcases List.mem_cons.1 hf with ht | hf
      · rcases hwork.here with hhere | ⟨i, hhere⟩
        · rw [← ht] at hhere
          exact absurd (Place.document.inj hhere).symm hc
        · rw [← ht] at hhere
          cases hhere
      · exact .inl ⟨f, List.mem_append_right _ hf⟩
    · exact .inr (.inl htop)
    · refine .inr (.inr ⟨k, above, hline, .inl ⟨e', ?_, hk⟩⟩)
      by_cases hkn : n = k
      · subst hkn
        obtain rfl : d = e' := Option.some.inj (hd.symm.trans he')
        rw [hwork.before.1] at hk
        cases hk
      · rwa [getElem?_put_ne hkn]
    · rcases List.mem_cons.1 hf with ht | hf
      · rcases hwork.here with hhere | ⟨i, hhere⟩
        · rw [← ht] at hhere
          cases hhere
        · rw [← ht] at hhere
          obtain ⟨rfl, -⟩ := Place.slot.inj hhere
          exact .inr (.inr ⟨k, above, hline, .inl
            ⟨e, getElem?_put_self hd, hwork.report (ht ▸ trivial)⟩⟩)
      · exact .inr (.inr ⟨k, above, hline, .inr ⟨f, List.mem_append_right _ hf⟩⟩)

/-- A node keeps its URL and its place in the tree. -/
theorem Rework.exists_before {c : Nat} {d' : Node} (hd' : (m.put n e).nodes[c]? = some d') :
    ∃ d₀ : Node, m.nodes[c]? = some d₀ ∧ d'.url = d₀.url ∧ d'.line = d₀.line ∧ d'.slot = d₀.slot := by
  by_cases hc : n = c
  · subst hc
    obtain rfl : e = d' := Option.some.inj ((getElem?_put_self hd).symm.trans hd')
    exact ⟨d, hd, hwork.url, hwork.line, hwork.slot⟩
  · rw [getElem?_put_ne hc] at hd'
    exact ⟨d', hd', rfl, rfl, rfl⟩

/-- A slot keeps its reference. -/
theorem Rework.exists_slot {k i : Nat} {r : Reference} {found : Option (List Reference)}
    (hs : m.Slot k i r found) : ∃ found', (m.put n e).Slot k i r found' := by
  by_cases hk : n = k
  · subst hk
    obtain ⟨d₀, hd₀, hs⟩ := hs
    obtain rfl : d = d₀ := Option.some.inj (hd.symm.trans hd₀)
    obtain ⟨found', hs', -⟩ := hwork.keeps i r found hs
    exact ⟨found', (slot_put_self_iff hd).2 hs'⟩
  · exact ⟨found, (slot_put_ne_iff hk).2 hs⟩

theorem Rework.urls : (m.put n e).nodes.map (·.url) = m.nodes.map (·.url) := by
  refine List.ext_getElem? fun c => ?_
  by_cases hc : n = c
  · subst hc
    rw [List.getElem?_map, List.getElem?_map, getElem?_put_self hd, hd]
    exact congrArg some hwork.url
  · rw [List.getElem?_map, List.getElem?_map, getElem?_put_ne hc]

include h in
theorem Rework.top_all : ∃ d', (m.put n e).nodes[0]? = some d' ∧ d'.line = [] := by
  obtain ⟨d₀, hd₀, hline⟩ := h.top
  by_cases hn : n = 0
  · subst hn
    obtain rfl : d = d₀ := Option.some.inj (hd.symm.trans hd₀)
    exact ⟨e, getElem?_put_self hd, hwork.line.trans hline⟩
  · exact ⟨d₀, (getElem?_put_ne hn).trans hd₀, hline⟩

include h in
theorem Rework.below_all {c : Nat} {d' : Node} (hd' : (m.put n e).nodes[c]? = some d') :
    d'.line = [] ∧ c = 0 ∨ ∃ k above r found, d'.line = k :: above ∧ k < c ∧
      (m.put n e).Slot k d'.slot r found ∧ r.url = d'.url := by
  obtain ⟨d₀, hd₀, hurl, hline, hslot⟩ := hwork.exists_before hd hd'
  rw [hurl, hline, hslot]
  refine (h.below c d₀ hd₀).imp_right ?_
  rintro ⟨k, above, r, found, hline, hlt, hs, hr⟩
  obtain ⟨found', hs'⟩ := hwork.exists_slot hd hs
  exact ⟨k, above, r, found', hline, hlt, hs', hr⟩

include h in
theorem Rework.pending_all {k i c : Nat} (hc : m.Child k i c) (hactive : m.Active (places (t :: ts)) c) :
    (∀ r found, ¬ (m.put n e).Slot k i r (some found)) ∧ .slot k i ∉ places (new ++ ts) := by
  obtain ⟨hempty, hplace⟩ := h.pending k i c hc hactive
  constructor
  · intro r found hs
    by_cases hk : n = k
    · subst hk
      rcases hwork.filled i r found ((slot_put_self_iff hd).1 hs) with hs | ⟨-, -, hwell⟩
      · exact hempty r found ⟨d, hd, hs⟩
      · exact (hwell c hc).not_active hactive
    · exact hempty r found ((slot_put_ne_iff hk).1 hs)
  · intro hmem
    rw [places_append, List.mem_append] at hmem
    rcases hmem with hmem | hmem
    · rcases hwork.there _ hmem with hp | ⟨hslots, j, hp⟩
      · cases hp
      · obtain ⟨rfl, rfl⟩ := Place.slot.inj hp
        obtain ⟨r, found, d₀, hd₀, hs⟩ := h.slot_of_child hc
        obtain rfl : d = d₀ := Option.some.inj (hd.symm.trans hd₀)
        rw [hslots] at hs
        cases hs
    · exact hplace (List.mem_cons_of_mem _ hmem)

include h in
theorem Rework.filled_all {k i : Nat} {r : Reference} {found : List Reference}
    (hs : (m.put n e).Slot k i r (some found)) : m.Known asked r ∧ (∀ x ∈ found, m.Known asked x) ∧
      ∀ c, m.Child k i c → m.Well asked (places (t :: ts)) c := by
  by_cases hk : n = k
  · subst hk
    rcases hwork.filled i r found ((slot_put_self_iff hd).1 hs) with hs | hall
    · exact h.filled n i r found ⟨d, hd, hs⟩
    · exact hall
  · exact h.filled k i r found ((slot_put_ne_iff hk).1 hs)

include h in
theorem Rework.surveyed_all {k : Nat} {d' : Node} (hd' : (m.put n e).nodes[k]? = some d')
    (hslots : d'.slots ≠ []) : asked d'.url := by
  by_cases hk : n = k
  · subst hk
    obtain rfl : e = d' := Option.some.inj ((getElem?_put_self hd).symm.trans hd')
    rw [hwork.url]
    exact hwork.surveyed hslots
  · exact h.surveyed k d' ((getElem?_put_ne hk).symm.trans hd') hslots

include h in
/-- An empty slot has somebody at work on it, here or below. -/
theorem Rework.empty_all {k i : Nat} {d' : Node} {r : Reference} (hd' : (m.put n e).nodes[k]? = some d')
    (hs : d'.slots[i]? = some (r, none)) (hopen : d'.failed = false) :
    .slot k i ∈ places (new ++ ts) ∨ ∃ c, m.Child k i c ∧ m.Active (places (t :: ts)) c := by
  have hold : t.place ≠ .slot k i → .slot k i ∈ places (t :: ts) → .slot k i ∈ places (new ++ ts) := by
    intro ht hmem
    rw [places_append]
    exact List.mem_append_right _ (mem_places_of_ne hmem ht.symm)
  by_cases hk : n = k
  · subst hk
    obtain rfl : e = d' := Option.some.inj ((getElem?_put_self hd).symm.trans hd')
    rcases hwork.empty i r hs hopen with hmem | ⟨hs, ht⟩
    · rw [places_append]
      exact .inl (List.mem_append_left _ hmem)
    · exact (h.empty n i d r hd hs hwork.before.1).imp_left (hold ht)
  · rw [getElem?_put_ne hk] at hd'
    refine (h.empty k i d' r hd' hs hopen).imp_left (hold fun ht => ?_)
    rcases hwork.here with hhere | ⟨j, hhere⟩
    · cases hhere.symm.trans ht
    · exact hk (Place.slot.inj (hhere.symm.trans ht)).1

end

theorem Tidy.put (h : Tidy asked m (t :: ts)) (hd : m.nodes[n]? = some d)
    (hwork : Rework asked m t ts n d e new) : Tidy asked (m.put n e) (new ++ ts) where
  visited := h.visited.trans (hwork.urls hd).symm
  apart := hwork.apart_all h hd
  fits x hx := (List.mem_append.1 hx).elim (hwork.fits x) (hwork.fits_rest h hd)
  top := hwork.top_all h hd
  below c d' := hwork.below_all h hd
  single k i c c' hc hc' := h.single k i c c' ((hwork.child_iff hd).1 hc) ((hwork.child_iff hd).1 hc')
  pending k i c hc hactive :=
    hwork.pending_all h hd ((hwork.child_iff hd).1 hc) ((hwork.active_iff hd).1 hactive)
  filled k i r found hs := by
    obtain ⟨hknown, hrest, hwell⟩ := hwork.filled_all h hd hs
    exact ⟨hknown, hrest, fun c hc => hwork.well (hwell c ((hwork.child_iff hd).1 hc))⟩
  surveyed k d' := hwork.surveyed_all h hd
  empty k i d' r hd' hs hopen := (hwork.empty_all h hd hd' hs hopen).imp_right
    (Exists.imp fun c hc => ⟨(hwork.child_iff hd).2 hc.1, (hwork.active_iff hd).2 hc.2⟩)
  failed c d' := hwork.failed_all h hd

/-- A thread may change the document where it works. -/
theorem Tidy.rework (h : Tidy asked m (t :: ts)) (hd : m.nodes[n]? = some d)
    (hwork : Rework asked m t ts n d e new) : Leads asked m (t :: ts) (m.put n e) (new ++ ts) := by
  refine ⟨h.put hd hwork, (hwork.active_iff hd).2, ?_⟩
  rintro (⟨c, d', hd', hfailed⟩ | ⟨x, hx, hfaulty⟩)
  · refine .inl ⟨c, d', ?_, hfailed⟩
    rwa [getElem?_put_ne]
    rintro rfl
    obtain rfl : d = d' := Option.some.inj (hd.symm.trans hd')
    rw [hwork.before.1] at hfailed
    cases hfailed
  · rcases List.mem_cons.1 hx with rfl | hx
    · exact .inl ⟨n, e, getElem?_put_self hd, hwork.report hfaulty⟩
    · exact .inr ⟨x, List.mem_append_right _ hx, hfaulty⟩

end HtmlDeps.Imports
