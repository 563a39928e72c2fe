import Mathlib.Data.List.Nodup
import HtmlDeps.Proofs.Crawl.Growth
import HtmlDeps.Proofs.Crawl.Rework

/-!
# The turns of a crawl

Every turn of a thread keeps a crawl tidy: it leaves threads behind that fit, or asks for a URL and
goes on with whatever is answered, or ends the crawl with a report all of whose references need not
be asked for or were (`Tidy.turn`).
-/

namespace HtmlDeps.Imports

open Memory

variable {asked asked' : Text → Prop} {m : Memory} {ts ts' : List Thread} {t t' : Thread}
  {n i : Nat} {d : Node}

/-! ### Texts do not matter -/

@[simp] theorem emptied_emptied (t : Thread) : t.emptied.emptied = t.emptied := by
  cases t with
  | scanned n answer => cases answer <;> rfl
  | loaded n i answer => cases answer <;> rfl
  | scan | follow | collect | rise => rfl

@[simp] theorem place_emptied (t : Thread) : t.emptied.place = t.place := by
  cases t with
  | scanned n answer => cases answer <;> rfl
  | loaded n i answer => cases answer <;> rfl
  | scan | follow | collect | rise => rfl

theorem faulty_emptied_iff {t : Thread} : t.emptied.Faulty ↔ t.Faulty := by
  cases t with
  | scanned n answer => cases answer <;> rfl
  | loaded n i answer => cases answer <;> rfl
  | scan | follow | collect | rise => rfl

theorem fits_emptied_iff {ps : List Place} {t : Thread} :
    Fits asked m ps t.emptied ↔ Fits asked m ps t := by
  cases t with
  | scanned n answer => cases answer <;> rfl
  | loaded n i answer => cases answer <;> rfl
  | scan | follow | collect | rise => rfl

theorem places_map_emptied (ts : List Thread) : places (ts.map Thread.emptied) = places ts := by
  simp [places]

theorem mem_map_emptied_iff (ht : t.emptied = t) (hall : ∀ t', t'.emptied = t → t' = t) :
    t ∈ ts.map Thread.emptied ↔ t ∈ ts := by
  rw [List.mem_map]
  constructor
  · rintro ⟨t', ht', heq⟩
    exact hall t' heq ▸ ht'
  · exact fun hmem => ⟨t, hmem, ht⟩

theorem tidy_map_emptied_iff : Tidy asked m (ts.map Thread.emptied) ↔ Tidy asked m ts := by
  -- What is emptied is an answer, and a tidy crawl looks at faults and outcomes only.
  have hrise : ∀ c f, Thread.rise c (some f) ∈ ts.map Thread.emptied ↔ .rise c (some f) ∈ ts := by
    refine fun c f => mem_map_emptied_iff rfl fun t' ht' => ?_
    cases t' with
    | scanned n answer => cases answer <;> cases ht'
    | loaded n i answer => cases answer <;> cases ht'
    | scan | follow | collect | rise => exact ht'
  have hcollect : ∀ n i f, Thread.collect n i (.error f) ∈ ts.map Thread.emptied ↔
      .collect n i (.error f) ∈ ts := by
    refine fun n i f => mem_map_emptied_iff rfl fun t' ht' => ?_
    cases t' with
    | scanned n answer => cases answer <;> cases ht'
    | loaded n i answer => cases answer <;> cases ht'
    | scan | follow | collect | rise => exact ht'
  have hfits : (∀ t ∈ ts.map Thread.emptied, Fits asked m (places ts) t) ↔
      ∀ t ∈ ts, Fits asked m (places ts) t := by
    simp [fits_emptied_iff]
  constructor
  · rintro ⟨visited, apart, fits, top, below, single, pending, filled, surveyed, empty, failed⟩
    rw [places_map_emptied] at apart fits
    simp only [places_map_emptied, hrise, hcollect] at pending filled empty failed
    exact ⟨visited, apart, hfits.1 fits, top, below, single, pending, filled, surveyed, empty, failed⟩
  · rintro ⟨visited, apart, fits, top, below, single, pending, filled, surveyed, empty, failed⟩
    refine ⟨visited, ?_, ?_, top, below, single, ?_, ?_, surveyed, ?_, ?_⟩
    · rwa [places_map_emptied]
    · rw [places_map_emptied]
      exact hfits.2 fits
    · simpa only [places_map_emptied]
    · simpa only [places_map_emptied]
    · simpa only [places_map_emptied]
    · simpa only [hrise, hcollect]

theorem broken_map_emptied_iff : m.Broken (ts.map Thread.emptied) ↔ m.Broken ts := by
  simp [Memory.Broken, faulty_emptied_iff]

/-! ### Documents -/

theorem complete_of_slots (hslots : d.slots = []) : d.complete = true := by
  rw [Node.complete, hslots]
  rfl

theorem Tidy.fits_first (h : Tidy asked m (t :: ts)) : Fits asked m (places (t :: ts)) t :=
  h.fits t List.mem_cons_self

theorem Lands.of_withWarnings (ws : List Warning) {turn : Turn Memory Thread}
    (h : Lands asked { m with warnings := ws } t ts turn) : Lands asked m t ts turn := by
  unfold Lands at h ⊢
  split
  · rename_i hmove
    rw [hmove] at h
    refine ⟨h.1, fun asked' answer hasked hanswer => ?_⟩
    have hleads := h.2 asked' answer hasked hanswer
    exact ⟨hleads.tidy, hleads.active, hleads.broken⟩
  · rename_i hmove
    rw [hmove] at h
    exact ⟨h.tidy, h.active, h.broken⟩
  · rename_i hmove
    rw [hmove] at h
    exact h

/-- A document is given its slots, and each of its references is followed. -/
theorem Tidy.spread {contents : Text} (h : Tidy asked m (.scanned n (.ok contents) :: ts))
    (hd : m.nodes[n]? = some d) {refs : List Reference} (hrefs : refs ≠ []) :
    Leads asked m (.scanned n (.ok contents) :: ts) (m.put n { d with slots := refs.map (·, none) })
      ((List.range refs.length).map (.follow n) ++ ts) := by
  obtain ⟨d', hd', hslots, hopen, hasked⟩ := h.fits_first
  obtain rfl : d = d' := Option.some.inj (hd.symm.trans hd')
  have hplaces : places ((List.range refs.length).map (.follow n)) =
      (List.range refs.length).map (.slot n) := by
    rw [places, List.map_map]
    rfl
  have hslot : ∀ {i : Nat} {r : Reference} {found : Option (List Reference)}, (refs.map fun r => (r, (none : Option (List Reference))))[i]? =
      some (r, found) → refs[i]? = some r ∧ found = none := by
    intro i r found hs
    rw [List.getElem?_map, Option.map_eq_some_iff] at hs
    obtain ⟨r', hr', heq⟩ := hs
    obtain ⟨rfl, rfl⟩ := Prod.mk.inj heq
    exact ⟨hr', rfl⟩
  refine h.rework hd {
    url := rfl
    line := rfl
    slot := rfl
    here := .inl rfl
    alone := h.not_mem
    before := ⟨hopen, .inl List.mem_cons_self⟩
    after := .inr ⟨hopen, ?_⟩
    keeps := fun i r found hs => by simp [hslots] at hs
    filled := fun i r found hs => by cases (hslot hs).2
    surveyed := fun _ => hasked rfl
    empty := fun i r hs _ => .inl ?_
    failed := fun hfailed => absurd (hopen.symm.trans hfailed) Bool.false_ne_true
    report := False.elim
    apart := ?_
    there := fun p hp => .inr ⟨hslots, ?_⟩
    fits := fun x hx => ?_ }
  · obtain ⟨r, refs, rfl⟩ := List.exists_cons_of_ne_nil hrefs
    rfl
  · rw [hplaces]
    have hi := (List.getElem?_eq_some_iff.1 (hslot hs).1).1
    exact List.mem_map_of_mem (List.mem_range.2 hi)
  · rw [hplaces]
    exact List.nodup_range.map fun _ _ hij => (Place.slot.inj hij).2
  · rw [hplaces, List.mem_map] at hp
    obtain ⟨i, -, hi⟩ := hp
    exact ⟨i, hi.symm⟩
  -- The slots are new, so no document can have been entered through one of them.
  · obtain ⟨i, hi, rfl⟩ := List.mem_map.1 hx
    have hi := List.mem_range.1 hi
    refine ⟨⟨refs[i], (slot_put_self_iff hd).2 ?_⟩, fun c hc => ?_⟩
    · rw [List.getElem?_map, List.getElem?_eq_getElem hi]
      rfl
    · obtain ⟨r, found, d₀, hd₀, hs⟩ := h.slot_of_child
        ((child_put_iff (e := { d with slots := refs.map (·, none) }) hd rfl rfl).1 hc)
      obtain rfl : d = d₀ := Option.some.inj (hd.symm.trans hd₀)
      rw [hslots] at hs
      cases hs

/-- A document is surveyed. -/
theorem Tidy.survey {contents : Text} (h : Tidy asked m (.scanned n (.ok contents) :: ts))
    (hd : m.nodes[n]? = some d) :
    Lands asked m (.scanned n (.ok contents)) ts (m.survey n d contents) := by
  obtain ⟨d', hd', hslots, hopen, hasked⟩ := h.fits_first
  obtain rfl : d = d' := Option.some.inj (hd.symm.trans hd')
  have hcomplete := complete_of_slots hslots
  have hplace : Thread.place (.scanned n (.ok contents)) = .document n := rfl
  unfold Memory.survey
  dsimp only
  split
  · rename_i f hf
    have hout : Outcome asked m (.scanned n (.ok contents)) d (.error (.document f)) :=
      ⟨.inr hcomplete, nofun, fun _ => ⟨_, rfl⟩⟩
    exact h.deliver hplace hd hout
  -- The warnings are noted first, and nothing in the order of a crawl depends on them.
  · have htidy := h.withWarnings (m.warnings ++ (Survey.of d.url contents).1.warnings)
    refine Lands.of_withWarnings (m.warnings ++ (Survey.of d.url contents).1.warnings) ?_
    split
    · have hout : Outcome asked
          { m with warnings := m.warnings ++ (Survey.of d.url contents).1.warnings }
          (.scanned n (.ok contents)) d (.ok []) := by
        refine ⟨.inr hcomplete, fun rs hrs => ?_, ?_⟩
        · obtain rfl := Except.ok.inj hrs
          exact ⟨hasked rfl, hcomplete, nofun⟩
        · rintro (hfaulty | hfailed)
          · exact hfaulty.elim
          · rw [hopen] at hfailed
            cases hfailed
      exact htidy.deliver hplace hd hout
    · rename_i hrefs
      have hspread := htidy.spread hd (mt List.isEmpty_iff.2 hrefs)
      have hput := modify_eq_put
        (m := { m with warnings := m.warnings ++ (Survey.of d.url contents).1.warnings }) hd
        fun d' => { d' with slots := (Survey.of d.url contents).1.references.map (·, none) }
      rw [← hput] at hspread
      exact hspread

/-! ### Slots -/

theorem incomplete_of_slot {r : Reference} (hs : d.slots[i]? = some (r, none)) :
    d.complete = false := by
  by_contra hcomplete
  rw [Bool.not_eq_false] at hcomplete
  obtain ⟨rs, hrs⟩ := exists_found hcomplete hs
  cases hrs

theorem slots_ne_nil {x : Reference × Option (List Reference)} (hs : d.slots[i]? = some x) : d.slots ≠ [] := by
  intro hslots
  rw [hslots] at hs
  cases hs

/-- What the slots hold after one was filled. -/
theorem getElem?_filled_iff {e : Node} {rs : List Reference} {j : Nat} {r : Reference}
    {found : Option (List Reference)}
    (he : e = { d with slots := d.slots.modify i fun (r, _) => (r, some rs) }) :
    e.slots[j]? = some (r, found) ↔
      i = j ∧ found = some rs ∧ (∃ found', d.slots[j]? = some (r, found')) ∨
        i ≠ j ∧ d.slots[j]? = some (r, found) := by
  rw [he]
  by_cases hj : i = j
  · subst hj
    rw [List.getElem?_modify_eq]
    rcases d.slots[i]? with - | ⟨r', found'⟩ <;> simp [and_comm, eq_comm]
  · rw [List.getElem?_modify_ne _ _ hj]
    simp [hj]

/-- No thread works on a document itself while it has an empty slot and has not failed. -/
theorem Tidy.alone (h : Tidy asked m ts) (hd : m.nodes[n]? = some d) (hopen : d.failed = false)
    {r : Reference} (hs : d.slots[i]? = some (r, none)) : .document n ∉ places ts := by
  intro hmem
  obtain ⟨x, hx, hplace⟩ := List.mem_map.1 hmem
  have hfit := h.fits x hx
  cases x with
  | follow | loaded | collect => cases hplace
  | scan | scanned =>
    obtain rfl := Place.document.inj hplace
    obtain ⟨d', hd', hslots, -⟩ := hfit
    obtain rfl : d = d' := Option.some.inj (hd.symm.trans hd')
    rw [hslots] at hs
    cases hs
  | rise k fault =>
    obtain rfl := Place.document.inj hplace
    cases fault with
    | none =>
      obtain ⟨d', hd', -, hcomplete, -⟩ := hfit
      obtain rfl : d = d' := Option.some.inj (hd.symm.trans hd')
      rw [incomplete_of_slot hs] at hcomplete
      cases hcomplete
    | some f =>
      obtain ⟨d', hd', hfailed⟩ := hfit
      obtain rfl : d = d' := Option.some.inj (hd.symm.trans hd')
      rw [hopen] at hfailed
      cases hfailed

section

variable {outcome : Except Fault (List Reference)} (h : Tidy asked m (.collect n i outcome :: ts))
  (hd : m.nodes[n]? = some d)

include h hd

/-- What a failed document collects is dropped. -/
theorem Tidy.collect_failed (hfailed : d.failed = true) :
    Leads asked m (.collect n i outcome :: ts) m ts := by
  have hrelief : Relief asked m (.collect n i outcome) ts [] := {
    apart := List.nodup_nil
    free := nofun
    fits := nofun
    document := nofun
    slot := nofun
    empty := fun k j hk => by
      obtain ⟨rfl, rfl⟩ := Place.slot.inj hk
      exact .inr ⟨d, hd, hfailed⟩
    child := nofun
    rise := nofun
    collect := fun k j f hk => by
      obtain ⟨rfl, -⟩ := Thread.collect.inj hk
      exact ⟨d, hd, hfailed⟩ }
  refine ⟨h.replace hrelief, fun hactive => ?_, fun _ => .inl ⟨n, d, hd, hfailed⟩⟩
  rcases hactive with hmem | hnode
  · exact .inl (mem_places_of_ne hmem nofun)
  · exact .inr hnode

/-- A fault in a slot ends the work on a document. -/
theorem Tidy.collect_error (hopen : d.failed = false) (f : Fault) :
    Leads asked m (.collect n i outcome :: ts) (m.put n { d with failed := true })
      (.rise n (some f) :: ts) := by
  obtain ⟨r, ⟨d', hd', hs⟩, -⟩ := h.fits_first
  obtain rfl : d = d' := Option.some.inj (hd.symm.trans hd')
  have halone := h.alone hd hopen hs
  have hwork : Rework asked m (.collect n i outcome) ts n d { d with failed := true }
      [.rise n (some f)] := {
    url := rfl
    line := rfl
    slot := rfl
    here := .inr ⟨i, rfl⟩
    alone := fun hmem => halone (List.mem_cons_of_mem _ hmem)
    before := ⟨hopen, .inr ⟨d, hd, hopen, incomplete_of_slot hs⟩⟩
    after := .inl List.mem_cons_self
    keeps := fun j r found hs => ⟨found, hs, fun hnone _ => hnone⟩
    filled := fun j r found hs => .inl hs
    surveyed := h.surveyed n d hd
    empty := fun j r hs => nofun
    failed := fun _ => ⟨f, List.mem_cons_self⟩
    report := fun _ => rfl
    apart := List.nodup_singleton _
    there := fun p hp => .inl (List.mem_singleton.1 hp)
    fits := fun x hx => by
      rw [List.mem_singleton] at hx
      subst hx
      exact ⟨_, getElem?_put_self hd, rfl⟩ }
  exact h.rework hd hwork

/-- A slot is filled; if it is the last one, the document is ready to be delivered. -/
theorem Tidy.collect_ok (hopen : d.failed = false) {rs : List Reference} (houtcome : outcome = .ok rs)
    {e : Node} (he : e = { d with slots := d.slots.modify i fun (r, _) => (r, some rs) }) :
    Leads asked m (.collect n i outcome :: ts) (m.put n e)
      ((if e.complete then [.rise n none] else []) ++ ts) := by
  obtain ⟨r, ⟨d', hd', hs⟩, hok⟩ := h.fits_first
  obtain rfl : d = d' := Option.some.inj (hd.symm.trans hd')
  -- An open slot keeps the document from being delivered, so no other thread is at the document.
  have halone := h.alone hd hopen hs
  have hasked : asked d.url := h.surveyed n d hd (slots_ne_nil hs)
  have hsame : e.failed = d.failed := by rw [he]
  have hmem : ∀ x ∈ (if e.complete then [Thread.rise n none] else []),
      e.complete = true ∧ x = .rise n none := by
    intro x hx
    split at hx
    · exact ⟨‹_›, List.mem_singleton.1 hx⟩
    · cases hx
  exact h.rework hd {
    url := by rw [he]
    line := by rw [he]
    slot := by rw [he]
    here := .inr ⟨i, rfl⟩
    alone := fun hmem => halone (List.mem_cons_of_mem _ hmem)
    before := ⟨hopen, .inr ⟨d, hd, hopen, incomplete_of_slot hs⟩⟩
    after := by
      split
      · exact .inl List.mem_cons_self
      · rename_i hincomplete
        exact .inr ⟨hsame.trans hopen, eq_false_of_ne_true hincomplete⟩
    keeps := fun j r' found hs' => by
      -- Only the slot that is filled changes, and it is the one that the thread in hand stood for.
      by_cases hj : i = j
      · subst hj
        exact ⟨some rs, (getElem?_filled_iff he).2 (.inl ⟨rfl, rfl, found, hs'⟩), fun _ hne => absurd rfl hne⟩
      · exact ⟨found, (getElem?_filled_iff he).2 (.inr ⟨hj, hs'⟩), fun hnone _ => hnone⟩
    filled := fun j r' found hs' => by
      rcases (getElem?_filled_iff he).1 hs' with ⟨rfl, hfound, found', hs'⟩ | ⟨-, hs'⟩
      · obtain rfl := Option.some.inj hfound
        obtain ⟨rfl, -⟩ := Prod.mk.inj (Option.some.inj (hs.symm.trans hs'))
        exact .inr (hok found houtcome)
      · exact .inl hs'
    surveyed := fun _ => hasked
    empty := fun j r' hs' _ => by
      rcases (getElem?_filled_iff he).1 hs' with ⟨-, hnone, -⟩ | ⟨hj, hs'⟩
      · cases hnone
      · exact .inr ⟨hs', fun hplace => hj (Place.slot.inj hplace).2⟩
    failed := fun hfailed => by cases hfailed.symm.trans (hsame.trans hopen)
    report := fun hfaulty => by
      rw [houtcome] at hfaulty
      exact hfaulty.elim
    apart := by
      split
      · exact List.nodup_singleton _
      · exact List.nodup_nil
    there := fun p hp => by
      obtain ⟨x, hx, rfl⟩ := List.mem_map.1 hp
      rw [(hmem x hx).2]
      exact .inl rfl
    fits := fun x hx => by
      obtain ⟨hcomplete, rfl⟩ := hmem x hx
      refine ⟨e, getElem?_put_self hd, hsame.trans hopen, hcomplete, ?_⟩
      rw [he]
      exact hasked }

/-- The outcome of a slot is put in its place. -/
theorem Tidy.collect : Lands asked m (.collect n i outcome) ts (m.collect n i d outcome) := by
  unfold Memory.collect
  split
  · exact h.collect_failed hd ‹_›
  · rename_i hopen
    rw [Bool.not_eq_true] at hopen
    split
    · rw [modify_eq_put hd]
      exact h.collect_error hd hopen _
    · dsimp only
      rw [modify_eq_put hd]
      exact h.collect_ok hd hopen rfl rfl

end

/-- A reference is followed. -/
theorem Tidy.follow (h : Tidy asked m (.follow n i :: ts)) (hd : m.nodes[n]? = some d)
    {r : Reference} {found : Option (List Reference)} (hs : d.slots[i]? = some (r, found)) :
    Lands asked m (.follow n i) ts (m.follow (fun _ => true) n i d r) := by
  obtain ⟨⟨r', d', hd', hs'⟩, hnone⟩ := h.fits_first
  obtain rfl : d = d' := Option.some.inj (hd.symm.trans hd')
  obtain ⟨rfl, rfl⟩ := Prod.mk.inj (Option.some.inj (hs.symm.trans hs'))
  -- Unless a document is entered, nothing hangs on the slot, and it can be filled as it is.
  have hcollect : ∀ outcome : Except Fault (List Reference),
      (∀ rs, outcome = .ok rs → rs = [] ∧ m.Known asked r) →
      Leads asked m (.follow n i :: ts) m (.collect n i outcome :: ts) := by
    intro outcome hok
    refine h.swap rfl ⟨r, ⟨d, hd, hs⟩, fun rs hrs => ?_⟩ (.inl nofun) nofun nofun
    obtain ⟨rfl, hknown⟩ := hok rs hrs
    exact ⟨hknown, nofun, fun c hc => absurd hc (hnone c)⟩
  unfold Memory.follow
  dsimp only
  split
  · exact hcollect _ nofun
  · rename_i hexternal
    exact hcollect _ fun rs hrs => ⟨(Except.ok.inj hrs).symm, .inl hexternal⟩
  · simp only [Bool.not_true, Bool.false_eq_true, if_false]
    split
    · split
      · rename_i hvisited
        exact hcollect _ fun rs hrs => ⟨(Except.ok.inj hrs).symm,
          .inr (.inr (List.contains_iff_mem.1 hvisited))⟩
      · refine ⟨⟨fun _ => rfl, nofun, fun _ => trivial⟩, fun asked' answer hasked hanswer => ?_⟩
        have hfresh : Fresh n i d r ⟨r.url, n :: d.line, i, [], false⟩ := ⟨rfl, rfl, rfl, rfl, rfl⟩
        refine ⟨(h.mono hasked).open hd hs hfresh hanswer, active_grow, ?_⟩
        rintro (⟨c, d', hd', hfailed⟩ | ⟨x, hx, hfaulty⟩)
        · exact .inl ⟨c, d', getElem?_grow_iff.2 (.inl hd'), hfailed⟩
        · rcases List.mem_cons.1 hx with rfl | hx
          · exact hfaulty.elim
          · exact .inr ⟨x, List.mem_cons_of_mem _ hx, hfaulty⟩
    · refine ⟨⟨fun _ => rfl, nofun, fun _ => trivial⟩, fun asked' answer hasked hanswer => ?_⟩
      refine (h.mono hasked).swap rfl ⟨⟨r, ⟨d, hd, hs⟩, fun hok => ?_⟩, hnone⟩ (.inl nofun) nofun nofun
      exact .inr (.inl (hanswer hok))

/-- What the slots of a complete document hold is known. -/
theorem Tidy.known_of_listed (h : Tidy asked m ts) (hd : m.nodes[n]? = some d)
    (hcomplete : d.complete = true) {r : Reference} (hr : r ∈ d.listed) : m.Known asked r := by
  obtain ⟨⟨r', found⟩, hslot, hr⟩ := List.mem_flatMap.1 hr
  obtain ⟨i, hi⟩ := List.getElem?_of_mem hslot
  obtain ⟨rs, rfl⟩ := exists_found hcomplete hi
  obtain ⟨hknown, hrest, -⟩ := h.filled n i r' rs ⟨d, hd, hi⟩
  rcases List.mem_cons.1 hr with rfl | hr
  · exact hknown
  · exact hrest r hr

/-- **A turn** keeps a crawl tidy. -/
theorem Tidy.turn (h : Tidy asked m (t :: ts)) :
    Lands asked m t ts (turn (fun _ => true) m t) := by
  have hfit := h.fits_first
  -- What fits in front of a turn says that the places the thread speaks of exist: no thread is lost.
  cases t with
  | scan n =>
    obtain ⟨d, hd, hslots, hopen⟩ := hfit
    simp only [Imports.turn, hd, Option.elim]
    refine ⟨⟨fun _ => rfl, nofun, fun _ => trivial⟩, fun asked' answer hasked hanswer => ?_⟩
    exact (h.mono hasked).swap rfl ⟨d, hd, hslots, hopen, hanswer⟩ (.inl nofun) nofun nofun
  | scanned n answer =>
    obtain ⟨d, hd, hslots, hopen, -⟩ := hfit
    cases answer with
    | error f =>
      simp only [Imports.turn, hd, Option.elim]
      -- A document without slots has nothing left to wait for.
      exact h.deliver rfl hd ⟨.inr (complete_of_slots hslots), nofun, fun _ => ⟨f, rfl⟩⟩
    | ok contents =>
      simp only [Imports.turn, hd, Option.elim]
      exact h.survey hd
  | follow n i =>
    obtain ⟨⟨r, d, hd, hs⟩, -⟩ := hfit
    simp only [Imports.turn, hd, hs, Option.elim]
    exact h.follow hd hs
  | loaded n i answer =>
    obtain ⟨⟨r, hs, hknown⟩, hnone⟩ := hfit
    refine h.swap rfl ⟨r, hs, fun rs hrs => ?_⟩ ?_ nofun nofun
    · cases answer with
      | error f => cases hrs
      | ok text =>
        obtain rfl := Except.ok.inj hrs
        exact ⟨hknown rfl, nofun, fun c hc => absurd hc (hnone c)⟩
    · cases answer with
      | error f => exact .inr trivial
      | ok text => exact .inl nofun
  | collect n i outcome =>
    obtain ⟨r, ⟨d, hd, hs⟩, -⟩ := hfit
    simp only [Imports.turn, hd, Option.elim]
    exact h.collect hd
  | rise n fault =>
    cases fault with
    | none =>
      obtain ⟨d, hd, hopen, hcomplete, hasked⟩ := hfit
      simp only [Imports.turn, hd, Option.elim]
      refine h.deliver rfl hd ⟨.inr hcomplete, fun rs hrs => ?_, ?_⟩
      · obtain rfl := Except.ok.inj hrs
        exact ⟨hasked, hcomplete, fun r hr => h.known_of_listed hd hcomplete hr⟩
      · rintro (hfaulty | hfailed)
        · exact hfaulty.elim
        · rw [hopen] at hfailed
          cases hfailed
    | some f =>
      obtain ⟨d, hd, hfailed⟩ := hfit
      simp only [Imports.turn, hd, Option.elim]
      exact h.deliver rfl hd ⟨.inl hfailed, nofun, fun _ => ⟨f, rfl⟩⟩

end HtmlDeps.Imports
