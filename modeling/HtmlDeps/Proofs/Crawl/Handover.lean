import HtmlDeps.Proofs.Crawl.Firsts
import HtmlDeps.Proofs.Crawl.Tidy

/-!
# Threads that make way for others

A turn may leave the documents of a crawl as they are, and only change who works on them
(`Tidy.replace`).  So it is when a thread goes on at its place (`Tidy.swap`), and when a document on
which the work is over is delivered to the one above it, or ends the crawl (`Tidy.deliver`).
-/

namespace HtmlDeps.Imports

open Memory

variable {asked : Text → Prop} {m : Memory} {ts : List Thread} {t t' : Thread} {n : Nat} {d : Node}

/-- A tidy crawl leads to a tidy crawl; the top stays active, and faults are not forgotten. -/
structure Leads (asked : Text → Prop) (m : Memory) (ts : List Thread) (m' : Memory)
    (ts' : List Thread) : Prop where
  tidy : Tidy asked m' ts'
  active : m.Active (places ts) 0 → m'.Active (places ts') 0
  broken : m.Broken ts → m'.Broken ts'

theorem places_append (ts ts' : List Thread) : places (ts ++ ts') = places ts ++ places ts' :=
  List.map_append

theorem Tidy.not_mem (h : Tidy asked m (t :: ts)) : t.place ∉ places ts :=
  (List.nodup_cons.1 h.apart).1

theorem mem_places_of_ne {p : Place} (h : p ∈ places (t :: ts)) (hp : p ≠ t.place) :
    p ∈ places ts := by
  rcases List.mem_cons.1 h with h | h
  · exact absurd h hp
  · exact h

/-! ### Threads that make way for others -/

/-- A thread makes way for others.  None of them works on a document that was at rest, and no slot is left
alone. -/
structure Relief (asked : Text → Prop) (m : Memory) (t : Thread) (ts new : List Thread) : Prop where
  apart : (places new).Nodup
  free : ∀ p ∈ places new, p = t.place ∨ p ∉ places (t :: ts)
  fits : ∀ x ∈ new, Fits asked m (places (new ++ ts)) x
  document : ∀ c, .document c ∈ places new → t.place = .document c
  slot : ∀ n i c, .slot n i ∈ places new → m.Child n i c →
    t.place = .slot n i ∨ ¬ m.Active (places (new ++ ts)) c
  empty : ∀ n i, t.place = .slot n i →
    .slot n i ∈ places new ∨ ∃ d, m.nodes[n]? = some d ∧ d.failed = true
  child : ∀ n i c, t.place = .document c → m.Child n i c →
    .document c ∈ places new ∨ .slot n i ∈ places new
  rise : ∀ c f d, t = .rise c (some f) → m.nodes[c]? = some d →
    d.line = [] ∨ ∃ n above f, d.line = n :: above ∧ .collect n d.slot (.error f) ∈ new
  collect : ∀ n i f, t = .collect n i (.error f) → ∃ d, m.nodes[n]? = some d ∧ d.failed = true

section

variable {new : List Thread} (h : Tidy asked m (t :: ts)) (hrelief : Relief asked m t ts new)

include hrelief

theorem Relief.documents (c : Nat) (hc : .document c ∈ places (new ++ ts)) :
    .document c ∈ places (t :: ts) := by
  rw [places_append, List.mem_append] at hc
  rcases hc with hc | hc
  · exact List.mem_cons.2 (.inl (hrelief.document c hc).symm)
  · exact List.mem_cons_of_mem _ hc

include h

theorem Relief.apart_all : (places (new ++ ts)).Nodup := by
  rw [places_append, List.nodup_append]
  refine ⟨hrelief.apart, (List.nodup_cons.1 h.apart).2, fun p hp q hq hpq => ?_⟩
  subst hpq
  rcases hrelief.free p hp with rfl | hfree
  · exact h.not_mem hq
  · exact hfree (List.mem_cons_of_mem _ hq)

theorem Relief.pending_all {n i c : Nat} (hc : m.Child n i c) (hactive : m.Active (places (new ++ ts)) c) :
    (∀ r found, ¬ m.Slot n i r (some found)) ∧ .slot n i ∉ places (new ++ ts) := by
  obtain ⟨hs, hplace⟩ := h.pending n i c hc (hactive.congr hrelief.documents)
  refine ⟨hs, fun hmem => ?_⟩
  rw [places_append, List.mem_append] at hmem
  rcases hmem with hmem | hmem
  · rcases hrelief.slot n i c hmem hc with ht | hrest
    · exact hplace (List.mem_cons.2 (.inl ht.symm))
    · exact hrest hactive
  · exact hplace (List.mem_cons_of_mem _ hmem)

theorem Relief.empty_all {n i : Nat} {d : Node} {r : Reference} (hd : m.nodes[n]? = some d)
    (hs : d.slots[i]? = some (r, none)) (hopen : d.failed = false) :
    .slot n i ∈ places (new ++ ts) ∨ ∃ c, m.Child n i c ∧ m.Active (places (new ++ ts)) c := by
  rw [places_append, List.mem_append]
  rcases h.empty n i d r hd hs hopen with hmem | ⟨c, hc, hactive⟩
  · rcases List.mem_cons.1 hmem with ht | hmem
    · rcases hrelief.empty n i ht.symm with hnew | ⟨e, he, hfailed⟩
      · exact .inl (.inl hnew)
      · obtain rfl : d = e := Option.some.inj (hd.symm.trans he)
        rw [hopen] at hfailed
        cases hfailed
    · exact .inl (.inr hmem)
  · rcases hactive with hmem | hnode
    · rcases List.mem_cons.1 hmem with ht | hmem
      · rcases hrelief.child n i c ht.symm hc with hnew | hnew
        · exact .inr ⟨c, hc, .inl (List.mem_append.2 (.inl hnew))⟩
        · exact .inl (.inl hnew)
      · exact .inr ⟨c, hc, .inl (List.mem_append.2 (.inr hmem))⟩
    · exact .inr ⟨c, hc, .inr hnode⟩

theorem Relief.failed_all {c : Nat} {d : Node} (hd : m.nodes[c]? = some d) (hfailed : d.failed = true) :
    (∃ f, .rise c (some f) ∈ new ++ ts) ∨ d.line = [] ∨ ∃ n above, d.line = n :: above ∧
      ((∃ e, m.nodes[n]? = some e ∧ e.failed = true) ∨ ∃ f, .collect n d.slot (.error f) ∈ new ++ ts) := by
  rcases h.failed c d hd hfailed with ⟨f, hf⟩ | htop | ⟨n, above, hline, hn | ⟨f, hf⟩⟩
  · rcases List.mem_cons.1 hf with ht | hf
    · rcases hrelief.rise c f d ht.symm hd with htop | ⟨n, above, f, hline, hnew⟩
      · exact .inr (.inl htop)
      · exact .inr (.inr ⟨n, above, hline, .inr ⟨f, List.mem_append_left _ hnew⟩⟩)
    · exact .inl ⟨f, List.mem_append_right _ hf⟩
  · exact .inr (.inl htop)
  · exact .inr (.inr ⟨n, above, hline, .inl hn⟩)
  · rcases List.mem_cons.1 hf with ht | hf
    · exact .inr (.inr ⟨n, above, hline, .inl (hrelief.collect n d.slot f ht.symm)⟩)
    · exact .inr (.inr ⟨n, above, hline, .inr ⟨f, List.mem_append_right _ hf⟩⟩)

end

/-- The documents stay as they are, and a thread makes way for others. -/
theorem Tidy.replace {new : List Thread} (h : Tidy asked m (t :: ts)) (hrelief : Relief asked m t ts new) :
    Tidy asked m (new ++ ts) where
  visited := h.visited
  apart := hrelief.apart_all h
  fits x hx := by
    rcases List.mem_append.1 hx with hx | hx
    · exact hrelief.fits x hx
    · exact (h.fits x (List.mem_cons_of_mem t hx)).congr hrelief.documents
  top := h.top
  below := h.below
  single := h.single
  pending n i c := hrelief.pending_all h
  filled n i r found hs := by
    obtain ⟨hknown, hrest, hwell⟩ := h.filled n i r found hs
    exact ⟨hknown, hrest, fun c hc => (hwell c hc).congr hrelief.documents⟩
  surveyed := h.surveyed
  empty n i d r := hrelief.empty_all h
  failed c d := hrelief.failed_all h

/-- A thread that makes way for one at its place. -/
theorem Tidy.swap (h : Tidy asked m (t :: ts)) (hplace : t'.place = t.place)
    (hfits : Fits asked m (places (t :: ts)) t') (hfaulty : ¬ t.Faulty ∨ t'.Faulty)
    (hrise : ∀ c f, t ≠ .rise c (some f)) (hcollect : ∀ n i f, t ≠ .collect n i (.error f)) :
    Leads asked m (t :: ts) m (t' :: ts) := by
  have hplaces : places (t' :: ts) = places (t :: ts) := by simp [places, hplace]
  have hnew : ∀ p, p ∈ places [t'] ↔ p = t.place := by simp [places, hplace]
  have hrelief : Relief asked m t ts [t'] := {
    apart := by simp [places]
    free := fun p hp => .inl ((hnew p).1 hp)
    fits := fun x hx => by
      rw [List.mem_singleton.1 hx]
      exact hplaces ▸ hfits
    document := fun c hc => ((hnew _).1 hc).symm
    slot := fun n i c hs _ => .inl ((hnew _).1 hs).symm
    empty := fun n i ht => .inl ((hnew _).2 ht.symm)
    child := fun n i c ht _ => .inl ((hnew _).2 ht.symm)
    rise := fun c f d ht => absurd ht (hrise c f)
    collect := fun n i f ht => absurd ht (hcollect n i f) }
  refine ⟨h.replace hrelief, fun hactive => ?_, fun hbroken => ?_⟩
  · rwa [hplaces]
  · rcases hbroken with hnode | ⟨x, hx, hfault⟩
    · exact .inl hnode
    · rcases List.mem_cons.1 hx with rfl | hx
      · rcases hfaulty with hfaulty | hfaulty
        · exact absurd hfault hfaulty
        · exact .inr ⟨t', List.mem_cons_self, hfaulty⟩
      · exact .inr ⟨x, List.mem_cons_of_mem _ hx, hfault⟩

/-- The thread with an empty text for an answer.  What a text holds matters only when it is
surveyed. -/
def Thread.emptied : Thread → Thread
  | .scanned n (.ok _) => .scanned n (.ok [])
  | .loaded n i (.ok _) => .loaded n i (.ok [])
  | t => t

/-- A thread goes on in the same way whatever the text, and brings a fault exactly if it meets one. -/
structure Steady (next : Except Fault Text → Thread) : Prop where
  text : ∀ text, (next (.ok text)).emptied = (next (.ok [])).emptied
  sound : ¬ (next (.ok [])).Faulty
  fault : ∀ f, (next (.error f)).Faulty

/-- Where the turn of the first of several threads leads. -/
def Lands (asked : Text → Prop) (m : Memory) (t : Thread) (rest : List Thread)
    (turn : Turn Memory Thread) : Prop :=
  match turn.move with
  | .ask url next =>
    Steady next ∧
      ∀ (asked' : Text → Prop) (answer : Except Fault Text), (∀ u, asked u → asked' u) →
        (answer.isOk → asked' url) → Leads asked' m (t :: rest) turn.memory (next answer :: rest)
  | .leave new => Leads asked m (t :: rest) turn.memory (new ++ rest)
  | .finish outcome => ∀ report, outcome = .ok report →
    Tidy asked turn.memory rest ∧ turn.memory.Well asked (places rest) 0 ∧
      (m.Broken (t :: rest) → turn.memory.Broken rest) ∧
      ∀ r ∈ report.references, Url.isExternal r.url = .ok true ∨ asked r.url

section

variable {outcome : Except Fault (List Reference)}

/-- The outcome that a thread brings when the work on a document is over. -/
structure Outcome (asked : Text → Prop) (m : Memory) (t : Thread) (d : Node)
    (outcome : Except Fault (List Reference)) : Prop where
  ended : d.failed = true ∨ d.complete = true
  ok : ∀ rs, outcome = .ok rs → asked d.url ∧ d.complete = true ∧ ∀ r ∈ rs, m.Known asked r
  fault : t.Faulty ∨ d.failed = true → ∃ f, outcome = .error f

theorem Outcome.well (h : Outcome asked m t d outcome) (hd : m.nodes[n]? = some d)
    {rs : List Reference} (hrs : outcome = .ok rs) {ps : List Place} (hps : .document n ∉ ps) :
    m.Well asked ps n := by
  obtain ⟨hasked, hcomplete, -⟩ := h.ok rs hrs
  refine ⟨hps, d, hd, hasked, ?_, hcomplete⟩
  by_contra hfailed
  rw [Bool.not_eq_false] at hfailed
  obtain ⟨f, hf⟩ := h.fault (.inr hfailed)
  rw [hrs] at hf
  cases hf

theorem Outcome.not_active (h : Outcome asked m t d outcome) (hd : m.nodes[n]? = some d)
    {ps : List Place} (hps : .document n ∉ ps) : ¬ m.Active ps n := by
  rintro (hmem | ⟨e, he, hopen, hincomplete⟩)
  · exact hps hmem
  · obtain rfl : d = e := Option.some.inj (hd.symm.trans he)
    rcases h.ended with hfailed | hcomplete
    · rw [hopen] at hfailed
      cases hfailed
    · rw [hincomplete] at hcomplete
      cases hcomplete

theorem not_collect (ht : t.place = .document n) {k i : Nat} {f : Fault} :
    t ≠ .collect k i (.error f) := by
  rintro rfl
  cases ht

theorem Tidy.deliver_top (h : Tidy asked m (t :: ts)) (ht : t.place = .document n)
    (hd : m.nodes[n]? = some d) (hline : d.line = []) (hout : Outcome asked m t d outcome) :
    Lands asked m t ts (m.moves (m.deliver d outcome)) := by
  have hplace : .document n ∉ places ts := ht ▸ h.not_mem
  obtain rfl := h.eq_zero hd hline  -- Only the entry has nothing above it.
  have hmove : m.deliver d outcome =
      .finish (outcome.map fun rs => ⟨m.warnings, firsts [] rs⟩) := by rw [Memory.deliver, hline]
  rw [Lands, Memory.moves, hmove]
  intro report hreport
  cases houtcome : outcome with
  | error f =>
    rw [houtcome] at hreport
    cases hreport
  | ok rs =>
    -- With references in hand, the thread had no fault, and the crawl goes on being tidy without it.
    have hsound : ¬ t.Faulty := by
      intro hfaulty
      obtain ⟨f, hf⟩ := hout.fault (.inl hfaulty)
      rw [houtcome] at hf
      cases hf
    have htidy : Tidy asked m ts := by
      have hrelief : Relief asked m t ts [] := {
        apart := List.nodup_nil
        free := nofun
        fits := nofun
        document := nofun
        slot := nofun
        empty := fun k i hk => by cases ht.symm.trans hk
        child := fun k i c hc hchild => by
          obtain rfl := Place.document.inj (ht.symm.trans hc)
          obtain ⟨e, he, hhead, -⟩ := hchild
          obtain rfl : d = e := Option.some.inj (hd.symm.trans he)
          rw [hline] at hhead
          cases hhead
        rise := fun c f e hrise _ => absurd (hrise ▸ trivial) hsound
        collect := fun k i f hk => absurd hk (not_collect ht) }
      exact h.replace hrelief
    have htop := hout.well hd houtcome hplace
    refine ⟨htidy, htop, fun hbroken => ?_, fun r hr => ?_⟩
    · rcases hbroken with hnode | ⟨x, hx, hfaulty⟩
      · exact .inl hnode
      · rcases List.mem_cons.1 hx with rfl | hx
        · exact absurd hfaulty hsound
        · exact .inr ⟨x, hx, hfaulty⟩
    · rw [houtcome] at hreport
      obtain rfl := Except.ok.inj hreport
      exact htidy.asked_of_known htop ((hout.ok rs houtcome).2.2 r (mem_of_mem_firsts hr))

/-- A document below another one stands in an empty slot there as long as it is not delivered. -/
theorem Tidy.exists_parent (h : Tidy asked m (t :: ts)) (ht : t.place = .document n)
    (hd : m.nodes[n]? = some d) {p : Nat} {above : List Nat} (hline : d.line = p :: above) :
    ∃ r, p < n ∧ m.Slot p d.slot r none ∧ r.url = d.url ∧ .slot p d.slot ∉ places (t :: ts) := by
  obtain ⟨r, found, hlt, hslot, hurl⟩ :
      ∃ r found, p < n ∧ m.Slot p d.slot r found ∧ r.url = d.url := by
    rcases h.below n d hd with ⟨htop, -⟩ | ⟨p', above', r, found, hline', hrest⟩
    · rw [hline] at htop
      cases htop
    · obtain ⟨rfl, -⟩ := List.cons.inj (hline.symm.trans hline')
      exact ⟨r, found, hrest⟩
  have hchild : m.Child p d.slot n := ⟨d, hd, by rw [hline]; rfl, rfl⟩
  have hactive : m.Active (places (t :: ts)) n := .inl (List.mem_cons.2 (.inl ht.symm))
  obtain ⟨hempty, hfree⟩ := h.pending p d.slot n hchild hactive
  cases found with
  | none => exact ⟨r, hlt, hslot, hurl, hfree⟩
  | some found => exact absurd hslot (hempty r found)

/-- A thread at a document on which the work is over makes way for one at the slot above. -/
theorem Outcome.relief (hout : Outcome asked m t d outcome) (h : Tidy asked m (t :: ts))
    (ht : t.place = .document n) (hd : m.nodes[n]? = some d) {p : Nat} {above : List Nat}
    (hline : d.line = p :: above) : Relief asked m t ts [.collect p d.slot outcome] := by
  obtain ⟨r, -, hslot, hurl, hfree⟩ := h.exists_parent ht hd hline
  have hchild : m.Child p d.slot n := ⟨d, hd, by rw [hline]; rfl, rfl⟩
  have hplace : .document n ∉ places ([.collect p d.slot outcome] ++ ts) := by
    intro hmem
    rcases List.mem_cons.1 hmem with hmem | hmem
    · cases hmem
    · exact h.not_mem (ht ▸ hmem)
  exact {
    apart := by simp [places]
    free := fun q hq => by
      rw [List.mem_singleton.1 hq]
      exact .inr hfree
    -- The slot above belongs to the reference by which the document was entered, so what comes back
    -- is known to be that of its URL.
    fits := fun x hx => by
      rw [List.mem_singleton.1 hx]
      refine ⟨r, hslot, fun rs hrs => ⟨.inr (.inr ?_), (hout.ok rs hrs).2.2, fun c hc => ?_⟩⟩
      · rw [h.visited, hurl]
        exact List.mem_map_of_mem (List.mem_of_getElem? hd)
      · rw [h.single _ _ _ _ hc hchild]
        exact hout.well hd hrs hplace
    document := fun c hc => by cases List.mem_singleton.1 hc
    slot := fun k i c hmem hc => by
      obtain ⟨rfl, rfl⟩ := Place.slot.inj (List.mem_singleton.1 hmem)
      rw [h.single _ _ _ _ hc hchild]
      exact .inr (hout.not_active hd hplace)
    empty := fun k i hk => by cases ht.symm.trans hk
    child := fun k i c hc hchild' => by
      obtain rfl := Place.document.inj (ht.symm.trans hc)
      obtain ⟨e, he, hhead, rfl⟩ := hchild'
      obtain rfl : d = e := Option.some.inj (hd.symm.trans he)
      rw [hline] at hhead
      obtain rfl := Option.some.inj hhead
      exact .inr List.mem_cons_self
    rise := fun c f e hrise he => by
      subst hrise
      obtain rfl := Place.document.inj ht
      obtain rfl : d = e := Option.some.inj (hd.symm.trans he)
      obtain ⟨f', rfl⟩ := hout.fault (.inl trivial)
      exact .inr ⟨p, above, f', hline, List.mem_cons_self⟩
    collect := fun k i f hk => absurd hk (not_collect ht) }

theorem Tidy.deliver_below (h : Tidy asked m (t :: ts)) (ht : t.place = .document n)
    (hd : m.nodes[n]? = some d) {p : Nat} {above : List Nat} (hline : d.line = p :: above)
    (hout : Outcome asked m t d outcome) :
    Lands asked m t ts (m.moves (m.deliver d outcome)) := by
  obtain ⟨-, hlt, -⟩ := h.exists_parent ht hd hline
  have hmove : m.deliver d outcome = .leave [.collect p d.slot outcome] := by
    rw [Memory.deliver, hline]
  rw [Lands, Memory.moves, hmove]
  refine ⟨h.replace (hout.relief h ht hd hline), fun htop => ?_, fun hbroken => ?_⟩
  · rcases htop with hmem | hnode
    · rcases List.mem_cons.1 hmem with htop | hmem
      · obtain rfl := Place.document.inj (htop.trans ht)
        omega
      · exact .inl (List.mem_cons_of_mem _ hmem)
    · exact .inr hnode
  · rcases hbroken with hnode | ⟨x, hx, hfaulty⟩
    · exact .inl hnode
    · rcases List.mem_cons.1 hx with rfl | hx
      · obtain ⟨f, rfl⟩ := hout.fault (.inl hfaulty)
        exact .inr ⟨_, List.mem_cons_self, trivial⟩
      · exact .inr ⟨x, List.mem_cons_of_mem _ hx, hfaulty⟩

/-- A thread delivers a document on which the work is over. -/
theorem Tidy.deliver (h : Tidy asked m (t :: ts)) (ht : t.place = .document n)
    (hd : m.nodes[n]? = some d) (hout : Outcome asked m t d outcome) :
    Lands asked m t ts (m.moves (m.deliver d outcome)) := by
  cases hline : d.line with
  | nil => exact h.deliver_top ht hd hline hout
  | cons p above => exact h.deliver_below ht hd hline hout

end

end HtmlDeps.Imports
