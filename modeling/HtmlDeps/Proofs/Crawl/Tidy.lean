import Mathlib.Data.List.Basic
import HtmlDeps.Crawl.Imports

/-!
# The order in a crawl

A crawl along imports is a tree of documents and a number of threads, each at a place of its own: at
a document, or at a slot of one (`Thread.place`).  `Tidy` says how the two belong together.  A document
is active as long as it has not been delivered to the document above it.  Its slot there stays empty
until then, and an empty slot of a document that has not failed has somebody at work on it.

Three things follow.  When the top document is done, so are all (`Tidy.well`).  A document that has
failed lets the top fail, once nobody is at work on the way there (`Tidy.top_failed`).  As long as
the top is active, some thread is under way (`Tidy.exists_thread`).
-/

namespace HtmlDeps.Imports

/-- Where a thread works. -/
inductive Place where
  | document (node : Nat)
  | slot (node slot : Nat)
deriving DecidableEq

/-- The place of a thread. -/
def Thread.place : Thread → Place
  | .scan n | .scanned n _ | .rise n _ => .document n
  | .follow n i | .loaded n i _ | .collect n i _ => .slot n i

/-- The places of threads. -/
def places (ts : List Thread) : List Place := ts.map Thread.place

/-- A thread that brings a fault. -/
def Thread.Faulty : Thread → Prop
  | .scanned _ (.error _) | .loaded _ _ (.error _) | .collect _ _ (.error _) | .rise _ (some _) => True
  | _ => False

namespace Memory

/-- Slot `i` of node `n` holds a reference, and what was found behind it. -/
def Slot (m : Memory) (n i : Nat) (r : Reference) (found : Option (List Reference)) : Prop :=
  ∃ d, m.nodes[n]? = some d ∧ d.slots[i]? = some (r, found)

/-- Node `c` is the document in slot `i` of node `n`. -/
def Child (m : Memory) (n i c : Nat) : Prop :=
  ∃ d, m.nodes[c]? = some d ∧ d.line.head? = some n ∧ d.slot = i

/-- The work on a document is not over. -/
def Active (m : Memory) (ps : List Place) (n : Nat) : Prop :=
  .document n ∈ ps ∨ ∃ d, m.nodes[n]? = some d ∧ d.failed = false ∧ d.complete = false

/-- The work on a document is over, and all that it needs was asked for. -/
def Well (asked : Text → Prop) (m : Memory) (ps : List Place) (n : Nat) : Prop :=
  .document n ∉ ps ∧ ∃ d, m.nodes[n]? = some d ∧ asked d.url ∧ d.failed = false ∧ d.complete = true

/-- A reference need not be asked for, or was, or belongs to a document of the crawl. -/
def Known (asked : Text → Prop) (m : Memory) (r : Reference) : Prop :=
  Url.isExternal r.url = .ok true ∨ asked r.url ∨ r.url ∈ m.visited

/-- A fault has come up. -/
def Broken (m : Memory) (ts : List Thread) : Prop :=
  (∃ (n : Nat) (d : Node), m.nodes[n]? = some d ∧ d.failed = true) ∨ ∃ t ∈ ts, t.Faulty

end Memory

open Memory

variable {asked asked' : Text → Prop} {m : Memory} {ps : List Place} {ts ts' : List Thread}
  {t : Thread} {n i : Nat} {d : Node}

/-- A thread finds the memory as it expects it. -/
def Fits (asked : Text → Prop) (m : Memory) (ps : List Place) : Thread → Prop
  | .scan n => ∃ d, m.nodes[n]? = some d ∧ d.slots = [] ∧ d.failed = false
  | .scanned n answer =>
    ∃ d, m.nodes[n]? = some d ∧ d.slots = [] ∧ d.failed = false ∧ (answer.isOk → asked d.url)
  | .follow n i => (∃ r, m.Slot n i r none) ∧ ∀ c, ¬ m.Child n i c
  | .loaded n i answer =>
    (∃ r, m.Slot n i r none ∧ (answer.isOk → m.Known asked r)) ∧ ∀ c, ¬ m.Child n i c
  | .collect n i outcome =>
    ∃ r, m.Slot n i r none ∧ ∀ rs, outcome = .ok rs → m.Known asked r ∧
      (∀ x ∈ rs, m.Known asked x) ∧ ∀ c, m.Child n i c → m.Well asked ps c
  | .rise n none => ∃ d, m.nodes[n]? = some d ∧ d.failed = false ∧ d.complete = true ∧ asked d.url
  | .rise n (some _) => ∃ d, m.nodes[n]? = some d ∧ d.failed = true

/-- The order in a crawl: `asked` says which URLs were asked for. -/
structure Tidy (asked : Text → Prop) (m : Memory) (ts : List Thread) : Prop where
  visited : m.visited = m.nodes.map (·.url)
  apart : (places ts).Nodup
  fits : ∀ t ∈ ts, Fits asked m (places ts) t
  top : ∃ d, m.nodes[0]? = some d ∧ d.line = []
  below : ∀ (c : Nat) (d : Node), m.nodes[c]? = some d → d.line = [] ∧ c = 0 ∨
    ∃ n above r found, d.line = n :: above ∧ n < c ∧ m.Slot n d.slot r found ∧ r.url = d.url
  single : ∀ n i c c', m.Child n i c → m.Child n i c' → c = c'
  pending : ∀ n i c, m.Child n i c → m.Active (places ts) c →
    (∀ r found, ¬ m.Slot n i r (some found)) ∧ .slot n i ∉ places ts
  filled : ∀ n i r found, m.Slot n i r (some found) → m.Known asked r ∧
    (∀ x ∈ found, m.Known asked x) ∧ ∀ c, m.Child n i c → m.Well asked (places ts) c
  surveyed : ∀ (n : Nat) (d : Node), m.nodes[n]? = some d → d.slots ≠ [] → asked d.url
  empty : ∀ (n i : Nat) (d : Node) (r : Reference), m.nodes[n]? = some d → d.slots[i]? = some (r, none) → d.failed = false →
    .slot n i ∈ places ts ∨ ∃ c, m.Child n i c ∧ m.Active (places ts) c
  failed : ∀ (c : Nat) (d : Node), m.nodes[c]? = some d → d.failed = true → (∃ f, .rise c (some f) ∈ ts) ∨
    d.line = [] ∨ ∃ n above, d.line = n :: above ∧
      ((∃ e, m.nodes[n]? = some e ∧ e.failed = true) ∨ ∃ f, .collect n d.slot (.error f) ∈ ts)

/-! ### Laws of the notions -/

theorem Memory.Known.mono (hasked : ∀ u, asked u → asked' u) {r : Reference}
    (h : m.Known asked r) : m.Known asked' r := h.imp_right (Or.imp_left (hasked r.url))

theorem Memory.Well.mono (hasked : ∀ u, asked u → asked' u) (h : m.Well asked ps n) :
    m.Well asked' ps n := by
  obtain ⟨hplace, d, hd, hurl, hfailed, hcomplete⟩ := h
  exact ⟨hplace, d, hd, hasked _ hurl, hfailed, hcomplete⟩

theorem Fits.mono (hasked : ∀ u, asked u → asked' u) (h : Fits asked m ps t) :
    Fits asked' m ps t := by
  cases t with
  | scan n => exact h
  | scanned n answer =>
    obtain ⟨d, hd, hslots, hfailed, hurl⟩ := h
    exact ⟨d, hd, hslots, hfailed, fun hok => hasked _ (hurl hok)⟩
  | follow n i => exact h
  | loaded n i answer =>
    obtain ⟨⟨r, hr, hknown⟩, hchild⟩ := h
    exact ⟨⟨r, hr, fun hok => (hknown hok).mono hasked⟩, hchild⟩
  | collect n i outcome =>
    obtain ⟨r, hr, hok⟩ := h
    refine ⟨r, hr, fun rs hrs => ?_⟩
    obtain ⟨hknown, hrest, hwell⟩ := hok rs hrs
    exact ⟨hknown.mono hasked, fun x hx => (hrest x hx).mono hasked,
      fun c hc => (hwell c hc).mono hasked⟩
  | rise n fault =>
    cases fault with
    | none =>
      obtain ⟨d, hd, hfailed, hcomplete, hurl⟩ := h
      exact ⟨d, hd, hfailed, hcomplete, hasked _ hurl⟩
    | some f => exact h

/-- More may have been asked for. -/
theorem Tidy.mono (hasked : ∀ u, asked u → asked' u) (h : Tidy asked m ts) : Tidy asked' m ts where
  visited := h.visited
  apart := h.apart
  fits t ht := (h.fits t ht).mono hasked
  top := h.top
  below := h.below
  single := h.single
  pending := h.pending
  filled n i r found hslot := by
    obtain ⟨hknown, hrest, hwell⟩ := h.filled n i r found hslot
    exact ⟨hknown.mono hasked, fun x hx => (hrest x hx).mono hasked,
      fun c hc => (hwell c hc).mono hasked⟩
  surveyed n d hd hslots := hasked _ (h.surveyed n d hd hslots)
  empty := h.empty
  failed := h.failed

theorem Memory.Well.not_active (h : m.Well asked ps n) : ¬ m.Active ps n := by
  obtain ⟨hplace, d, hd, -, -, hcomplete⟩ := h
  rintro (hmem | ⟨e, he, -, hopen⟩)
  · exact hplace hmem
  · obtain rfl : d = e := Option.some.inj (hd.symm.trans he)
    rw [hcomplete] at hopen
    cases hopen

/-- Only the threads that work on documents matter. -/
theorem Memory.Well.congr {ps' : List Place} (hps : ∀ c, .document c ∈ ps' → .document c ∈ ps)
    (h : m.Well asked ps n) : m.Well asked ps' n := ⟨fun hmem => h.1 (hps _ hmem), h.2⟩

theorem Memory.Active.congr {ps' : List Place} (hps : ∀ c, .document c ∈ ps → .document c ∈ ps')
    (h : m.Active ps n) : m.Active ps' n := h.imp_left (hps _)

theorem Fits.congr {ps' : List Place} (hps : ∀ c, .document c ∈ ps' → .document c ∈ ps)
    (h : Fits asked m ps t) : Fits asked m ps' t := by
  cases t with
  | collect n i outcome =>
    obtain ⟨r, hr, hok⟩ := h
    refine ⟨r, hr, fun rs hrs => ?_⟩
    obtain ⟨hknown, hrest, hwell⟩ := hok rs hrs
    exact ⟨hknown, hrest, fun c hc => (hwell c hc).congr hps⟩
  | rise n fault => cases fault <;> exact h
  | scan | scanned | follow | loaded => exact h

theorem Tidy.perm (h : Tidy asked m ts) (hperm : ts.Perm ts') : Tidy asked m ts' := by
  have hmem : ∀ p, p ∈ places ts' ↔ p ∈ places ts := fun p =>
    (hperm.map Thread.place).mem_iff.symm
  exact {
    visited := h.visited
    apart := (hperm.map Thread.place).nodup_iff.1 h.apart
    fits := fun t ht => (h.fits t (hperm.mem_iff.2 ht)).congr fun _ => (hmem _).1
    top := h.top
    below := h.below
    single := h.single
    pending := fun n i c hc hactive => by
      obtain ⟨hslot, hplace⟩ := h.pending n i c hc (hactive.congr fun _ => (hmem _).1)
      exact ⟨hslot, fun hp => hplace ((hmem _).1 hp)⟩
    filled := fun n i r found hslot => by
      obtain ⟨hknown, hrest, hwell⟩ := h.filled n i r found hslot
      exact ⟨hknown, hrest, fun c hc => (hwell c hc).congr fun _ => (hmem _).1⟩
    surveyed := h.surveyed
    empty := fun n i d r hd hslot hfailed => by
      rcases h.empty n i d r hd hslot hfailed with hp | ⟨c, hc, hactive⟩
      · exact .inl ((hmem _).2 hp)
      · exact .inr ⟨c, hc, hactive.congr fun _ => (hmem _).2⟩
    failed := fun c d hd hfailed => by
      rcases h.failed c d hd hfailed with ⟨f, hf⟩ | htop | ⟨n, above, hline, hn | ⟨f, hf⟩⟩
      · exact .inl ⟨f, hperm.mem_iff.1 hf⟩
      · exact .inr (.inl htop)
      · exact .inr (.inr ⟨n, above, hline, .inl hn⟩)
      · exact .inr (.inr ⟨n, above, hline, .inr ⟨f, hperm.mem_iff.1 hf⟩⟩) }

/-- What was surveyed so far does not depend on the warnings. -/
theorem Tidy.withWarnings (h : Tidy asked m ts) (ws : List Warning) :
    Tidy asked { m with warnings := ws } ts := by
  have hfits : ∀ t ∈ ts, Fits asked { m with warnings := ws } (places ts) t := by
    intro t ht
    have hfit := h.fits t ht
    cases t with
    | rise n fault => cases fault <;> exact hfit
    | _ => exact hfit
  exact ⟨h.visited, h.apart, hfits, h.top, h.below, h.single, h.pending, h.filled, h.surveyed,
    h.empty, h.failed⟩

theorem Memory.Broken.perm (h : m.Broken ts) (hperm : ts.Perm ts') : m.Broken ts' :=
  h.imp_right fun ⟨t, ht, hfaulty⟩ => ⟨t, hperm.mem_iff.1 ht, hfaulty⟩

/-- How a crawl begins. -/
theorem tidy_start (asked : Text → Prop) (url : Text) :
    Tidy asked ⟨[⟨url, [], 0, [], false⟩], [url], []⟩ [.scan 0] := by
  -- There is one document, without slots and with nothing above it.
  have hnode : ∀ {n : Nat} {d : Node}, ([⟨url, [], 0, [], false⟩] : List Node)[n]? = some d →
      n = 0 ∧ d = ⟨url, [], 0, [], false⟩ := by
    intro n d hd
    cases n with
    | zero => exact ⟨rfl, (Option.some.inj hd).symm⟩
    | succ n => simp at hd
  have hslot : ∀ n i r found, ¬ Memory.Slot ⟨[⟨url, [], 0, [], false⟩], [url], []⟩ n i r found := by
    rintro n i r found ⟨d, hd, hs⟩
    rw [(hnode hd).2] at hs
    simp at hs
  have hchild : ∀ n i c, ¬ Memory.Child ⟨[⟨url, [], 0, [], false⟩], [url], []⟩ n i c := by
    rintro n i c ⟨d, hd, hline, -⟩
    rw [(hnode hd).2] at hline
    cases hline
  exact {
    visited := rfl
    apart := by simp [places]
    fits := fun t ht => by
      rw [List.mem_singleton] at ht
      subst ht
      exact ⟨⟨url, [], 0, [], false⟩, rfl, rfl, rfl⟩
    top := ⟨_, rfl, rfl⟩
    below := fun c d hd => .inl ⟨by rw [(hnode hd).2], (hnode hd).1⟩
    single := fun n i c c' hc => absurd hc (hchild n i c)
    pending := fun n i c hc => absurd hc (hchild n i c)
    filled := fun n i r found hs => absurd hs (hslot n i r _)
    surveyed := fun n d hd hslots => absurd (by rw [(hnode hd).2]) hslots
    empty := fun n i d r hd hs => absurd ⟨d, hd, hs⟩ (hslot n i r none)
    failed := fun c d hd hfailed => by
      rw [(hnode hd).2] at hfailed
      cases hfailed }

theorem active_start (url : Text) :
    Memory.Active ⟨[⟨url, [], 0, [], false⟩], [url], []⟩ (places [.scan 0]) 0 :=
  .inl List.mem_cons_self

/-! ### What the order amounts to -/

/-- The slot of a complete document is filled. -/
theorem exists_found {r : Reference} {found : Option (List Reference)} (hd : d.complete = true)
    (hslot : d.slots[i]? = some (r, found)) : ∃ rs, found = some rs := by
  have hsome := List.all_eq_true.1 hd _ (List.mem_of_getElem? hslot)
  exact Option.isSome_iff_exists.1 hsome

/-- When the top document is done, so are all. -/
theorem Tidy.well (h : Tidy asked m ts) (htop : m.Well asked (places ts) 0) (c : Nat)
    (hd : m.nodes[c]? = some d) : m.Well asked (places ts) c := by
  induction c using Nat.strongRecOn generalizing d with
  | _ c ih =>
    rcases h.below c d hd with ⟨-, rfl⟩ | ⟨n, above, r, found, hline, hlt, ⟨e, he, hslot⟩, -⟩
    · exact htop
    · obtain ⟨-, e', he', -, -, hcomplete⟩ := ih n hlt he
      obtain rfl : e = e' := Option.some.inj (he.symm.trans he')
      obtain ⟨rs, rfl⟩ := exists_found hcomplete hslot
      refine (h.filled n d.slot r rs ⟨e, he, hslot⟩).2.2 c ⟨d, hd, ?_, rfl⟩
      rw [hline]
      rfl

/-- Only the top document is below no other. -/
theorem Tidy.eq_zero (h : Tidy asked m ts) (hd : m.nodes[n]? = some d) (hline : d.line = []) : n = 0 := by
  rcases h.below n d hd with ⟨-, hn⟩ | ⟨k, above, r, found, hline', -⟩
  · exact hn
  · cases hline.symm.trans hline'

/-- A thread at a document finds it. -/
theorem Tidy.exists_node (h : Tidy asked m ts) (ht : t ∈ ts) (hplace : t.place = .document n) :
    ∃ d, m.nodes[n]? = some d := by
  have hfit := h.fits t ht
  cases t with
  | follow | loaded | collect => cases hplace
  | scan | scanned =>
    obtain rfl := Place.document.inj hplace
    exact hfit.imp fun d hd => hd.1
  | rise k fault =>
    obtain rfl := Place.document.inj hplace
    cases fault <;> exact hfit.imp fun d hd => hd.1

/-- A thread at a slot finds it empty. -/
theorem Tidy.exists_slot (h : Tidy asked m ts) (ht : t ∈ ts) (hplace : t.place = .slot n i) :
    ∃ r, m.Slot n i r none := by
  have hfit := h.fits t ht
  cases t with
  | scan | scanned | rise => cases hplace
  | follow =>
    obtain ⟨rfl, rfl⟩ := Place.slot.inj hplace
    exact hfit.1
  | loaded =>
    obtain ⟨rfl, rfl⟩ := Place.slot.inj hplace
    exact hfit.1.imp fun r hr => hr.1
  | collect =>
    obtain ⟨rfl, rfl⟩ := Place.slot.inj hplace
    exact hfit.imp fun r hr => hr.1

/-- When the top document is done, no thread is left and no document has failed. -/
theorem Tidy.ended (h : Tidy asked m ts) (htop : m.Well asked (places ts) 0) :
    ts = [] ∧ ¬ m.Broken ts := by
  have hnone : ts = [] := by
    refine List.eq_nil_iff_forall_not_mem.2 fun t ht => ?_
    cases hplace : t.place with
    | document n =>
      obtain ⟨d, hd⟩ := h.exists_node ht hplace
      exact (h.well htop n hd).1 (hplace ▸ List.mem_map_of_mem ht)
    | slot n i =>
      obtain ⟨r, d, hd, hs⟩ := h.exists_slot ht hplace
      obtain ⟨-, d', hd', -, -, hcomplete⟩ := h.well htop n hd
      obtain rfl : d = d' := Option.some.inj (hd.symm.trans hd')
      obtain ⟨rs, hrs⟩ := exists_found hcomplete hs
      cases hrs
  refine ⟨hnone, ?_⟩
  rintro (⟨n, d, hd, hfailed⟩ | ⟨t, ht, -⟩)
  · obtain ⟨-, d', hd', -, hsound, -⟩ := h.well htop n hd
    obtain rfl : d = d' := Option.some.inj (hd.symm.trans hd')
    rw [hsound] at hfailed
    cases hfailed
  · rw [hnone] at ht
    cases ht

/-- What is known was asked for when the top document is done. -/
theorem Tidy.asked_of_known (h : Tidy asked m ts) (htop : m.Well asked (places ts) 0)
    {r : Reference} (hr : m.Known asked r) : Url.isExternal r.url = .ok true ∨ asked r.url := by
  refine hr.imp_right fun hr => ?_
  rcases hr with hr | hr
  · exact hr
  · rw [h.visited, List.mem_map] at hr
    obtain ⟨d, hd, hurl⟩ := hr
    obtain ⟨c, hc⟩ := List.getElem?_of_mem hd
    obtain ⟨-, e, he, hasked, -⟩ := h.well htop c hc
    obtain rfl : d = e := Option.some.inj (hc.symm.trans he)
    exact hurl ▸ hasked

/-- The fault of a document reaches the top, unless it is still on its way. -/
theorem Tidy.top_failed (h : Tidy asked m ts) (hnone : ∀ t ∈ ts, ¬ t.Faulty) {c : Nat}
    (hd : m.nodes[c]? = some d) (hfailed : d.failed = true) :
    ∃ e, m.nodes[0]? = some e ∧ e.failed = true := by
  induction c using Nat.strongRecOn generalizing d with
  | _ c ih =>
    rcases h.failed c d hd hfailed with ⟨f, hf⟩ | htop | ⟨n, above, hline, ⟨e, he, hn⟩ | ⟨f, hf⟩⟩
    · exact absurd trivial (hnone _ hf)
    · obtain rfl := h.eq_zero hd htop
      exact ⟨d, hd, hfailed⟩
    · rcases h.below c d hd with ⟨htop, -⟩ | ⟨n', above', r, found, hline', hlt, -⟩
      · rw [htop] at hline
        cases hline
      · obtain ⟨rfl, -⟩ := List.cons.inj (hline.symm.trans hline')
        exact ih n hlt he hn
    · exact absurd trivial (hnone _ hf)

/-- As long as a document is active, a thread is under way. -/
theorem Tidy.exists_thread (h : Tidy asked m ts) (hactive : m.Active (places ts) n) :
    ∃ t, t ∈ ts := by
  -- an active document without a thread has an active document below it, with a greater number
  have key : ∀ k n, m.nodes.length - n = k → m.Active (places ts) n → ∃ t, t ∈ ts := by
    intro k
    induction k using Nat.strongRecOn with
    | _ k ih =>
      rintro n rfl (hplace | ⟨d, hd, hfailed, hcomplete⟩)
      · obtain ⟨t, ht, -⟩ := List.mem_map.1 hplace
        exact ⟨t, ht⟩
      · obtain ⟨⟨r, found⟩, hmem, hnone⟩ := List.all_eq_false.1 hcomplete
        obtain ⟨i, hi⟩ := List.getElem?_of_mem hmem
        obtain rfl : found = none := by simpa using hnone
        rcases h.empty n i d r hd hi hfailed with hplace | ⟨c, hc, hactive⟩
        · obtain ⟨t, ht, -⟩ := List.mem_map.1 hplace
          exact ⟨t, ht⟩
        · obtain ⟨e, he, hline, -⟩ := hc
          have hlength : c < m.nodes.length := (List.getElem?_eq_some_iff.1 he).1
          rcases h.below c e he with ⟨htop, -⟩ | ⟨n', above, r', found, hline', hlt, -⟩
          · rw [htop] at hline
            cases hline
          · rw [hline'] at hline
            obtain rfl := Option.some.inj hline
            exact ih _ (by omega) c rfl hactive
  exact key _ n rfl hactive

end HtmlDeps.Imports
