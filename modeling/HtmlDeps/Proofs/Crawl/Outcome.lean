import HtmlDeps.Proofs.Crawl.Ending

/-!
# What a crawl of readable documents reports

If all that is asked for is answered with a text, and each document can be surveyed, then no fault comes up.
What was found behind a reference is then what the document in its slot lists, and nothing where there is no
document (`Memory.Holds`), and at its end the crawl reports what the top document lists (`Crawl.Smooth`).
-/

namespace HtmlDeps.Imports

open Memory

variable {load : Text → Except Fault Text} {url : Text} {m m' : Memory} {t : Thread}
  {ts rest new : List Thread} {n i : Nat} {d e : Node} {rs : List Reference}

/-- All texts are there, and none of the documents and URLs has a fault. -/
structure Readable (load : Text → Except Fault Text) (url : Text) : Prop where
  texts : ∀ u, Wanted load url u → ∃ contents, load u = .ok contents
  surveyed : ∀ u contents, Reaches load url u → load u = .ok contents → (Survey.of u contents).2 = none
  urls : ∀ u, Reaches load url u → ∀ r ∈ references load u, ∃ external, Url.isExternal r.url = .ok external

namespace Memory

/-- Behind slot `i` of node `n` there is what the document in it lists, if there is one. -/
def Holds (m : Memory) (n i : Nat) (rs : List Reference) : Prop :=
  (∀ c, m.Child n i c → ∃ d, m.nodes[c]? = some d ∧ d.complete = true ∧ d.listed = rs) ∧
    ((∀ c, ¬ m.Child n i c) → rs = [])

/-- The slots hold what is behind them, and the threads bring it there. -/
structure Told (m : Memory) (ts : List Thread) : Prop where
  filled : ∀ n i r rs, m.Slot n i r (some rs) → m.Holds n i rs
  brought : ∀ n i rs, .collect n i (.ok rs) ∈ ts → m.Holds n i rs

/-- No document has failed, and no thread brings a fault. -/
structure Sound (m : Memory) (ts : List Thread) : Prop where
  nodes : ∀ (n : Nat) (d : Node), m.nodes[n]? = some d → d.failed = false
  threads : ∀ t ∈ ts, ¬ t.Faulty

end Memory

theorem Memory.Sound.nodes_put (h : m.Sound ts) (hd : m.nodes[n]? = some d) (he : e.failed = false)
    (k : Nat) (d' : Node) (hd' : (m.put n e).nodes[k]? = some d') : d'.failed = false := by
  by_cases hk : n = k
  · subst hk
    obtain rfl := Option.some.inj ((getElem?_put_self hd).symm.trans hd')
    exact he
  · exact h.nodes k d' ((getElem?_put_ne hk).symm.trans hd')

/-! ### What turns do to it -/

theorem holds_congr (h : m'.nodes = m.nodes) : m'.Holds n i rs ↔ m.Holds n i rs := by
  unfold Holds Child
  rw [h]

theorem holds_nil (h : ∀ c, ¬ m.Child n i c) : m.Holds n i [] := ⟨fun c hc => absurd hc (h c), fun _ => rfl⟩

/-- What stays when another document than the one in the slot is changed. -/
theorem Memory.Holds.put {k j : Nat} (h : m.Holds k j rs) (hd : m.nodes[n]? = some d)
    (hline : e.line = d.line) (hslot : e.slot = d.slot) (hother : ∀ c, m.Child k j c → n ≠ c) :
    (m.put n e).Holds k j rs := by
  refine ⟨fun c hc => ?_, fun hnone => h.2 fun c hc => hnone c ((child_put_iff hd hline hslot).2 hc)⟩
  have hc := (child_put_iff hd hline hslot).1 hc
  rw [getElem?_put_ne (hother c hc)]
  exact h.1 c hc

theorem Memory.Holds.grow {k j : Nat} {r : Reference} (h : m.Holds k j rs) (hfresh : Fresh n i d r e)
    (hother : k ≠ n ∨ j ≠ i) : (m.grow e).Holds k j rs := by
  have hchild : ∀ c, (m.grow e).Child k j c → m.Child k j c := fun c hc => by
    rcases hfresh.child_grow_iff.1 hc with hc | ⟨-, hk, hj⟩
    · exact hc
    · exact absurd (And.intro hk hj) (by tauto)
  refine ⟨fun c hc => ?_, fun hnone => h.2 fun c hc => hnone c (hfresh.child_grow_iff.2 (.inl hc))⟩
  obtain ⟨d', hd', hlisted⟩ := h.1 c (hchild c hc)
  exact ⟨d', getElem?_grow_iff.2 (.inl hd'), hlisted⟩

theorem Memory.Told.perm {ts' : List Thread} (h : m.Told ts) (hperm : ts.Perm ts') : m.Told ts' :=
  ⟨h.filled, fun n i rs hmem => h.brought n i rs (hperm.mem_iff.2 hmem)⟩

theorem Memory.Told.congr (h : m.Told ts) (hnodes : m'.nodes = m.nodes) : m'.Told ts := by
  refine ⟨fun n i r rs hs => (holds_congr hnodes).2 (h.filled n i r rs ?_),
    fun n i rs hmem => (holds_congr hnodes).2 (h.brought n i rs hmem)⟩
  obtain ⟨d, hd, hs⟩ := hs
  exact ⟨d, hnodes ▸ hd, hs⟩

/-- The documents stay as they are. -/
theorem Memory.Told.swap (h : m.Told (t :: rest)) (new : List Thread)
    (hnew : ∀ n i rs, .collect n i (.ok rs) ∈ new → m.Holds n i rs) : m.Told (new ++ rest) := by
  refine ⟨h.filled, fun n i rs hmem => ?_⟩
  rcases List.mem_append.1 hmem with hmem | hmem
  · exact hnew n i rs hmem
  · exact h.brought n i rs (List.mem_cons_of_mem _ hmem)

section

variable {asked : Text → Prop}

/-- A document is given its slots, all of them empty. -/
theorem Memory.Told.spread {contents : Text} (h : m.Told (.scanned n (.ok contents) :: rest))
    (refs : List Reference) (new : List Thread) (htidy : Tidy asked m (.scanned n (.ok contents) :: rest))
    (hd : m.nodes[n]? = some d) (hnew : ∀ n i rs, .collect n i (.ok rs) ∉ new) :
    (m.put n { d with slots := refs.map (·, none) }).Told (new ++ rest) := by
  -- the document is not among those that are listed already
  have hother : ∀ {k j c}, m.Well asked (places (.scanned n (.ok contents) :: rest)) c →
      m.Child k j c → n ≠ c := by
    rintro k j c hwell - rfl
    exact hwell.1 List.mem_cons_self
  refine ⟨fun k j r rs hs => ?_, fun k j rs hmem => ?_⟩
  · by_cases hk : n = k
    · subst hk
      have hs := (slot_put_self_iff hd).1 hs
      rw [List.getElem?_map, Option.map_eq_some_iff] at hs
      obtain ⟨r', -, heq⟩ := hs
      cases heq
    · have hs := (slot_put_ne_iff hk).1 hs
      exact (h.filled k j r rs hs).put hd rfl rfl fun c hc => hother ((htidy.filled k j r rs hs).2.2 c hc) hc
  · have hmem : .collect k j (.ok rs) ∈ rest := (List.mem_append.1 hmem).resolve_left (hnew k j rs)
    obtain ⟨r, -, hok⟩ := htidy.fits _ (List.mem_cons_of_mem _ hmem)
    exact (h.brought k j rs (List.mem_cons_of_mem _ hmem)).put hd rfl rfl fun c hc =>
      hother ((hok rs rfl).2.2 c hc) hc

/-- A slot is filled with what a thread brings. -/
theorem Memory.Told.fill (h : m.Told (.collect n i (.ok rs) :: rest))
    (htidy : Tidy asked m (.collect n i (.ok rs) :: rest)) (hd : m.nodes[n]? = some d)
    (he : e = { d with slots := d.slots.modify i fun (r, _) => (r, some rs) })
    (hnew : ∀ n i rs, .collect n i (.ok rs) ∉ new) : (m.put n e).Told (new ++ rest) := by
  obtain ⟨r, ⟨d', hd', hs⟩, -⟩ := htidy.fits_first
  obtain rfl : d = d' := Option.some.inj (hd.symm.trans hd')
  -- the document with the empty slot is not among those that are listed already
  have hput : ∀ {k j rs}, m.Holds k j rs → (m.put n e).Holds k j rs := by
    intro k j rs hholds
    refine hholds.put hd (by rw [he]) (by rw [he]) fun c hc heq => ?_
    subst heq
    obtain ⟨d', hd', hcomplete, -⟩ := hholds.1 _ hc
    obtain rfl : d = d' := Option.some.inj (hd.symm.trans hd')
    rw [incomplete_of_slot hs] at hcomplete
    cases hcomplete
  refine ⟨fun k j r' rs' hs' => hput ?_, fun k j rs' hmem => hput (h.brought k j rs' (List.mem_cons_of_mem _ ?_))⟩
  · by_cases hk : n = k
    · subst hk
      have hs' := (slot_put_self_iff hd).1 hs'
      by_cases hj : i = j
      · subst hj
        rw [he, List.getElem?_modify_eq, hs] at hs'
        obtain ⟨-, hrs⟩ := Prod.mk.inj (Option.some.inj hs')
        obtain rfl := Option.some.inj hrs
        exact h.brought _ _ _ List.mem_cons_self
      · rw [he, List.getElem?_modify_ne _ _ hj] at hs'
        exact h.filled _ j r' rs' ⟨d, hd, hs'⟩
    · exact h.filled k j r' rs' ((slot_put_ne_iff hk).1 hs')
  · exact (List.mem_append.1 hmem).resolve_left (hnew k j rs')

/-- A document is opened in a slot that was empty. -/
theorem Memory.Told.open {r : Reference} {answer : Except Fault Text} (h : m.Told (.follow n i :: rest))
    (htidy : Tidy asked m (.follow n i :: rest)) (hfresh : Fresh n i d r e) :
    (m.grow e).Told (.scanned m.nodes.length answer :: rest) := by
  obtain ⟨⟨r₀, d₀, hd₀, hs₀⟩, -⟩ := htidy.fits_first
  refine ⟨fun k j r' rs hs => ?_, fun k j rs hmem => ?_⟩
  · have hs := (slot_grow_iff hfresh.slots).1 hs
    refine (h.filled k j r' rs hs).grow hfresh (not_and_or.1 ?_)
    rintro ⟨rfl, rfl⟩
    obtain ⟨d', hd', hs⟩ := hs
    obtain rfl : d₀ = d' := Option.some.inj (hd₀.symm.trans hd')
    rw [hs₀] at hs
    cases hs
  · have hmem : .collect k j (.ok rs) ∈ rest := (List.mem_cons.1 hmem).resolve_left nofun
    refine (h.brought k j rs (List.mem_cons_of_mem _ hmem)).grow hfresh (not_and_or.1 ?_)
    rintro ⟨rfl, rfl⟩
    have hplace : Thread.place (.collect k j (.ok rs)) ∈ places rest := List.mem_map_of_mem hmem
    exact htidy.not_mem hplace

end

namespace Crawl

variable {c : Crawl} {notes : List Text}

/-- The crawl is in order and without faults.  Either it has not come to its end, or it has reported what the
top document lists. -/
structure Smooth (c : Crawl) : Prop where
  tidy : Tidy (fun _ => True) c.memory c.threads
  told : c.memory.Told c.threads
  sound : c.memory.Sound c.threads
  report : c.report = none ∧ c.memory.Active (places c.threads) 0 ∨
    c.threads = [] ∧ c.memory.Well (fun _ => True) (places []) 0 ∧
      ∃ d ws, c.memory.nodes[0]? = some d ∧ c.report = some (.ok ⟨ws, firsts [] d.listed⟩)

/-- What was read of a document can be surveyed. -/
theorem Grounded.survey_sound (h : Grounded load url c) (hreadable : Readable load url) {contents : Text}
    (hmem : .scanned n (.ok contents) ∈ c.threads) (hd : c.memory.nodes[n]? = some d) :
    (Survey.of d.url contents).2 = none :=
  hreadable.surveyed _ _ (h.reaches hd) (h.answer_eq hmem hd).symm

theorem smooth_start (url : Text) : Smooth (start url) := by
  have hnode : ∀ (n : Nat) (d : Node), (start url).memory.nodes[n]? = some d → d = ⟨url, [], 0, [], false⟩ :=
    fun n d hd => List.mem_singleton.1 (List.mem_of_getElem? hd)
  refine ⟨tidy_start _ url, ⟨fun n i r rs hs => ?_, fun n i rs hmem => ?_⟩, ⟨fun n d hd => ?_, fun t ht => ?_⟩,
    .inl ⟨rfl, active_start url⟩⟩
  · obtain ⟨d, hd, hs⟩ := hs
    rw [hnode n d hd] at hs
    cases hs
  · cases List.mem_singleton.1 hmem
  · rw [hnode n d hd]
  · rw [List.mem_singleton.1 ht]
    exact id

/-- Before the end, nothing is reported. -/
theorem Smooth.under_way (h : Smooth c) (hthreads : c.threads.Perm (t :: rest)) :
    c.report = none ∧ c.memory.Active (places (t :: rest)) 0 := by
  rcases h.report with ⟨hreport, hactive⟩ | ⟨hended, -⟩
  · refine ⟨hreport, hactive.congr fun k hk => ?_⟩
    exact (hthreads.map Thread.place).mem_iff.1 hk
  · rw [hended] at hthreads
    exact absurd hthreads.nil_eq (List.cons_ne_nil t rest).symm

/-- A turn after which the crawl goes on. -/
theorem Smooth.go_on (h : Smooth c) (new : List Thread) (hthreads : c.threads.Perm (t :: rest)) {asked : List Text}
    (hleads : Leads (fun _ => True) c.memory (t :: rest) m' (new ++ rest)) (htold : m'.Told (new ++ rest))
    (hnodes : ∀ (n : Nat) (d : Node), m'.nodes[n]? = some d → d.failed = false)
    (hnew : ∀ x ∈ new, ¬ x.Faulty) : Smooth ⟨m', new ++ rest, asked, c.report⟩ := by
  obtain ⟨hreport, hactive⟩ := h.under_way hthreads
  refine ⟨hleads.tidy, htold, ⟨hnodes, fun x hx => ?_⟩, .inl ⟨hreport, hleads.active hactive⟩⟩
  rcases List.mem_append.1 hx with hx | hx
  · exact hnew x hx
  · exact h.sound.threads x (hthreads.mem_iff.2 (List.mem_cons_of_mem _ hx))

/-- A turn in which a document is delivered. -/
theorem Smooth.deliver (h : Smooth c) (hthreads : c.threads.Perm (t :: rest)) (hd : c.memory.nodes[n]? = some d)
    (hcomplete : d.complete = true) (hnodes : m'.nodes = c.memory.nodes)
    (hlands : Lands (fun _ => True) c.memory t rest ⟨m', notes, m'.deliver d (.ok d.listed)⟩) :
    Smooth (c.after load ⟨m', notes, m'.deliver d (.ok d.listed)⟩ rest) := by
  have htidy := h.tidy.perm hthreads
  have hold : ∀ (n : Nat) (d : Node), m'.nodes[n]? = some d → d.failed = false := hnodes ▸ h.sound.nodes
  unfold Memory.deliver at hlands ⊢
  cases hline : d.line with
  | nil =>
    rw [hline] at hlands
    obtain ⟨htidy', hwell, -, -⟩ := hlands _ rfl
    obtain ⟨rfl, -⟩ := htidy'.ended hwell
    obtain rfl := htidy.eq_zero hd hline
    refine ⟨htidy', ((h.told.perm hthreads).swap [] nofun).congr hnodes, ⟨hold, nofun⟩,
      .inr ⟨rfl, hwell, d, _, hnodes ▸ hd, rfl⟩⟩
  | cons k above =>
    rw [hline] at hlands
    have hchild : c.memory.Child k d.slot n := ⟨d, hd, by rw [hline]; rfl, rfl⟩
    refine h.go_on [_] hthreads hlands
      (((h.told.perm hthreads).swap _ fun k' i rs hmem => ?_).congr hnodes) hold fun x hx => ?_
    · obtain ⟨rfl, rfl, hrs⟩ := Thread.collect.inj (List.mem_singleton.1 hmem)
      obtain rfl := Except.ok.inj hrs
      refine ⟨fun c' hc' => ?_, fun hnone => absurd hchild (hnone n)⟩
      rw [htidy.single _ _ _ _ hc' hchild]
      exact ⟨d, hd, hcomplete, rfl⟩
    · rw [List.mem_singleton.1 hx]
      exact id

/-- A turn in which something is asked for that is there. -/
theorem Smooth.ask (h : Smooth c) (hthreads : c.threads.Perm (t :: rest)) {u : Text}
    {next : Except Fault Text → Thread} (hload : ∃ contents, load u = .ok contents)
    (hlands : Lands (fun _ => True) c.memory t rest ⟨m', notes, .ask u next⟩) (htold : m'.Told (next (load u) :: rest))
    (hnodes : ∀ (n : Nat) (d : Node), m'.nodes[n]? = some d → d.failed = false) :
    Smooth (c.after load ⟨m', notes, .ask u next⟩ rest) := by
  obtain ⟨hsteady, hleads⟩ := hlands
  obtain ⟨contents, hload⟩ := hload
  have hfine : ¬ (next (.ok contents)).Faulty := by
    rw [← faulty_emptied_iff, hsteady.text, faulty_emptied_iff]
    exact hsteady.sound
  refine h.go_on [_] hthreads (hleads (fun _ => True) (load u) (fun _ _ => trivial) fun _ => trivial) htold hnodes
    fun x hx => ?_
  rw [List.mem_singleton.1 hx, hload]
  exact hfine

/-- A turn that leaves an empty outcome behind, at a slot without a document. -/
theorem Smooth.collect_nil (h : Smooth c) (hthreads : c.threads.Perm (t :: rest))
    (hnone : ∀ k, ¬ c.memory.Child n i k)
    (hlands : Lands (fun _ => True) c.memory t rest (c.memory.moves (.leave [.collect n i (.ok [])]))) :
    Smooth (c.after load (c.memory.moves (.leave [.collect n i (.ok [])])) rest) := by
  refine h.go_on [_] hthreads hlands ((h.told.perm hthreads).swap _ fun k j rs hmem => ?_) h.sound.nodes
    fun x hx => ?_
  · obtain ⟨rfl, rfl, hrs⟩ := Thread.collect.inj (List.mem_singleton.1 hmem)
    obtain rfl := Except.ok.inj hrs
    exact holds_nil hnone
  · rw [List.mem_singleton.1 hx]
    exact id

/-- A turn keeps a crawl of readable documents without faults. -/
theorem Smooth.turn (h : Smooth c) (hgrounded : Grounded load url c) (hreadable : Readable load url)
    (hthreads : c.threads.Perm (t :: rest)) {turn : Turn Memory Thread} (hturned : Turned c.memory t turn)
    (hlands : Lands (fun _ => True) c.memory t rest turn) : Smooth (c.after load turn rest) := by
  have htidy := h.tidy.perm hthreads
  have htold := h.told.perm hthreads
  have hfine : ¬ t.Faulty := h.sound.threads t (hthreads.mem_iff.2 List.mem_cons_self)
  have hthere : t ∈ c.threads := hthreads.mem_iff.2 List.mem_cons_self
  have hfits := htidy.fits_first
  -- A fault needs a text that cannot be read or a URL that cannot be resolved: in a crawl of readable
  -- documents, those turns do not occur.
  cases hturned with
  | lost => exact h.go_on [] hthreads hlands (htold.swap _ nofun) h.sound.nodes nofun
  | @scan n d hd =>
    exact h.ask hthreads (hreadable.texts d.url (.inl (hgrounded.reaches hd))) hlands (htold.swap [_] (by simp))
      h.sound.nodes
  | refused => exact absurd trivial hfine
  | unreadable hd hfault => cases hfault.symm.trans (hgrounded.survey_sound hreadable hthere hd)
  | @bare n d contents hd hsound hnone ws notes =>
    obtain ⟨d', hd', hslots, -⟩ := hfits
    obtain rfl : d = d' := Option.some.inj (hd.symm.trans hd')
    have hlisted : d.listed = [] := by rw [Node.listed, hslots]; rfl
    rw [← hlisted] at hlands ⊢
    refine h.deliver hthreads hd (complete_of_slots hslots) ?_ hlands
    rfl
  | @spread n d contents refs hd hsound hrefs ws notes =>
    have htold := htold.spread refs ((List.range refs.length).map (.follow n)) htidy hd
      fun k j rs hmem => by simp at hmem
    refine h.go_on _ hthreads hlands (htold.congr rfl) (fun k d' hd' => ?_) fun x hx => ?_
    · exact h.sound.nodes_put (e := { d with slots := refs.map (·, none) }) hd (h.sound.nodes n d hd) k d' hd'
    · obtain ⟨i, -, rfl⟩ := List.mem_map.1 hx
      exact id
  | @misread n i d r found f hd hs hfault =>
    obtain ⟨external, hexternal⟩ := hreadable.urls _ (hgrounded.reaches hd) r (hgrounded.mem_references hd hs)
    cases hfault.symm.trans hexternal
  | pass => exact h.collect_nil hthreads hfits.2 hlands
  | @enter n i d r found hd hs henters hnew =>
    have himported : Imported load d.url r.url := ⟨r, hgrounded.mem_references hd hs, henters, rfl⟩
    refine h.ask hthreads (hreadable.texts r.url (.inl ((hgrounded.reaches hd).tail himported))) hlands
      (htold.open htidy ⟨rfl, rfl, rfl, rfl, rfl⟩) fun k d' hd' => ?_
    rcases getElem?_grow_iff.1 hd' with hd' | ⟨-, rfl⟩
    · exact h.sound.nodes k d' hd'
    · rfl
  | @fetch n i d r found hd hs hkind hlocal =>
    have hwanted : Wanted load url r.url :=
      .inr ⟨d.url, hgrounded.reaches hd, r, hgrounded.mem_references hd hs, hlocal, rfl⟩
    exact h.ask hthreads (hreadable.texts r.url hwanted) hlands (htold.swap [_] (by simp)) h.sound.nodes
  | loaded answer =>
    cases answer with
    | error f => exact absurd trivial hfine
    | ok contents => exact h.collect_nil hthreads hfits.2 hlands
  | @dropped n i d outcome hd hfailed =>
    rw [h.sound.nodes n d hd] at hfailed  -- An outcome is dropped only by a document that has failed.
    cases hfailed
  | broken => exact absurd trivial hfine
  | @filled n i d e rs hd hopen he =>
    have hnew : ∀ x ∈ (if e.complete then [Thread.rise n none] else []), x = .rise n none := fun x hx => by
      split at hx
      · exact List.mem_singleton.1 hx
      · cases hx
    refine h.go_on _ hthreads hlands (htold.fill htidy hd he fun k j rs hmem => nomatch hnew _ hmem)
      (h.sound.nodes_put hd (by rw [he]; exact hopen)) fun x hx => ?_
    rw [hnew x hx]
    exact id
  | @risen n d hd =>
    obtain ⟨d', hd', -, hcomplete, -⟩ := hfits
    obtain rfl : d = d' := Option.some.inj (hd.symm.trans hd')
    exact h.deliver hthreads hd hcomplete rfl hlands
  | sunk => exact absurd trivial hfine

theorem Run.smooth (h : Run load url c) (hreadable : Readable load url) : Smooth c := by
  induction h with
  | refl => exact smooth_start url
  | tail hrun hstep ih =>
    cases hstep with
    | turn hthreads =>
      exact ih.turn (Run.grounded hrun) hreadable hthreads (turned _ _) (ih.tidy.perm hthreads).turn

end Crawl

end HtmlDeps.Imports
