import HtmlDeps.Proofs.Crawl.Orders

/-!
# References that cannot be read

A reference is followed by reading its URL once more.  If this fails for one document that can be reached, the
fault goes up to the top, and so no report is given: behind a report there are only references whose URLs can
be read (`Crawl.Run.legible`).

Two things are kept during a crawl.  Before it has reported, either a fault has come up or all references that
are not about to be followed were read (`Memory.Followed`); after it has reported a fault, nothing is delivered
at the top any more (`Crawl.Sunk`).
-/

namespace HtmlDeps.Imports

open Memory

variable {load : Text → Except Fault Text} {url : Text} {m m' : Memory} {t : Thread} {ts rest new : List Thread}
  {n i : Nat} {d : Node}

/-- All texts are there, and none of the documents has a fault. -/
structure Surveyable (load : Text → Except Fault Text) (url : Text) : Prop where
  texts : ∀ u, Wanted load url u → ∃ contents, load u = .ok contents
  surveyed : ∀ u contents, Reaches load url u → load u = .ok contents → (Survey.of u contents).2 = none

/-- The URLs can be read to which the documents refer. -/
def Legible (load : Text → Except Fault Text) (url : Text) : Prop :=
  ∀ u, Reaches load url u → ∀ r ∈ references load u, ∃ external, Url.isExternal r.url = .ok external

theorem Surveyable.readable (h : Surveyable load url) (hlegible : Legible load url) : Readable load url :=
  ⟨h.texts, h.surveyed, hlegible⟩

/-- The references were read, or are about to be followed. -/
def Memory.Followed (m : Memory) (ts : List Thread) : Prop :=
  ∀ (n i : Nat) (o : Outline) (r : Reference), m.outlines[n]? = some o → o.refs[i]? = some r →
    (∃ external, Url.isExternal r.url = .ok external) ∨ .follow n i ∈ ts

theorem Memory.Followed.perm (h : m.Followed ts) (hperm : ts.Perm (t :: rest)) : m.Followed (t :: rest) := by
  intro n i o r ho hr
  exact (h n i o r ho hr).imp_right hperm.mem_iff.1

/-- A thread makes way for others and has read the reference that it followed, if it did. -/
theorem Memory.Followed.swap (h : m.Followed (t :: rest)) (new : List Thread)
    (houtlines : m'.outlines = m.outlines)
    (hread : ∀ (n i : Nat) (o : Outline) (r : Reference), t = .follow n i → m.outlines[n]? = some o →
      o.refs[i]? = some r → ∃ external, Url.isExternal r.url = .ok external) :
    m'.Followed (new ++ rest) := by
  intro n i o r ho hr
  rw [houtlines] at ho
  rcases h n i o r ho hr with hknown | hmem
  · exact .inl hknown
  · rcases List.mem_cons.1 hmem with rfl | hmem
    · exact .inl (hread n i o r rfl ho hr)
    · exact .inr (List.mem_append_right _ hmem)

/-- The references of a document that is spread are about to be followed. -/
theorem Memory.Followed.spread {refs : List Reference} (h : m.Followed (t :: rest)) (hd : m.nodes[n]? = some d)
    (ht : ∀ n i, t ≠ .follow n i) :
    (m.put n { d with slots := refs.map (·, none) }).Followed
      ((List.range refs.length).map (.follow n) ++ rest) := by
  intro k j o r ho hr
  have houtline : ({ d with slots := refs.map (·, none) } : Node).outline.refs = refs := by
    simp [Node.outline, Function.comp_def]
  rw [outlines_put] at ho
  by_cases hk : n = k
  · subst hk
    have hlt := (List.getElem?_eq_some_iff.1 (getElem?_outlines hd)).1
    rw [List.getElem?_set_self hlt] at ho
    obtain rfl := Option.some.inj ho
    rw [houtline] at hr
    right
    apply List.mem_append_left
    exact List.mem_map_of_mem (List.mem_range.2 (List.getElem?_eq_some_iff.1 hr).1)
  · rw [List.getElem?_set_ne hk] at ho
    rcases h k j o r ho hr with hknown | hmem
    · exact .inl hknown
    · rcases List.mem_cons.1 hmem with heq | hmem
      · exact absurd heq.symm (ht k j)
      · exact .inr (List.mem_append_right _ hmem)

/-- The document that is entered holds no references yet. -/
theorem Memory.Followed.grow {e : Node} (h : m.Followed (t :: rest)) (new : List Thread) (hslots : e.slots = [])
    (hread : ∀ (n i : Nat) (o : Outline) (r : Reference), t = .follow n i → m.outlines[n]? = some o →
      o.refs[i]? = some r → ∃ external, Url.isExternal r.url = .ok external) :
    (m.grow e).Followed (new ++ rest) := by
  intro k j o r ho hr
  have houtlines : (m.grow e).outlines = m.outlines ++ [e.outline] := List.map_append
  rw [houtlines] at ho
  rcases Nat.lt_or_ge k m.outlines.length with hk | hk
  · rw [List.getElem?_append_left hk] at ho
    exact h.swap new rfl hread k j o r ho hr
  · have hmem := List.mem_of_getElem? ((List.getElem?_append_right hk).symm.trans ho)
    rw [List.mem_singleton.1 hmem, Node.outline, hslots] at hr
    cases hr

theorem eq_of_outline {r r' : Reference} {o : Outline} {found : Option (List Reference)} (hd : m.nodes[n]? = some d)
    (hs : d.slots[i]? = some (r, found)) (ho : m.outlines[n]? = some o) (hr : o.refs[i]? = some r') : r' = r := by
  obtain rfl := outline_unique hd ho
  rw [Node.getElem?_refs, hs] at hr
  exact (Option.some.inj hr).symm

/-- A turn in which a reference is not read brings a fault. -/
theorem Memory.Followed.turn {turn : Turn Memory Thread} (h : m.Followed (t :: rest))
    (load : Text → Except Fault Text) (hturned : Turned m t turn) :
    turn.memory.Followed (leftBehind load turn ++ rest) ∨ ∃ x ∈ leftBehind load turn, x.Faulty := by
  have hread : ∀ {n i : Nat} {d : Node} {r : Reference} {found : Option (List Reference)} {external : Bool},
      m.nodes[n]? = some d → d.slots[i]? = some (r, found) → Url.isExternal r.url = .ok external →
      ∀ (k j : Nat) (o : Outline) (r' : Reference), Thread.follow n i = .follow k j → m.outlines[k]? = some o →
      o.refs[j]? = some r' → ∃ external, Url.isExternal r'.url = .ok external := by
    intro n i d r found external hd hs hexternal k j o r' heq ho hr
    obtain ⟨rfl, rfl⟩ := Thread.follow.inj heq
    exact ⟨external, eq_of_outline hd hs ho hr ▸ hexternal⟩
  cases hturned with  -- A reference is read in every turn that follows it but one, and that one brings a fault.
  | lost hnode hslot =>
    refine .inl (h.swap _ rfl fun n i o r ht ho hr => ?_)
    obtain ⟨d, hd, rfl⟩ := exists_node_of_outline ho
    rw [Node.getElem?_refs, Option.map_eq_some_iff] at hr
    obtain ⟨⟨r', found⟩, hs, -⟩ := hr
    exact absurd ⟨d, hd, hs⟩ (hslot n i (ht ▸ rfl) r' found)
  | scan | loaded | dropped | refused | unreadable | risen | sunk => exact .inl (h.swap _ rfl nofun)
  | bare => exact .inl (h.swap _ rfl nofun)
  | spread hd => exact .inl (h.spread hd nofun)
  | misread hd hs hfault => exact .inr ⟨_, List.mem_singleton_self _, trivial⟩
  | pass hd hs hpass =>
    rcases hpass with hexternal | ⟨henters, -⟩
    · exact .inl (h.swap _ rfl (hread hd hs hexternal))
    · exact .inl (h.swap _ rfl (hread hd hs henters.2))
  | enter hd hs henters hnew => exact .inl (h.grow _ rfl (hread hd hs henters.2))
  | fetch hd hs hkind hlocal => exact .inl (h.swap _ rfl (hread hd hs hlocal))
  | broken hd => exact .inl (h.swap _ (outlines_put_eq hd rfl) nofun)
  | filled hd hopen he =>
    subst he
    exact .inl (h.swap _ (outlines_put_eq hd (outline_fill _ _ _)) nofun)

namespace Crawl

variable {c : Crawl}

/-! ### After a fault -/

/-- The top document has failed, and the work on it is over. -/
structure Sunk (c : Crawl) : Prop where
  failed : ∀ (n : Nat) (d : Node), c.memory.nodes[n]? = some d → d.line = [] → d.failed = true
  threads : ∀ t ∈ c.threads, ∀ (n : Nat) (d : Node), t.place = .document n → c.memory.nodes[n]? = some d → d.line ≠ []

/-- The top document stays as it is, and no thread gets there. -/
theorem Sunk.swap {asked : List Text} {report : Option (Except Fault Report)} (h : Sunk c)
    (hthreads : c.threads.Perm (t :: rest)) (new : List Thread)
    (hnodes : ∀ (n : Nat) (d' : Node), m'.nodes[n]? = some d' → d'.line = [] →
      ∃ d, c.memory.nodes[n]? = some d ∧ d.line = [] ∧ (d.failed = true → d'.failed = true))
    (hnew : ∀ x ∈ new, ∀ n, x.place = .document n → ∀ d', m'.nodes[n]? = some d' → d'.line ≠ []) :
    Sunk ⟨m', new ++ rest, asked, report⟩ := by
  constructor
  · intro n d' hd' hline
    obtain ⟨d, hd, hline, hfailed⟩ := hnodes n d' hd' hline
    exact hfailed (h.failed n d hd hline)
  · intro x hx n d' hplace hd' hline
    rcases List.mem_append.1 hx with hx | hx
    · exact hnew x hx n hplace d' hd' hline
    · obtain ⟨d, hd, hline, -⟩ := hnodes n d' hd' hline
      exact h.threads x (hthreads.mem_iff.2 (List.mem_cons_of_mem _ hx)) n d hplace hd hline

theorem nodes_same (hnodes : m'.nodes = m.nodes) (k : Nat) (d' : Node) (hd' : m'.nodes[k]? = some d')
    (htop : d'.line = []) : ∃ d, m.nodes[k]? = some d ∧ d.line = [] ∧ (d.failed = true → d'.failed = true) :=
  ⟨d', hnodes ▸ hd', htop, id⟩

theorem nodes_put {e : Node} (hd : m.nodes[n]? = some d) (hline : e.line = d.line)
    (hfailed : d.failed = true → e.failed = true) (k : Nat) (d' : Node) (hd' : (m.put n e).nodes[k]? = some d')
    (htop : d'.line = []) : ∃ d, m.nodes[k]? = some d ∧ d.line = [] ∧ (d.failed = true → d'.failed = true) := by
  by_cases hk : n = k
  · subst hk
    obtain rfl := Option.some.inj ((getElem?_put_self hd).symm.trans hd')
    exact ⟨d, hd, hline.symm.trans htop, hfailed⟩
  · exact ⟨d', (getElem?_put_ne hk).symm.trans hd', htop, id⟩

/-- What a thread delivers that is not at the top, the document above collects. -/
theorem Sunk.deliver {m'' : Memory} {notes : List Text} {outcome : Except Fault (List Reference)} (h : Sunk c)
    (load : Text → Except Fault Text) (hthreads : c.threads.Perm (t :: rest)) (hplace : t.place = .document n)
    (hd : c.memory.nodes[n]? = some d) (hnodes : m'.nodes = c.memory.nodes) :
    Sunk (c.after load ⟨m', notes, m''.deliver d outcome⟩ rest) ∧
      (c.after load ⟨m', notes, m''.deliver d outcome⟩ rest).report = c.report := by
  have hline := h.threads t (hthreads.mem_iff.2 List.mem_cons_self) n d hplace hd
  obtain ⟨k, above, hline⟩ := List.exists_cons_of_ne_nil hline
  unfold after Memory.deliver
  rw [hline]
  refine ⟨h.swap hthreads [_] (nodes_same hnodes) fun x hx k' hk' => ?_, rfl⟩
  rw [List.mem_singleton.1 hx] at hk'
  cases hk'

theorem Sunk.turn {turn : Turn Memory Thread} (h : Sunk c) (load : Text → Except Fault Text)
    (hthreads : c.threads.Perm (t :: rest)) (hturned : Turned c.memory t turn) :
    Sunk (c.after load turn rest) ∧ (c.after load turn rest).report = c.report := by
  have hthere : t ∈ c.threads := hthreads.mem_iff.2 List.mem_cons_self
  cases hturned with  -- The document at the top has failed and no thread is at it; no turn undoes either.
  | lost => exact ⟨h.swap hthreads [] (nodes_same rfl) nofun, rfl⟩
  | @scan n d hd =>
    refine ⟨h.swap hthreads [_] (nodes_same rfl) fun x hx k hk d' hd' => ?_, rfl⟩
    rw [List.mem_singleton.1 hx] at hk
    exact h.threads _ hthere k d' hk hd'
  | refused hd | unreadable hd | bare hd | risen hd | sunk hd => exact h.deliver load hthreads rfl hd rfl
  | @spread n d contents refs hd =>
    refine ⟨h.swap hthreads _ (nodes_put hd rfl id) fun x hx k hk => ?_, rfl⟩
    obtain ⟨i, -, rfl⟩ := List.mem_map.1 hx
    cases hk
  | misread | pass | fetch | loaded =>
    refine ⟨h.swap hthreads [_] (nodes_same rfl) fun x hx k hk => ?_, rfl⟩
    rw [List.mem_singleton.1 hx] at hk
    cases hk
  | @enter n i d r found hd hs henters hnew =>
    refine ⟨h.swap hthreads [_] (fun k d' hd' hline => ?_) fun x hx k hk d' hd' => ?_, rfl⟩
    · rcases getElem?_grow_iff.1 hd' with hd' | ⟨-, rfl⟩
      · exact ⟨d', hd', hline, id⟩
      · cases hline
    · rw [List.mem_singleton.1 hx] at hk
      obtain rfl := Place.document.inj hk
      rcases getElem?_grow_iff.1 hd' with hd' | ⟨-, rfl⟩
      · exact absurd (List.getElem?_eq_some_iff.1 hd').1 (Nat.lt_irrefl _)
      · exact List.cons_ne_nil _ _
  | dropped => exact ⟨h.swap hthreads [] (nodes_same rfl) nofun, rfl⟩
  | @broken n i d f hd hopen =>
    refine ⟨h.swap hthreads [_] (nodes_put hd rfl fun _ => rfl) fun x hx k hk d' hd' hline => ?_, rfl⟩
    rw [List.mem_singleton.1 hx] at hk
    obtain rfl := Place.document.inj hk
    obtain rfl := Option.some.inj ((getElem?_put_self hd).symm.trans hd')
    -- The document at the top has failed, and this one is still open: it is another.
    cases hopen.symm.trans (h.failed n d hd hline)
  | @filled n i d e rs hd hopen he =>
    subst he
    refine ⟨h.swap hthreads _ (nodes_put hd rfl id) fun x hx k hk d' hd' hline => ?_, rfl⟩
    split at hx
    · rw [List.mem_singleton.1 hx] at hk
      obtain rfl := Place.document.inj hk
      obtain rfl := Option.some.inj ((getElem?_put_self hd).symm.trans hd')
      cases hopen.symm.trans (h.failed n d hd hline)
    · cases hx

theorem top_of_finish {outcome : Except Fault (List Reference)} {f : Fault}
    (hfinish : m.deliver d outcome = .finish (.error f)) : d.line = [] ∧ ∃ f, outcome = .error f := by
  unfold Memory.deliver at hfinish
  cases hline : d.line with
  | nil =>
    rw [hline] at hfinish
    cases outcome with
    | error f => exact ⟨rfl, f, rfl⟩
    | ok rs => cases hfinish
  | cons k above =>
    rw [hline] at hfinish
    cases hfinish

/-- A crawl that reports a fault is sunk. -/
theorem sunk_of_finish {turn : Turn Memory Thread} {f : Fault} (htidy : Tidy (fun _ => True) c.memory (t :: rest))
    (hgrounded : Grounded load url c) (hsurveyable : Surveyable load url) (hthreads : c.threads.Perm (t :: rest))
    (hturned : Turned c.memory t turn) (hmove : turn.move = .finish (.error f)) :
    Sunk (c.after load turn rest) := by
  have hthere : t ∈ c.threads := hthreads.mem_iff.2 List.mem_cons_self
  cases hturned with
  | @refused n d f hd =>
    obtain ⟨contents, hcontents⟩ := hsurveyable.texts d.url (.inl (hgrounded.reaches hd))
    cases (hgrounded.answer_eq hthere hd).trans hcontents
  | @unreadable n d contents f hd hfault =>
    have hload := (hgrounded.answer_eq hthere hd).symm
    cases hfault.symm.trans (hsurveyable.surveyed d.url contents (hgrounded.reaches hd) hload)
  | bare | risen =>  -- These two deliver references, and not a fault.
    obtain ⟨-, f, hok⟩ := top_of_finish hmove
    cases hok
  | @sunk n d f hd =>
    obtain ⟨hline, -⟩ := top_of_finish hmove
    obtain rfl := htidy.eq_zero hd hline
    obtain ⟨d', hd', hfailed⟩ := htidy.fits_first
    obtain rfl := Option.some.inj (hd.symm.trans hd')
    unfold after Memory.moves
    dsimp only
    rw [show c.memory.deliver d (.error f) = .finish (.error f) by rw [Memory.deliver, hline]; rfl]
    constructor  -- Delivering leaves the nodes alone, and the thread that was at the top is gone.
    · intro k d' hk hline'
      obtain rfl := htidy.eq_zero hk hline'
      obtain rfl := Option.some.inj (hd.symm.trans hk)
      exact hfailed
    · intro x hx k d' hplace hk hline'
      obtain rfl := htidy.eq_zero hk hline'
      have hmem := List.mem_map_of_mem (f := Thread.place) hx
      rw [hplace] at hmem
      exact htidy.not_mem hmem
  | _ => cases hmove

/-! ### Behind a report -/

/-- How it stands with a crawl, whether it has reported or not. -/
def Fated (c : Crawl) : Prop :=
  match c.report with
  | none => Tidy (fun _ => True) c.memory c.threads ∧ (c.memory.Broken c.threads ∨ c.memory.Followed c.threads)
  | some (.ok _) => c.threads = [] ∧ c.memory.Followed []
  | some (.error _) => Sunk c

/-- A reference that cannot be read brings a fault, and a fault stays. -/
theorem broken_or_followed {turn : Turn Memory Thread} (load : Text → Except Fault Text)
    (hthreads : c.threads.Perm (t :: rest)) (hturned : Turned c.memory t turn)
    (h : c.memory.Broken c.threads ∨ c.memory.Followed c.threads)
    (hbroken : c.memory.Broken (t :: rest) → turn.memory.Broken (leftBehind load turn ++ rest)) :
    turn.memory.Broken (leftBehind load turn ++ rest) ∨ turn.memory.Followed (leftBehind load turn ++ rest) := by
  rcases h with hfault | hfollowed
  · exact .inl (hbroken (hfault.perm hthreads))
  · rcases (hfollowed.perm hthreads).turn load hturned with hfollowed | ⟨x, hx, hfaulty⟩
    · exact .inr hfollowed
    · exact .inl (.inr ⟨x, List.mem_append_left _ hx, hfaulty⟩)

/-- A turn before the end. -/
theorem fated_of_turn {turn : Turn Memory Thread} (htidy : Tidy (fun _ => True) c.memory (t :: rest))
    (hknown : c.memory.Broken c.threads ∨ c.memory.Followed c.threads) (hgrounded : Grounded load url c)
    (hsurveyable : Surveyable load url) (hthreads : c.threads.Perm (t :: rest)) (hreport : c.report = none)
    (hturned : Turned c.memory t turn) (hlands : Lands (fun _ => True) c.memory t rest turn) :
    Fated (c.after load turn rest) := by
  have hnext := broken_or_followed load hthreads hturned hknown
  obtain ⟨m', notes, move⟩ := turn
  cases move with
  | ask u next =>
    have hleads := hlands.2 (fun _ => True) (load u) (fun _ _ => trivial) fun _ => trivial
    unfold Fated after
    dsimp only
    rw [hreport]
    exact ⟨hleads.tidy, hnext hleads.broken⟩
  | leave new =>
    have hleads : Leads (fun _ => True) c.memory (t :: rest) m' (new ++ rest) := hlands
    unfold Fated after
    dsimp only
    rw [hreport]
    exact ⟨hleads.tidy, hnext hleads.broken⟩
  | finish outcome =>
    cases outcome with
    | error f => exact sunk_of_finish htidy hgrounded hsurveyable hthreads hturned rfl
    | ok report =>
      obtain ⟨htidy', hwell, hbroken, -⟩ := hlands report rfl
      obtain ⟨rfl, hsound⟩ := htidy'.ended hwell
      exact ⟨rfl, (hnext hbroken).resolve_left hsound⟩

theorem Fated.turn (h : Fated c) (hgrounded : Grounded load url c) (hsurveyable : Surveyable load url)
    (hthreads : c.threads.Perm (t :: rest)) :
    Fated (c.after load (Imports.turn (fun _ => true) c.memory t) rest) := by
  have hturned := turned c.memory t
  unfold Fated at h
  cases hreport : c.report with
  | none =>
    rw [hreport] at h
    obtain ⟨htidy, hknown⟩ := h
    have htidy := htidy.perm hthreads
    exact fated_of_turn htidy hknown hgrounded hsurveyable hthreads hreport hturned htidy.turn
  | some outcome =>
    rw [hreport] at h
    cases outcome with
    | error f =>
      obtain ⟨hsunk, hsame⟩ := h.turn load hthreads hturned
      rw [Fated, hsame, hreport]
      exact hsunk
    | ok report =>
      rw [h.1] at hthreads
      cases hthreads.length_eq

theorem Run.fated (h : Run load url c) (hsurveyable : Surveyable load url) : Fated c := by
  induction h with
  | refl =>
    refine ⟨tidy_start _ url, .inr fun n i o r ho hr => ?_⟩
    rw [List.mem_singleton.1 (List.mem_of_getElem? ho)] at hr
    cases hr
  | tail hrun hstep ih =>
    cases hstep with
    | turn hthreads => exact ih.turn (Run.grounded hrun) hsurveyable hthreads

/-- **Behind a report** there are only references whose URLs can be read. -/
theorem Run.legible (h : Run load url c) (hsurveyable : Surveyable load url) {report : Report}
    (hreport : c.report = some (.ok report)) : Legible load url := by
  have hfated := h.fated hsurveyable
  rw [Fated, hreport] at hfated
  obtain ⟨hended, hfollowed⟩ := hfated
  intro u hu r hr
  obtain ⟨n, o, ho, rfl⟩ := h.grounded.mem_visited_iff.1 (h.visited_of_reaches hended hu)
  have hrefs : o.refs = references load o.url := by
    have hcovered := h.grounded.covered n o ho
    rw [hended] at hcovered
    rcases hcovered with hmem | ⟨answer, hmem⟩ | ⟨hrefs, -⟩
    · cases hmem
    · cases hmem
    · exact hrefs
  obtain ⟨i, hi⟩ := List.getElem?_of_mem (hrefs ▸ hr)
  exact (hfollowed n i o r ho hi).resolve_right nofun

end Crawl

end HtmlDeps.Imports
