import HtmlDeps.Proofs.Crawl.Outcome

/-!
# Import trees

A document may be imported at several places, but it is surveyed once, behind one of them.  So every crawl
comes upon a tree of imports that spans all documents to be reached (`Crawl.Over.spanning`), and reports what
this tree lists (`Crawl.Over.report`).
-/

namespace HtmlDeps.Imports

open Memory

variable {load : Text → Except Fault Text} {url p q v w : Text} {i j : Nat} {picked : Text → Nat → Prop}
  {rs out out' : List Reference}

/-- The import at place `i` of document `p` leads to `v`. -/
def ImportAt (load : Text → Except Fault Text) (p : Text) (i : Nat) (v : Text) : Prop :=
  ∃ r, (references load p)[i]? = some r ∧ Enters r ∧ r.url = v

/-- A picked import leads from one document to another. -/
def Twig (load : Text → Except Fault Text) (picked : Text → Nat → Prop) (p v : Text) : Prop :=
  ∃ i, picked p i ∧ ImportAt load p i v

/-- Of the imports that lead to a document, one is picked, so that all documents that can be reached can be
reached along picked imports, each in one way. -/
structure Spanning (load : Text → Except Fault Text) (url : Text) (picked : Text → Nat → Prop) : Prop where
  imports : ∀ p i, picked p i → Reaches load url p ∧ ∃ v, ImportAt load p i v ∧ v ≠ url
  once : ∀ p i q j v, picked p i → picked q j → ImportAt load p i v → ImportAt load q j v → p = q ∧ i = j
  reaches : ∀ v, Reaches load url v → Relation.ReflTransGen (Twig load picked) url v

/-- What a tree of picked imports lists of a document `p` from place `i` on: its references, and behind each
picked import what the imported document lists. -/
inductive Lists (load : Text → Except Fault Text) (picked : Text → Nat → Prop) :
    Text → Nat → List Reference → List Reference → Prop
  | nil {p : Text} {i : Nat} : Lists load picked p i [] []
  | leaf {p : Text} {i : Nat} {r : Reference} {rs out : List Reference} (h : ¬ picked p i)
      (rest : Lists load picked p (i + 1) rs out) : Lists load picked p i (r :: rs) (r :: out)
  | branch {p : Text} {i : Nat} {r : Reference} {rs below out : List Reference} (h : picked p i)
      (under : Lists load picked r.url 0 (references load r.url) below)
      (rest : Lists load picked p (i + 1) rs out) : Lists load picked p i (r :: rs) (r :: (below ++ out))

theorem ImportAt.imported (h : ImportAt load p i v) : Imported load p v := by
  obtain ⟨r, hr, henters, hurl⟩ := h
  exact ⟨r, List.mem_of_getElem? hr, henters, hurl⟩

theorem ImportAt.unique (h : ImportAt load p i v) (h' : ImportAt load p i w) : v = w := by
  obtain ⟨r, hr, -, rfl⟩ := h
  obtain ⟨r', hr', -, rfl⟩ := h'
  rw [Option.some.inj (hr.symm.trans hr')]

/-- A tree lists one thing. -/
theorem Lists.unique (h : Lists load picked p i rs out) (h' : Lists load picked p i rs out') : out = out' := by
  induction h generalizing out' with
  | nil =>
    cases h'
    rfl
  | leaf hleaf _ ih =>
    cases h' with
    | leaf _ rest => rw [ih rest]
    | branch hbranch => exact absurd hbranch hleaf
  | branch hbranch _ _ ihunder ihrest =>
    cases h' with
    | leaf hleaf => exact absurd hbranch hleaf
    | branch _ under rest => rw [ihunder under, ihrest rest]

namespace Crawl

variable {c c' : Crawl} {t : Thread} {rest : List Thread} {m : Memory} {n k : Nat} {d e : Node}

/-- Behind the import at place `i` of document `p`, a document was surveyed. -/
def Picked (m : Memory) (p : Text) (i : Nat) : Prop :=
  ∃ (n : Nat) (d : Node) (k : Nat), m.nodes[n]? = some d ∧ d.url = p ∧ m.Child n i k

theorem picked_put_iff (hd : m.nodes[n]? = some d) (hurl : e.url = d.url) (hline : e.line = d.line)
    (hslot : e.slot = d.slot) : Picked (m.put n e) p i ↔ Picked m p i := by
  constructor
  · rintro ⟨k, d', c, hd', rfl, hc⟩
    have hc := (child_put_iff hd hline hslot).1 hc
    by_cases hk : n = k
    · subst hk
      obtain rfl := Option.some.inj ((getElem?_put_self hd).symm.trans hd')
      exact ⟨_, d, c, hd, hurl.symm, hc⟩
    · exact ⟨k, d', c, (getElem?_put_ne hk).symm.trans hd', rfl, hc⟩
  · rintro ⟨k, d', c, hd', rfl, hc⟩
    have hc := (child_put_iff hd hline hslot).2 hc
    by_cases hk : n = k
    · subst hk
      obtain rfl := Option.some.inj (hd.symm.trans hd')
      exact ⟨_, e, c, getElem?_put_self hd, hurl, hc⟩
    · exact ⟨k, d', c, (getElem?_put_ne hk).trans hd', rfl, hc⟩

/-! ### What a crawl comes upon -/

theorem Grounded.eq_of_url (h : Grounded load url c) {d' : Node} (hd : c.memory.nodes[n]? = some d)
    (hd' : c.memory.nodes[k]? = some d') (hurl : d.url = d'.url) : n = k := by
  have hlength : n < c.memory.visited.length := by
    rw [h.visited, List.length_map]
    exact (List.getElem?_eq_some_iff.1 (getElem?_outlines hd)).1
  refine (List.getElem?_inj hlength h.nodup).1 ?_
  rw [h.visited, List.getElem?_map, List.getElem?_map, getElem?_outlines hd, getElem?_outlines hd']
  exact congrArg some hurl

theorem Grounded.mem_visited (h : Grounded load url c) (hd : c.memory.nodes[n]? = some d) :
    d.url ∈ c.memory.visited := h.mem_visited_iff.2 ⟨n, _, getElem?_outlines hd, rfl⟩

theorem Grounded.exists_node (h : Grounded load url c) (hv : v ∈ c.memory.visited) :
    ∃ (n : Nat) (d : Node), c.memory.nodes[n]? = some d ∧ d.url = v := by
  obtain ⟨n, o, ho, rfl⟩ := h.mem_visited_iff.1 hv
  obtain ⟨d, hd, rfl⟩ := exists_node_of_outline ho
  exact ⟨n, d, hd, rfl⟩

/-- The first document has no other above it. -/
theorem Grounded.top_node (h : Grounded load url c) :
    ∃ d, c.memory.nodes[0]? = some d ∧ d.url = url ∧ d.line = [] := by
  obtain ⟨o, ho, hurl, hline⟩ := h.top
  obtain ⟨d, hd, rfl⟩ := exists_node_of_outline ho
  exact ⟨d, hd, hurl, hline⟩

theorem Grounded.lt_of_child (h : Grounded load url c) (hchild : c.memory.Child n i k) : n < k := by
  obtain ⟨e, he, hline, -⟩ := hchild
  obtain ⟨above, hline⟩ := List.head?_eq_some_iff.1 hline
  exact (h.below k n _ above (getElem?_outlines he) hline).1

/-- A document in a slot is imported there. -/
theorem Grounded.import_of_child (h : Grounded load url c) (hchild : c.memory.Child n i k)
    (hd : c.memory.nodes[n]? = some d) :
    ∃ e, c.memory.nodes[k]? = some e ∧ n < k ∧ ImportAt load d.url i e.url ∧ e.url ≠ url := by
  obtain ⟨e, he, hline, rfl⟩ := hchild
  obtain ⟨above, hline⟩ := List.head?_eq_some_iff.1 hline
  obtain ⟨hlt, o', r, ho', hr, henters, hurl⟩ := h.below k n _ above (getElem?_outlines he) hline
  obtain rfl := outline_unique hd ho'
  refine ⟨e, he, hlt, ⟨r, ?_, henters, hurl⟩, fun htop => ?_⟩
  · rcases h.refs _ (List.mem_of_getElem? ho') with hnone | hrefs
    · rw [hnone] at hr
      cases hr
    · exact hrefs ▸ hr
  · obtain ⟨d', hd', hurl', -⟩ := h.top_node
    obtain rfl := h.eq_of_url he hd' (htop.trans hurl'.symm)
    exact absurd hlt (Nat.not_lt_zero n)

/-- A document other than the first is in a slot. -/
theorem Grounded.exists_parent (h : Grounded load url c) (htidy : Tidy (fun _ => True) c.memory c.threads)
    (he : c.memory.nodes[k]? = some e) (hne : e.url ≠ url) :
    ∃ n d i, c.memory.nodes[n]? = some d ∧ n < k ∧ c.memory.Child n i k := by
  rcases htidy.below k e he with ⟨-, rfl⟩ | ⟨n, above, r, found, hline, hlt, ⟨d, hd, -⟩, -⟩
  · obtain ⟨d, hd, hurl, -⟩ := h.top_node
    obtain rfl := Option.some.inj (he.symm.trans hd)
    exact absurd hurl hne
  · exact ⟨n, d, e.slot, hd, hlt, e, he, by rw [hline]; rfl, rfl⟩

/-- The crawl has come to its end. -/
structure Over (load : Text → Except Fault Text) (url : Text) (c : Crawl) : Prop where
  grounded : Grounded load url c
  smooth : Smooth c
  ended : c.threads = []

section

variable (h : Over load url c)

include h

theorem Over.references (hd : c.memory.nodes[n]? = some d) :
    d.slots.map (·.1) = references load d.url := by
  have hcovered := h.grounded.covered n _ (getElem?_outlines hd)
  rw [h.ended] at hcovered
  rcases hcovered with hmem | ⟨answer, hmem⟩ | ⟨hrefs, -⟩
  · cases hmem
  · cases hmem
  · exact hrefs

/-- All documents are done. -/
theorem Over.complete (hd : c.memory.nodes[n]? = some d) : d.complete = true := by
  rcases h.smooth.report with ⟨-, hactive⟩ | ⟨-, hwell, -⟩
  · obtain ⟨t, ht⟩ := h.smooth.tidy.exists_thread hactive
    rw [h.ended] at ht
    cases ht
  · obtain ⟨-, d', hd', -, -, hcomplete⟩ := h.smooth.tidy.well (h.ended ▸ hwell) n hd
    obtain rfl := Option.some.inj (hd.symm.trans hd')
    exact hcomplete

/-- The picked imports of a crawl make a tree. -/
theorem Over.spanning : Spanning load url (Picked c.memory) := by
  have hnode : ∀ {p i v}, Picked c.memory p i → ImportAt load p i v →
      ∃ (n k : Nat) (d e : Node), c.memory.nodes[n]? = some d ∧ d.url = p ∧
        c.memory.nodes[k]? = some e ∧ e.url = v ∧ c.memory.Child n i k := by
    rintro p i v ⟨n, d, k, hd, rfl, hchild⟩ hv
    obtain ⟨e, he, -, himport, -⟩ := h.grounded.import_of_child hchild hd
    exact ⟨n, k, d, e, hd, rfl, he, himport.unique hv, hchild⟩
  refine ⟨?_, fun p i q j v hp hq hi hj => ?_, fun v hv => ?_⟩
  · rintro p i ⟨n, d, k, hd, rfl, hchild⟩
    obtain ⟨e, -, -, himport, hne⟩ := h.grounded.import_of_child hchild hd
    exact ⟨h.grounded.reaches_of_visited (h.grounded.mem_visited hd), e.url, himport, hne⟩
  · obtain ⟨n, k, d, e, hd, rfl, he, hv, e₀, he₀, hline, hslot⟩ := hnode hp hi
    obtain ⟨n', k', d', e', hd', rfl, he', hv', e₁, he₁, hline', hslot'⟩ := hnode hq hj
    obtain rfl := h.grounded.eq_of_url he he' (hv.trans hv'.symm)
    obtain rfl := Option.some.inj (he₀.symm.trans he₁)
    obtain rfl := Option.some.inj (hline.symm.trans hline')
    obtain rfl := Option.some.inj (hd.symm.trans hd')
    exact ⟨rfl, hslot.symm.trans hslot'⟩
  · obtain ⟨k, e, he, rfl⟩ := h.grounded.exists_node (h.grounded.visited_of_reaches h.ended hv)
    clear hv
    induction k using Nat.strongRecOn generalizing e with
    | _ k ih =>
      by_cases hurl : e.url = url
      · rw [hurl]
      · obtain ⟨n, d, i, hd, hlt, hchild⟩ := h.grounded.exists_parent h.smooth.tidy he hurl
        obtain ⟨e', he', -, himport, -⟩ := h.grounded.import_of_child hchild hd
        obtain rfl := Option.some.inj (he.symm.trans he')
        exact (ih n hlt d hd).tail ⟨i, ⟨n, d, k, hd, rfl, hchild⟩, himport⟩

/-- Each document lists what the tree of the picked imports lists. -/
theorem Over.lists (hd : c.memory.nodes[n]? = some d) :
    Lists load (Picked c.memory) d.url 0 (Imports.references load d.url) d.listed := by
  -- a document is further down the list than the one it is in
  induction hm : c.memory.nodes.length - n using Nat.strongRecOn generalizing n d with
  | _ m ih =>
    have hslots : ∀ (done slots : List (Reference × Option (List Reference))), d.slots = done ++ slots →
        Lists load (Picked c.memory) d.url done.length (slots.map (·.1))
          (slots.flatMap fun x => x.1 :: x.2.getD []) := by
      intro done slots
      induction slots generalizing done with
      | nil => exact fun _ => .nil
      | cons x slots ihslots =>
        intro heq
        obtain ⟨r, found⟩ := x
        have hslot : d.slots[done.length]? = some (r, found) := by
          rw [heq, List.getElem?_append_right (Nat.le_refl _), Nat.sub_self]
          rfl
        have hrest := ihslots (done ++ [(r, found)]) (by rw [heq, List.append_assoc]; rfl)
        rw [List.length_append, List.length_singleton] at hrest
        obtain ⟨rs, rfl⟩ := exists_found (h.complete hd) hslot
        have hholds := h.smooth.told.filled n done.length r rs ⟨d, hd, hslot⟩
        by_cases hchild : ∃ k, c.memory.Child n done.length k
        · obtain ⟨k, hchild⟩ := hchild
          obtain ⟨e, he, -, rfl⟩ := hholds.1 k hchild
          obtain ⟨e', he', hlt, ⟨r', hr', -, hurl⟩, -⟩ := h.grounded.import_of_child hchild hd
          obtain rfl := Option.some.inj (he.symm.trans he')
          have hr : r' = r := by
            rw [← h.references hd, List.getElem?_map, hslot] at hr'
            exact (Option.some.inj hr').symm
          have hk := (List.getElem?_eq_some_iff.1 he).1
          have hbelow := ih _ (by omega) he rfl
          rw [← hurl, hr] at hbelow
          exact .branch ⟨n, d, k, hd, rfl, hchild⟩ hbelow hrest
        · rw [hholds.2 (not_exists.1 hchild)]
          refine .leaf ?_ hrest
          rintro ⟨n', d', k, hd', hurl, hchild'⟩
          obtain rfl := h.grounded.eq_of_url hd' hd hurl
          exact hchild ⟨k, hchild'⟩
    have hall := hslots [] d.slots rfl
    rwa [h.references hd] at hall

/-- What is reported at the end. -/
theorem Over.report : ∃ ws out, c.report = some (.ok ⟨ws, firsts [] out⟩) ∧
    Lists load (Picked c.memory) url 0 (Imports.references load url) out := by
  rcases h.smooth.report with ⟨-, hactive⟩ | ⟨-, -, d, ws, hd, hreport⟩
  · obtain ⟨t, ht⟩ := h.smooth.tidy.exists_thread hactive
    rw [h.ended] at ht
    cases ht
  · obtain ⟨d', hd', hurl, -⟩ := h.grounded.top_node
    obtain rfl := Option.some.inj (hd.symm.trans hd')
    have hlists := h.lists hd
    rw [hurl] at hlists
    exact ⟨ws, d.listed, hreport, hlists⟩

end

/-! ### Keeping to a tree -/

/-- A thread that is about to enter a document behind an import that is not picked. -/
def Strays (picked : Text → Nat → Prop) (m : Memory) (t : Thread) : Prop :=
  ∃ (n i : Nat) (d : Node) (r : Reference) (found : Option (List Reference)), t = .follow n i ∧
    m.nodes[n]? = some d ∧ d.slots[i]? = some (r, found) ∧ Enters r ∧ r.url ∉ m.visited ∧ ¬ picked d.url i

/-- Other threads keep to the tree. -/
theorem Grounded.keeps {turn : Turn Memory Thread} (h : Grounded load url c) (hturned : Turned c.memory t turn)
    (hkeeps : ∀ p i, Picked c.memory p i → picked p i) (hstrays : ¬ Strays picked c.memory t) :
    ∀ p i, Picked turn.memory p i → picked p i := by
  cases hturned with
  | @spread n d contents refs hd =>
    exact fun p i hp => hkeeps p i
      ((picked_put_iff (e := { d with slots := refs.map (·, none) }) hd rfl rfl rfl).1 hp)
  | @broken n i d f hd =>
    exact fun p i hp => hkeeps p i ((picked_put_iff (e := { d with failed := true }) hd rfl rfl rfl).1 hp)
  | filled hd hopen he =>
    exact fun p i hp => hkeeps p i ((picked_put_iff hd (by rw [he]) (by rw [he]) (by rw [he])).1 hp)
  -- Only a turn that enters a document adds to the tree, and it adds the slot that it followed.
  | @enter n i d r found hd hs henters hnew =>
    rintro p j ⟨k, d', k', hd', rfl, hchild⟩
    have hhere : picked d.url i := by
      by_contra hnot
      exact hstrays ⟨n, i, d, r, found, rfl, hd, hs, henters, hnew, hnot⟩
    have hfresh : c.memory.nodes[c.memory.nodes.length]? = none := List.getElem?_eq_none (Nat.le_refl _)
    rcases child_grow_iff.1 hchild with hchild | ⟨rfl, hk, rfl⟩
    · rcases getElem?_grow_iff.1 hd' with hd' | ⟨rfl, rfl⟩
      · exact hkeeps _ _ ⟨k, d', k', hd', rfl, hchild⟩
      · have hlt := h.lt_of_child hchild
        obtain ⟨e, he, -⟩ := hchild
        exact absurd (List.getElem?_eq_some_iff.1 he).1 (Nat.lt_asymm hlt)
    · obtain rfl := Option.some.inj hk
      rcases getElem?_grow_iff.1 hd' with hd' | ⟨rfl, -⟩
      · obtain rfl := Option.some.inj (hd.symm.trans hd')
        exact hhere
      · cases hfresh.symm.trans hd
  | _ => exact hkeeps

end Crawl

end HtmlDeps.Imports
