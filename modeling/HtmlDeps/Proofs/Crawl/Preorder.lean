import HtmlDeps.Proofs.Crawl.Trees

/-!
# The depth-first order of imports

Going through the imports depth first, each document is expanded where it is first come upon (`Preorder`).  A
crawl need not follow this order: which of several imports a document is surveyed behind depends on the order
in which the texts arrive.  It does not matter if no document with references of its own is imported at two
places that can both be reached without it (`Unshared`).
-/

namespace HtmlDeps.Imports

open Relation

variable {load : Text → Except Fault Text} {url p u v w : Text} {i j : Nat} {picked : Text → Nat → Prop}
  {seen seen' seen'' : List Text} {rs out out' : List Reference}

/-- The references `rs` and what is behind them, depth first, where the documents in `seen` were come upon
before: an import is expanded if its document was not, and only then. -/
inductive Preorder (load : Text → Except Fault Text) :
    List Text → List Reference → List Reference → List Text → Prop
  | nil {seen : List Text} : Preorder load seen [] [] seen
  | leaf {seen seen' : List Text} {r : Reference} {rs out : List Reference} (h : Enters r → r.url ∈ seen)
      (rest : Preorder load seen rs out seen') : Preorder load seen (r :: rs) (r :: out) seen'
  | branch {seen seen' seen'' : List Text} {r : Reference} {rs below out : List Reference} (henters : Enters r)
      (hnew : r.url ∉ seen) (under : Preorder load (r.url :: seen) (references load r.url) below seen')
      (rest : Preorder load seen' rs out seen'') : Preorder load seen (r :: rs) (r :: (below ++ out)) seen''

theorem Preorder.unique (h : Preorder load seen rs out seen') (h' : Preorder load seen rs out' seen'') :
    out = out' ∧ seen' = seen'' := by
  induction h generalizing out' seen'' with
  | nil =>
    cases h'
    exact ⟨rfl, rfl⟩
  | leaf hleaf _ ih =>
    cases h' with
    | leaf _ rest =>
      obtain ⟨rfl, rfl⟩ := ih rest
      exact ⟨rfl, rfl⟩
    | branch henters hnew => exact absurd (hleaf henters) hnew
  | branch henters hnew _ _ ihunder ihrest =>
    cases h' with
    | leaf hleaf => exact absurd (hleaf henters) hnew
    | branch _ _ under rest =>
      obtain ⟨rfl, rfl⟩ := ihunder under
      obtain ⟨rfl, rfl⟩ := ihrest rest
      exact ⟨rfl, rfl⟩

theorem Preorder.subset (h : Preorder load seen rs out seen') : seen ⊆ seen' := by
  induction h with
  | nil => exact fun _ => id
  | leaf _ _ ih => exact ih
  | branch _ _ _ _ ihunder ihrest => exact fun u hu => ihrest (ihunder (List.mem_cons_of_mem _ hu))

/-- Among finitely many documents, the depth-first order comes to its end. -/
theorem exists_preorder {urls : Finset Text} (hclosed : ∀ u ∈ urls, ∀ v, Imported load u v → v ∈ urls)
    (seen : List Text) (rs : List Reference) (hrs : ∀ r ∈ rs, Enters r → r.url ∈ urls) :
    ∃ out seen', Preorder load seen rs out seen' := by
  induction hm : (urls \ seen.toFinset).card using Nat.strongRecOn generalizing seen rs with
  | _ m ih =>
    induction rs with
    | nil => exact ⟨[], seen, .nil⟩
    | cons r rs ihrs =>
      have hrest := fun x hx => hrs x (List.mem_cons_of_mem r hx)
      by_cases hexpand : Enters r ∧ r.url ∉ seen
      · obtain ⟨henters, hnew⟩ := hexpand
        have hurl := hrs r List.mem_cons_self henters
        have hless : ∀ {seen' : List Text}, r.url :: seen ⊆ seen' →
            (urls \ seen'.toFinset).card < m := fun hsubset => hm ▸
          Crawl.card_unseen_lt hurl hnew (fun _ hu => hsubset (List.mem_cons_of_mem _ hu))
            (hsubset List.mem_cons_self)
        obtain ⟨below, seen₁, hunder⟩ := ih _ (hless fun _ => id) (r.url :: seen) (references load r.url)
          (fun x hx henters => hclosed _ hurl _ ⟨x, hx, henters, rfl⟩) rfl
        obtain ⟨out, seen₂, hafter⟩ := ih _ (hless hunder.subset) seen₁ rs hrest rfl
        exact ⟨_, seen₂, .branch henters hnew hunder hafter⟩
      · obtain ⟨out, seen', hafter⟩ := ihrs hrest
        exact ⟨_, seen', .leaf (fun henters => by_contra fun hnew => hexpand ⟨henters, hnew⟩) hafter⟩

/-! ### Trees -/

section

variable (h : Spanning load url picked)

include h

theorem Spanning.parent_unique {a b : Text} (ha : Twig load picked a v) (hb : Twig load picked b v) :
    a = b := by
  obtain ⟨i, hi, hleads⟩ := ha
  obtain ⟨j, hj, hleads'⟩ := hb
  exact (h.once a i b j v hi hj hleads hleads').1

/-- No document is above the first one. -/
theorem Spanning.not_twig_top : ¬ Twig load picked p url := by
  rintro ⟨i, hi, himport⟩
  obtain ⟨-, v, himport', hne⟩ := h.imports p i hi
  exact hne (himport'.unique himport)

/-- No document is above itself. -/
theorem Spanning.acyclic (hp : Reaches load url p) : ¬ TransGen (Twig load picked) p p := by
  intro hcycle
  -- otherwise, all documents on the way from the first one would be below it, also the first
  have hbelow : TransGen (Twig load picked) p url := by
    refine (h.reaches p hp).head_induction_on hcycle fun {a b} hab _ ih => ?_
    obtain ⟨a', ha', hlast⟩ := TransGen.tail'_iff.1 ih
    obtain rfl := h.parent_unique hab hlast
    rcases reflTransGen_iff_eq_or_transGen.1 ha' with heq | hway
    · exact heq ▸ hcycle
    · exact hway
  obtain ⟨a, -, hlast⟩ := TransGen.tail'_iff.1 hbelow
  exact h.not_twig_top hlast

/-- Of two documents above a third one, one is above the other. -/
theorem Spanning.comparable (hv : ReflTransGen (Twig load picked) v u)
    (hw : ReflTransGen (Twig load picked) w u) :
    ReflTransGen (Twig load picked) v w ∨ ReflTransGen (Twig load picked) w v := by
  have hunique : Relator.RightUnique (Function.swap (Twig load picked)) := fun _ _ _ ha hb =>
    h.parent_unique ha hb
  have htotal := ReflTransGen.total_of_right_unique hunique (reflTransGen_swap.2 hv) (reflTransGen_swap.2 hw)
  exact (htotal.imp reflTransGen_swap.1 reflTransGen_swap.1).symm

end

/-! ### Documents that are not shared -/

/-- A document can be reached without another one. -/
def ReachesWithout (load : Text → Except Fault Text) (v url p : Text) : Prop :=
  ReflTransGen (fun a b => Imported load a b ∧ b ≠ v) url p

/-- A document with references of its own is imported at one place only that can be reached without it. -/
def Unshared (load : Text → Except Fault Text) (url : Text) : Prop :=
  ∀ v, v ≠ url → references load v ≠ [] → ∀ p i q j, ImportAt load p i v → ImportAt load q j v →
    ReachesWithout load v url p → ReachesWithout load v url q → p = q ∧ i = j

theorem twig_imported {p v : Text} (h : Twig load picked p v) : Imported load p v := by
  obtain ⟨i, -, himport⟩ := h
  exact himport.imported

/-- On the way to a document in the tree, there are the documents above it. -/
theorem reachesWithout_of_above (h : ReflTransGen (Twig load picked) url p)
    (hnot : ¬ ReflTransGen (Twig load picked) v p) : ReachesWithout load v url p := by
  induction h with
  | refl => exact .refl
  | @tail a b _ htwig ih =>
    refine (ih fun habove => hnot (habove.tail htwig)).tail ⟨twig_imported htwig, fun heq => hnot ?_⟩
    rw [heq]

/-- The document above another one can be reached without that. -/
theorem Spanning.exists_parent (h : Spanning load url picked) (hv : Reaches load url v) (hne : v ≠ url) :
    ∃ q j, picked q j ∧ ImportAt load q j v ∧ ReachesWithout load v url q := by
  rcases reflTransGen_iff_eq_or_transGen.1 (h.reaches v hv) with heq | hway
  · exact absurd heq hne
  · obtain ⟨q, hq, j, hj, himport⟩ := TransGen.tail'_iff.1 hway
    refine ⟨q, j, hj, himport, reachesWithout_of_above hq fun habove => h.acyclic hv ?_⟩
    exact TransGen.tail' habove ⟨j, hj, himport⟩

/-- A document is behind one of the picked imports of `p` from place `i` on. -/
def Ahead (load : Text → Except Fault Text) (picked : Text → Nat → Prop) (p : Text) (i : Nat) (u : Text) : Prop :=
  ∃ j w, i ≤ j ∧ picked p j ∧ ImportAt load p j w ∧ ReflTransGen (Twig load picked) w u

theorem Ahead.mono (h : Ahead load picked p (i + 1) u) : Ahead load picked p i u := by
  obtain ⟨j, w, hj, hrest⟩ := h
  exact ⟨j, w, Nat.le_of_succ_le hj, hrest⟩

/-- What is ahead in a document is below it. -/
theorem Ahead.below (h : Ahead load picked p i u) : TransGen (Twig load picked) p u := by
  obtain ⟨j, w, -, hj, himport, hway⟩ := h
  exact TransGen.head' ⟨j, hj, himport⟩ hway

/-- What is behind one import is not behind a later one, too. -/
theorem Spanning.not_ahead (h : Spanning load url picked) (hp : Reaches load url p) (hi : picked p i)
    (himport : ImportAt load p i v) (hway : ReflTransGen (Twig load picked) v u) :
    ¬ Ahead load picked p (i + 1) u := by
  rintro ⟨j, w, hij, hj, himport', hway'⟩
  have hnot : ∀ {a b : Text}, Twig load picked p a → Twig load picked p b → a ≠ b →
      ¬ ReflTransGen (Twig load picked) a b := by
    intro a b ha hb hne hab
    -- the way to `b` would end with the import in `p`, which is above `a`
    obtain ⟨q, hq, hlast⟩ := TransGen.tail'_iff.1 ((reflTransGen_iff_eq_or_transGen.1 hab).resolve_left hne.symm)
    obtain rfl := h.parent_unique hlast hb
    exact h.acyclic hp (TransGen.head' ha hq)
  by_cases heq : v = w
  · subst heq
    obtain ⟨-, rfl⟩ := h.once p i p j v hi hj himport himport'
    exact absurd hij (Nat.not_succ_le_self i)
  · rcases h.comparable hway hway' with habove | habove
    · exact hnot ⟨i, hi, himport⟩ ⟨j, hj, himport'⟩ heq habove
    · exact hnot ⟨j, hj, himport'⟩ ⟨i, hi, himport⟩ (Ne.symm heq) habove

/-- A document that is not shared and was not come upon before has no references if it is imported where it is
not picked. -/
theorem Spanning.bare_of_unpicked (h : Spanning load url picked) (hunshared : Unshared load url)
    (hp : Reaches load url p) (himport : ImportAt load p i v) (hnot : ¬ picked p i) (hne : v ≠ url)
    (habove : ¬ ReflTransGen (Twig load picked) v p) : references load v = [] := by
  by_contra hrefs
  obtain ⟨q, j, hj, himport', hwithout⟩ := h.exists_parent (hp.tail himport.imported) hne
  obtain ⟨rfl, rfl⟩ := hunshared v hne hrefs p i q j himport himport'
    (reachesWithout_of_above (h.reaches p hp) habove) hwithout
  exact hnot hj

/-- Above a document that is picked in `p` are itself and those above `p`. -/
theorem Spanning.above_picked (h : Spanning load url picked) (hi : picked p i) (himport : ImportAt load p i v)
    {seen : List Text} (habove : ∀ x, ReflTransGen (Twig load picked) x p → x ∈ seen) (x : Text)
    (hx : ReflTransGen (Twig load picked) x v) : x ∈ v :: seen := by
  rcases reflTransGen_iff_eq_or_transGen.1 hx with heq | hx
  · exact heq ▸ List.mem_cons_self
  · obtain ⟨q, hq, hlast⟩ := TransGen.tail'_iff.1 hx
    obtain rfl := h.parent_unique hlast ⟨i, hi, himport⟩
    exact List.mem_cons_of_mem _ (habove x hq)

theorem drop_eq_cons {α : Type} {l rest : List α} {x : α} (h : l.drop i = x :: rest) :
    l[i]? = some x ∧ l.drop (i + 1) = rest := by
  have hget := congrArg (·[0]?) h
  rw [List.getElem?_drop] at hget
  exact ⟨hget, by rw [← List.tail_drop, h, List.tail_cons]⟩

/-- **A tree in which no document is shared** is listed depth first. -/
theorem Lists.preorder (hspanning : Spanning load url picked) (hunshared : Unshared load url)
    (h : Lists load picked p i rs out) (hp : Reaches load url p) (hrs : (references load p).drop i = rs)
    (seen : List Text) (habove : ∀ x, ReflTransGen (Twig load picked) x p → x ∈ seen)
    (hahead : ∀ u ∈ seen, references load u ≠ [] → ¬ Ahead load picked p i u) :
    ∃ seen', Preorder load seen rs out seen' ∧
      ∀ u ∈ seen', references load u ≠ [] → u ∈ seen ∨ Ahead load picked p i u := by
  induction h generalizing seen with
  | nil => exact ⟨seen, .nil, fun u hu _ => .inl hu⟩
  | @leaf p i r rs out hleaf _ ih =>
    obtain ⟨hr, hrest⟩ := drop_eq_cons hrs
    have hlater : ∀ u ∈ seen, references load u ≠ [] → ¬ Ahead load picked p (i + 1) u :=
      fun u hu hrefs hu' => hahead u hu hrefs hu'.mono
    by_cases hexpand : Enters r ∧ r.url ∉ seen
    · -- the document was come upon elsewhere, but has nothing to list
      obtain ⟨henters, hnew⟩ := hexpand
      have himport : ImportAt load p i r.url := ⟨r, hr, henters, rfl⟩
      have hbare : references load r.url = [] := hspanning.bare_of_unpicked hunshared hp himport hleaf
        (fun heq => hnew (heq ▸ habove url (hspanning.reaches p hp))) fun hup => hnew (habove _ hup)
      obtain ⟨seen', hout, hseen'⟩ := ih hp hrest (r.url :: seen)
        (fun x hx => List.mem_cons_of_mem _ (habove x hx)) fun u hu hrefs => by
          rcases List.mem_cons.1 hu with rfl | hu
          · exact absurd hbare hrefs
          · exact hlater u hu hrefs
      have hunder : Preorder load (r.url :: seen) (references load r.url) [] (r.url :: seen) := by
        rw [hbare]
        exact .nil
      refine ⟨seen', .branch henters hnew hunder hout, fun u hu hrefs => ?_⟩
      rcases hseen' u hu hrefs with hu | hu
      · rcases List.mem_cons.1 hu with rfl | hu
        · exact absurd hbare hrefs
        · exact .inl hu
      · exact .inr hu.mono
    · obtain ⟨seen', hout, hseen'⟩ := ih hp hrest seen habove hlater
      refine ⟨seen', .leaf (fun henters => by_contra fun hnew => hexpand ⟨henters, hnew⟩) hout,
        fun u hu hrefs => ?_⟩
      exact (hseen' u hu hrefs).imp_right Ahead.mono
  | @branch p i r rs below out hpicked hunder _ ihunder ihrest =>
    obtain ⟨hr, hrest⟩ := drop_eq_cons hrs
    obtain ⟨-, v, himport, hne⟩ := hspanning.imports p i hpicked
    obtain ⟨r', hr', henters, rfl⟩ := id himport
    obtain rfl := Option.some.inj (hr.symm.trans hr')
    have hbelow : ∀ {u : Text}, ReflTransGen (Twig load picked) r.url u → Ahead load picked p i u :=
      fun hway => ⟨i, r.url, le_rfl, hpicked, himport, hway⟩
    by_cases hnew : r.url ∈ seen
    · -- a document that was come upon before is not ahead, unless it has nothing to list
      have hbare : references load r.url = [] := by_contra fun hrefs => hahead _ hnew hrefs (hbelow .refl)
      obtain rfl : below = [] := by
        rw [hbare] at hunder
        cases hunder
        rfl
      obtain ⟨seen', hout, hseen'⟩ := ihrest hp hrest seen habove fun u hu hrefs hu' => hahead u hu hrefs hu'.mono
      exact ⟨seen', .leaf (fun _ => hnew) hout, fun u hu hrefs => (hseen' u hu hrefs).imp_right Ahead.mono⟩
    · have hreached : Reaches load url r.url := hp.tail himport.imported
      obtain ⟨seen₁, hunder', hseen₁⟩ := ihunder hreached rfl (r.url :: seen)
        (hspanning.above_picked hpicked himport habove) fun u hu hrefs hu' => by
          rcases List.mem_cons.1 hu with rfl | hu
          · exact hspanning.acyclic hreached hu'.below
          · exact hahead u hu hrefs (hbelow hu'.below.to_reflTransGen)
      have hfound : ∀ u ∈ seen₁, references load u ≠ [] →
          u ∈ seen ∨ ReflTransGen (Twig load picked) r.url u := by
        intro u hu hrefs
        rcases hseen₁ u hu hrefs with hu | hu
        · rcases List.mem_cons.1 hu with rfl | hu
          · exact .inr .refl
          · exact .inl hu
        · exact .inr hu.below.to_reflTransGen
      obtain ⟨seen', hout, hseen'⟩ := ihrest hp hrest seen₁
        (fun x hx => hunder'.subset (List.mem_cons_of_mem _ (habove x hx))) fun u hu hrefs hu' => by
          rcases hfound u hu hrefs with hu | hway
          · exact hahead u hu hrefs hu'.mono
          · exact hspanning.not_ahead hp hpicked himport hway hu'
      refine ⟨seen', .branch henters hnew hunder' hout, fun u hu hrefs => ?_⟩
      rcases hseen' u hu hrefs with hu | hu
      · exact (hfound u hu hrefs).imp_right hbelow
      · exact .inr hu.mono

end HtmlDeps.Imports
