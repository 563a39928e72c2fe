import HtmlDeps.Proofs.Path.Project

/-!
# Paths that can be written down

The parts of a path that a text spells are not empty, are not `.`, and hold no slash (`Written`).  Such
a path is read back from its text, so that different paths have different texts.  Whatever is done to
written paths leaves them written, and so the fragments of an anchored layout are.
-/

namespace HtmlDeps

namespace Path

variable {p q : Path}

/-- What can stand between two slashes. -/
def Part (n : Text) : Prop := n ≠ [] ∧ n ≠ dot ∧ .char '/' ∉ n

instance : DecidablePred Part := fun _ => inferInstanceAs (Decidable (_ ∧ _ ∧ _))

def Written (p : Path) : Prop := ∀ n ∈ p.parts, Part n

instance (p : Path) : Decidable p.Written := inferInstanceAs (Decidable (∀ n ∈ p.parts, Part n))

theorem written_ofText (t : Text) : (ofText t).Written := by
  intro n hn
  obtain ⟨hn, hkept⟩ := List.mem_filter.1 hn
  rw [Bool.and_eq_true, decide_eq_true_eq, decide_eq_true_eq] at hkept
  exact ⟨hkept.1, hkept.2, Text.not_mem_of_mem_split hn⟩

/-! ### The text of a written path -/

theorem join_ne_slash {ps : List Text} (h : ∀ n ∈ ps, Part n) (r : Text) :
    Text.join "/" ps ≠ .char '/' :: r := by
  cases ps with
  | nil => exact nofun
  | cons n ps =>
    obtain ⟨hne, -, hslash⟩ := h n List.mem_cons_self
    obtain ⟨g, n, rfl⟩ := List.exists_cons_of_ne_nil hne
    intro heq
    have hg : g = .char '/' := by
      cases ps with
      | nil =>
        rw [Text.join, List.intercalate_singleton] at heq
        exact (List.cons.inj heq).1
      | cons m ps =>
        rw [Text.join_cons_cons] at heq
        exact (List.cons.inj heq).1
    exact hslash (hg ▸ List.mem_cons_self)

theorem partsOf_slash (t : Text) : partsOf (.char '/' :: t) = partsOf t := by
  unfold partsOf
  rw [Text.split, if_pos rfl]
  exact List.filter_cons_of_neg (by simp)

theorem partsOf_join {ps : List Text} (h : ∀ n ∈ ps, Part n) :
    partsOf (Text.join "/" ps) = ps := by
  cases ps with
  | nil => rfl
  | cons n ps =>
    unfold partsOf
    rw [show Text.split (.char '/') (Text.join "/" (n :: ps)) = n :: ps from
      Text.split_join (List.cons_ne_nil n ps) fun m hm => (h m hm).2.2]
    rw [List.filter_eq_self]
    intro m hm
    simp [(h m hm).1, (h m hm).2.1]

/-- A written path is what its text spells. -/
theorem Written.ofText_toText (h : p.Written) : ofText p.toText = p := by
  obtain ⟨a, ps⟩ := p
  have hslash := join_ne_slash h
  have hparts := partsOf_join h
  unfold ofText toText
  cases a with
  | here =>
    cases ps with
    | nil => rfl
    | cons n ps =>
      have hanchor : anchorOf (Text.join "/" (n :: ps)) = .here := by
        have := anchorOf_append hslash []
        rwa [List.nil_append] at this
      dsimp only [Anchor.toText]
      rw [List.nil_append, hanchor, hparts]
  | root =>
    dsimp only [Anchor.toText]
    have htext : ("/" : Text) ++ Text.join "/" ps = .char '/' :: Text.join "/" ps := rfl
    rw [htext, partsOf_slash, hparts, anchorOf_slash_of_ne hslash]
  | doubleRoot =>
    dsimp only [Anchor.toText]
    have htext : ("//" : Text) ++ Text.join "/" ps = .char '/' :: .char '/' :: Text.join "/" ps := rfl
    rw [htext, partsOf_slash, partsOf_slash, hparts, anchorOf_slash_slash_of_ne hslash]

theorem Written.eq_of_toText_eq (h : p.Written) (h' : q.Written) (heq : p.toText = q.toText) :
    p = q := by
  rw [← h.ofText_toText, heq, h'.ofText_toText]

/-! ### What keeps paths written -/

theorem Written.extend (h : p.Written) {ps : List Text}
    (hps : ∀ n ∈ ps, Part n) : (p.extend ps).Written := by
  intro n hn
  exact (List.mem_append.1 hn).elim (h n) (hps n)

theorem Written.join (h : p.Written) (h' : q.Written) : (p.join q).Written := by
  unfold Path.join
  split
  · exact h'
  · exact h.extend h'

theorem Written.normal (h : p.Written) : p.normal.Written :=
  fun n hn => h n (mem_of_mem_resolveParts hn)

theorem Written.expandHome {homes : Homes} (h : p.Written) (hq : p.expandHome homes = some q) :
    q.Written := by
  unfold Path.expandHome at hq
  split at hq
  · rename_i user rest hanchor hparts
    have hrest : ∀ n ∈ rest, Part n := by
      intro n hn
      exact h n (hparts ▸ List.mem_cons_of_mem _ hn)
    split at hq
    · cases hq
    · rw [← Option.some.inj hq]
      exact (written_ofText _).extend hrest
    · cases hq
  · exact Option.some.inj hq ▸ h

end Path

/-! ### The fragments of a layout -/

namespace Project

variable {m : Glob.Matcher} {cwd q : Path} {homes : Homes} {l : Layout} {p : Project}

theorem written_of_atHome {f : Path} (hf : f.Written) (h : f.atHome homes = .ok q) : q.Written := by
  unfold Path.atHome at h
  cases hhome : f.expandHome homes with
  | none =>
    rw [hhome] at h
    cases h
  | some f' =>
    rw [hhome] at h
    exact Except.ok.inj h ▸ hf.expandHome hhome

/-- The fragments of a layout that was written down. -/
theorem written_of_anchor (hcwd : cwd.Written) (hroot : l.root.Written) (hmembers : ∀ m ∈ l.members, m.Written)
    (h : l.anchor m cwd homes = .ok p) : ∀ f ∈ p.allFragments, f.Written := by
  obtain ⟨root, hr, hbase, -⟩ := anchor_eq_ok h
  have hbase : p.root.Written := hbase ▸ (hcwd.join (written_of_atHome hroot hr)).normal
  intro f hf
  obtain ⟨m, hm, q, hq, rfl⟩ := (mem_allFragments_of_anchor h).1 hf
  exact (hbase.join (written_of_atHome (hmembers m hm) hq)).normal

end Project

end HtmlDeps
