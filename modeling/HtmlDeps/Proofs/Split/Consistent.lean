import Mathlib.Data.List.Perm.Subperm
import HtmlDeps.Proofs.Split.Groups

/-!
# The two tables of a ledger

A ledger says twice which script belongs to which document: in the cut of the document, and in the table
of owners.  The two agree (`Ledger.Consistent`) as long as every cut that is recorded claims no key of
another document and lists all the keys of the cut that it replaces (`Ledger.consistent_record_iff`).
Forgetting a cut keeps them in agreement.  A second stage that starts on such a ledger finds every part of
a group that is complete by number (`Stage.take_cases`), so only a carrier that was changed can stop it.
-/

namespace HtmlDeps

/-- The keys of the scripts that were cut out. -/
def Cut.partKeys (c : Cut) : List Text := c.parts.map (·.path.key)

namespace Ledger

/-- Document `o` has been cut, and `k` is the key of one of its scripts. -/
def Lists (l : Ledger) (o k : Text) : Prop := ∃ c, l.cuts.get? o = some c ∧ k ∈ c.partKeys

/-- The owners are the documents on record, each of its own scripts. -/
def Consistent (l : Ledger) : Prop := ∀ k o, l.owners.get? k = some o ↔ l.Lists o k

/-- Every cut stands under the key of its document. -/
def Keyed (l : Ledger) : Prop := ∀ k c, l.cuts.get? k = some c → c.path.key = k

/-- A cut that claims no key of another document, and gives up none of the cut that it replaces. -/
structure Admits (l : Ledger) (c : Cut) : Prop where
  unclaimed : ∀ k ∈ c.partKeys, ∀ o, l.owners.get? k = some o → o = c.path.key
  covering : ∀ old, l.cuts.get? c.path.key = some old → old.partKeys ⊆ c.partKeys

/-- The document to which a file belongs: its owner, or else the file itself. -/
def ownerOf (l : Ledger) (f : File) : Text := (l.owners.get? f.path.key).getD f.path.key

variable {l : Ledger} {c : Cut} {k o : Text}

theorem get?_owners_record (l : Ledger) (c : Cut) (k : Text) :
    (l.record c).owners.get? k = if k ∈ c.partKeys then some c.path.key else l.owners.get? k := by
  rw [owners_record]
  split
  · exact Table.get?_foldl_put_of_mem _ ‹_›
  · exact Table.get?_foldl_put_of_not_mem _ ‹_›

theorem lists_record_self : (l.record c).Lists c.path.key k ↔ k ∈ c.partKeys := by
  simp [Lists, get?_cuts_record]

theorem lists_record_of_ne (h : c.path.key ≠ o) : (l.record c).Lists o k ↔ l.Lists o k := by
  simp [Lists, record, Table.get?_put, h]

theorem lists_forget : (l.forget c).Lists o k ↔ c.path.key ≠ o ∧ l.Lists o k := by
  by_cases h : c.path.key = o <;> simp [Lists, get?_cuts_forget, h]

theorem consistent_empty : empty.Consistent := by
  simp [Consistent, Lists, empty, Table.get?]

theorem Keyed.forget (h : l.Keyed) (c : Cut) : (l.forget c).Keyed := by
  intro k d hd
  rw [get?_cuts_forget] at hd
  split at hd
  · cases hd
  · exact h k d hd

theorem Consistent.forget (h : l.Consistent) (hc : l.cuts.get? c.path.key = some c) :
    (l.forget c).Consistent := by
  have hown : ∀ k ∈ c.partKeys, l.owners.get? k = some c.path.key :=
    fun k hk => (h k _).2 ⟨c, hc, hk⟩
  intro k o
  rw [get?_owners_forget, ← Cut.partKeys, lists_forget]
  by_cases hk : k ∈ c.partKeys
  · rw [if_pos hk]
    constructor
    · intro hnone
      cases hnone
    · rintro ⟨hne, hlists⟩
      have howner := (h k o).2 hlists
      rw [hown k hk] at howner
      exact absurd (Option.some.inj howner) hne
  · rw [if_neg hk, h k o]
    constructor
    · rintro ⟨d, hd, hkd⟩
      refine ⟨?_, d, hd, hkd⟩
      rintro rfl
      rw [hc] at hd
      cases hd
      exact hk hkd
    · exact fun hlists => hlists.2

/-- The two tables agree after a cut exactly if the ledger admits it. -/
theorem consistent_record_iff (h : l.Consistent) : (l.record c).Consistent ↔ l.Admits c := by
  constructor
  · intro hrecord
    constructor
    · -- another owner would go on listing the key
      intro k hk o howner
      by_contra hne
      have hlists := (lists_record_of_ne (Ne.symm hne)).2 ((h k o).1 howner)
      have hboth := (hrecord k o).2 hlists
      rw [get?_owners_record, if_pos hk] at hboth
      exact hne (Option.some.inj hboth).symm
    · -- a key that was given up would go on having its owner
      intro old hold k hk
      by_contra hnot
      have howner : (l.record c).owners.get? k = some c.path.key := by
        rw [get?_owners_record, if_neg hnot]
        exact (h k _).2 ⟨old, hold, hk⟩
      exact hnot (lists_record_self.1 ((hrecord k _).1 howner))
  · intro hadmits k o
    rw [get?_owners_record]
    by_cases ho : c.path.key = o
    · subst ho
      rw [lists_record_self]
      constructor
      · intro howner
        split at howner
        · assumption
        · obtain ⟨old, hold, hk⟩ := (h k _).1 howner
          exact hadmits.covering old hold hk
      · exact fun hk => if_pos hk
    · rw [lists_record_of_ne ho, ← h k o]
      constructor
      · intro howner
        split at howner
        · exact absurd (Option.some.inj howner) ho
        · exact howner
      · intro howner
        rw [if_neg fun hk => ho (hadmits.unclaimed k hk o howner).symm]
        exact howner

/-- What a file belongs to is itself, or lists it. -/
theorem Consistent.eq_or_lists (h : l.Consistent) (f : File) :
    f.path.key = l.ownerOf f ∨ l.Lists (l.ownerOf f) f.path.key := by
  unfold ownerOf
  cases howner : l.owners.get? f.path.key with
  | none => exact .inl rfl
  | some o => exact .inr ((h _ _).1 howner)

theorem ownerOf_forget (h : l.Consistent) (hc : l.cuts.get? c.path.key = some c) {f : File}
    (hne : l.ownerOf f ≠ c.path.key) : (l.forget c).ownerOf f = l.ownerOf f := by
  unfold ownerOf at hne ⊢
  rw [get?_owners_forget, if_neg]
  intro hk
  rw [(h f.path.key c.path.key).2 ⟨c, hc, hk⟩] at hne
  exact hne rfl

/-! ### Joining -/

variable {sel : Selector} {group : Table Text File}

theorem exists_bodies {ps : List Part} (h : ∀ p ∈ ps, p.path.key ∈ group.keys) :
    ∃ bs, bodies group ps = .ok bs := by
  induction ps with
  | nil => exact ⟨[], rfl⟩
  | cons p ps ih =>
    obtain ⟨bs, hbs⟩ := ih fun q hq => h q (List.mem_cons_of_mem p hq)
    have hp := (Table.mem_keys_iff group _).1 (h p List.mem_cons_self)
    obtain ⟨f, hf⟩ := Option.isSome_iff_exists.1 hp
    exact ⟨f.text :: bs, by simp [bodies, hf, hbs, bind, Except.bind, pure, Except.pure]⟩

end Ledger

/-- A carrier that was changed does not fit its cut any more, or cannot be searched at all. -/
inductive SplitFault.Unfit (c : Cut) : SplitFault → Prop
  | count {n : Nat} : n ≠ c.parts.length → Unfit c (.regionCount c.path n c.parts.length)
  | markup (e : MarkupFault) : Unfit c (.markup e)

namespace Ledger

variable {sel : Selector} {l : Ledger} {c : Cut} {group : Table Text File}

/-- Where carrier and scripts are all there, only the carrier's regions can be in the way. -/
theorem join_cases (sel : Selector) (l : Ledger) (hcarrier : c.path.key ∈ group.keys)
    (hparts : c.partKeys ⊆ group.keys) :
    (∃ joined : File, joined.path = c.path ∧ l.join sel c group = .ok (l.forget c, joined)) ∨
      ∃ e, SplitFault.Unfit c e ∧ l.join sel c group = .error e := by
  obtain ⟨carrier, hget⟩ := Option.isSome_iff_exists.1 ((Table.mem_keys_iff group _).1 hcarrier)
  have hbodies : ∃ bs, bodies group c.parts = .ok bs :=
    exists_bodies fun p hp => hparts (List.mem_map_of_mem hp)
  obtain ⟨bs, hbs⟩ := hbodies
  cases hranges : ranges sel c carrier with
  | ok rs =>
    let joined : File := ⟨c.path, Text.encode (splice carrier.text 0 (rs.zip bs))⟩
    exact .inl ⟨joined, rfl, by simp only [join, hget, hbs, hranges, joined]⟩
  | error e =>
    refine .inr ⟨e, ?_, by simp only [join, hget, hbs, hranges]⟩
    unfold ranges at hranges
    split at hranges
    · cases hranges
    · split at hranges
      · cases hranges
        exact .markup _
      · split at hranges
        · cases hranges
        · cases hranges
          exact .count ‹_›

end Ledger

/-! ### Groups under way -/

namespace Stage

/-- Every group holds pieces of one document on record, and each of them once. -/
def Tidy (l : Ledger) (gs : Groups) : Prop :=
  ∀ o group, gs.get? o = some group →
    group.keys.Nodup ∧ ∃ c, l.cuts.get? o = some c ∧ group.keys ⊆ o :: c.partKeys

variable {sel : Selector} {l : Ledger} {gs : Groups} {c : Cut} {f : File} {o : Text}
  {group : Table Text File}

theorem tidy_nil (l : Ledger) : Tidy l [] := by
  intro o group h
  cases h

theorem Tidy.forget (h : Tidy l gs) (hkey : c.path.key = o) : Tidy (l.forget c) (gs.erase o) := by
  intro o' group hget
  rw [Table.get?_erase] at hget
  split at hget
  · cases hget
  · obtain ⟨hnodup, d, hd, hsub⟩ := h o' group hget
    refine ⟨hnodup, d, ?_, hsub⟩
    rw [Ledger.get?_cuts_forget, if_neg (hkey ▸ ‹_›), hd]

/-- A group as it stands, whether it has been opened or not. -/
theorem Tidy.groupOf (h : Tidy l gs) (hc : l.cuts.get? o = some c) :
    (groupOf gs o).keys.Nodup ∧ (groupOf gs o).keys ⊆ o :: c.partKeys := by
  unfold Stage.groupOf
  cases hget : gs.get? o with
  | none => exact ⟨List.nodup_nil, List.nil_subset _⟩
  | some group =>
    obtain ⟨hnodup, d, hd, hsub⟩ := h o group hget
    rw [hc] at hd
    cases hd
    exact ⟨hnodup, hsub⟩

theorem Tidy.put (h : Tidy l gs) (hc : l.cuts.get? o = some c) (hnodup : group.keys.Nodup)
    (hsub : group.keys ⊆ o :: c.partKeys) : Tidy l (gs.put o group) := by
  intro o' group' hget
  rw [Table.get?_put] at hget
  split at hget
  · cases hget
    subst o'
    exact ⟨hnodup, c, hc, hsub⟩
  · exact h o' group' hget

/-- A group of as many pieces as were cut has every one of them. -/
theorem full_of_length (hnodup : group.keys.Nodup) (hsub : group.keys ⊆ o :: c.partKeys)
    (hlength : group.length = c.parts.length + 1) : o :: c.partKeys ⊆ group.keys := by
  have hperm : group.keys.Perm (o :: c.partKeys) := by
    refine (List.subperm_of_subset hnodup hsub).perm_of_length_le ?_
    rw [List.length_cons, Cut.partKeys, List.length_map, Table.keys, List.length_map, hlength]
  exact hperm.symm.subset

/-- A second stage under way. -/
structure InOrder (l : Ledger) (gs : Groups) : Prop where
  consistent : l.Consistent
  keyed : l.Keyed
  tidy : Tidy l gs

/-- What taking one file comes to. -/
inductive Takes (l : Ledger) (gs : Groups) (f : File) : Except SplitFault Taken → Prop
  -- The file belongs to no document on record.
  | pass : l.cuts.get? (l.ownerOf f) = none → Takes l gs f (.ok ⟨l, gs, some f⟩)
  | store (c : Cut) (group : Table Text File) :  -- The file waits for other pieces of its document.
    l.cuts.get? (l.ownerOf f) = some c → Tidy l (gs.put (l.ownerOf f) group) →
      Takes l gs f (.ok ⟨l, gs.put (l.ownerOf f) group, none⟩)
  | join (c : Cut) (joined : File) :  -- The file is the last piece.
    l.cuts.get? (l.ownerOf f) = some c → joined.path = c.path →
      Takes l gs f (.ok ⟨l.forget c, gs.erase (l.ownerOf f), some joined⟩)
  -- The file is the last piece, but the carrier does not take the scripts back.
  | unfit (c : Cut) (e : SplitFault) :
    l.cuts.get? (l.ownerOf f) = some c → SplitFault.Unfit c e → Takes l gs f (.error e)

namespace InOrder

theorem takes (h : InOrder l gs) (sel : Selector) (f : File) :
    Takes l gs f (take sel l gs f) := by
  cases hc : l.cuts.get? (l.ownerOf f) with
  | none =>
    have htake : take sel l gs f = .ok ⟨l, gs, some f⟩ := by
      have hnone := hc
      rw [Ledger.ownerOf] at hnone
      simp only [take, hnone]
    rw [htake]
    exact .pass hc
  | some c =>
    obtain ⟨hnodup, hsub⟩ := h.tidy.groupOf hc
    rw [take_owned sel gs f hc rfl]
    -- The file is the carrier or a part that the cut lists; the group never has another.
    have hkey : f.path.key ∈ l.ownerOf f :: c.partKeys := by
      rcases h.consistent.eq_or_lists f with hself | ⟨d, hd, hk⟩
      · exact hself ▸ List.mem_cons_self
      · rw [hc] at hd
        cases hd
        exact List.mem_cons_of_mem _ hk
    have hnodup' := Table.nodup_keys_put hnodup f.path.key f
    have hsub' : ((groupOf gs (l.ownerOf f)).put f.path.key f).keys ⊆
        l.ownerOf f :: c.partKeys := by
      intro k hk
      rcases Table.mem_keys_put.1 hk with rfl | hk
      · exact hkey
      · exact hsub hk
    split
    · rename_i hcomplete
      rw [Bool.and_eq_true, decide_eq_true_eq] at hcomplete
      -- As many different keys as there are pieces, and none from elsewhere: every piece is there.
      have hfull := full_of_length hnodup' hsub' hcomplete.1
      have hpath := h.keyed _ _ hc
      rcases Ledger.join_cases sel l (hpath ▸ hfull List.mem_cons_self)
          (fun k hk => hfull (List.mem_cons_of_mem _ hk)) with
        ⟨joined, hjoined, hjoin⟩ | ⟨e, he, hjoin⟩
      · rw [hjoin]
        exact .join c joined hc hjoined
      · rw [hjoin]
        exact .unfit c e hc he
    · exact .store c _ hc (h.tidy.put hc hnodup' hsub')

/-- Taking a file keeps everything in order. -/
theorem after (h : InOrder l gs) {t : Taken} (ht : Takes l gs f (.ok t)) :
    InOrder t.ledger t.groups := by
  cases ht with
  | pass => exact h
  | store c group hc htidy => exact ⟨h.consistent, h.keyed, htidy⟩
  | join c joined hc hjoined =>
    have hpath := h.keyed _ _ hc
    exact ⟨h.consistent.forget (hpath ▸ hc), h.keyed.forget c, h.tidy.forget hpath⟩

end InOrder
end Stage
end HtmlDeps
