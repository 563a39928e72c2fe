import HtmlDeps.Proofs.Markup.TokenLocal

/-!
# Reading on

`Reads` is what a pass does before it stops: one token after the other is told from the text that is
left, all of which stays in sight.  A pass goes on behind the tokens as it would have started there
(`Reads.pass_eq`).  An element of raw text is left by its own end tag alone (`Token.steps_next`).
-/

namespace HtmlDeps

namespace Token

variable {raw raw' : Option Text} {e : Event} {n : Nat} {t : Text}

/-- The element of raw text that a start tag opens. -/
def rawOf (tag : Tag) : Option Text :=
  if !tag.selfClosing && rawElements.contains tag.name then some tag.name else none

/-- How an event changes the open element of raw text. -/
inductive Moves : Option Text → Event → Option Text → Prop where
  | content (raw : Option Text) : Moves raw .content raw
  | closed {raw : Option Text} {name : Text} (h : ∀ r ∈ raw, name = r) :
      Moves raw (.closed name) none
  | opened (tag : Tag) : Moves none (.opened tag) (rawOf tag)

/-- A token takes a glyph at least, and changes the open element as its event says. -/
def Steps (raw : Option Text) (x : Next) : Prop :=
  ∀ e n raw', x = .token e n raw' → 0 < n ∧ Moves raw e raw'

theorem steps_content (raw : Option Text) (n : Nat) : Steps raw (.token .content (n + 1) raw) := by
  intro e m raw' h
  obtain ⟨rfl, rfl, rfl⟩ := Next.token.inj h
  exact ⟨Nat.succ_pos n, .content raw⟩

theorem steps_closed {name : Text} (hname : ∀ r ∈ raw, name = r) (n : Nat) :
    Steps raw (.token (.closed name) (n + 1) none) := by
  intro e m raw' h
  obtain ⟨rfl, rfl, rfl⟩ := Next.token.inj h
  exact ⟨Nat.succ_pos n, .closed hname⟩

theorem steps_wait (raw : Option Text) : Steps raw .wait := by
  intro e m raw' h
  cases h

theorem steps_contentOrWait (raw : Option Text) {n? : Option Nat} (h : ∀ n ∈ n?, 0 < n) :
    Steps raw (contentOrWait raw n?) := by
  cases n? with
  | none => exact steps_wait raw
  | some n =>
    obtain ⟨m, rfl⟩ := Nat.exists_eq_add_one_of_ne_zero (Nat.ne_of_gt (h n rfl))
    exact steps_content raw m

theorem through?_pos {g : Glyph} {k : Nat} (h : n ∈ through? g k t) : 0 < n := by
  simp only [through?, Option.mem_def] at h
  split at h
  · cases h
  · obtain rfl := Option.some.inj h
    exact Nat.succ_pos _

theorem steps_nextEnd (raw : Option Text) (t : Text) : Steps raw (nextEnd raw t) := by
  simp only [nextEnd]
  cases hthrough : through? (.char '>') 1 t with
  | none => exact steps_wait raw
  | some size =>
    obtain ⟨m, rfl⟩ := Nat.exists_eq_add_one_of_ne_zero (Nat.ne_of_gt (through?_pos hthrough))
    cases endName? t with
    | some name =>
      cases raw with
      | none => exact steps_closed (by simp) m
      | some r =>
        by_cases hr : Text.lower name = r
        · simp only [if_pos hr]
          exact steps_closed (by simp [hr]) m
        · simp only [if_neg hr]
          exact steps_content _ m
    | none =>
      cases raw with
      | some r => exact steps_content _ m
      | none =>
        simp only
        split
        · split
          · exact steps_closed (by simp) m
          · exact steps_content _ m
        · exact steps_content _ m

theorem steps_fault (raw : Option Text) (f : MarkupFault) : Steps raw (.fault f) := by
  intro e m raw' h
  cases h

theorem pos_of_mem_map {k : Nat} (hk : 0 < k) {n? : Option Nat} (h : n ∈ n?.map (k + ·)) :
    0 < n := by
  obtain ⟨m, -, rfl⟩ := Option.map_eq_some_iff.1 h
  omega

theorem steps_nextSection (t : Text) : Steps none (nextSection t) := by
  simp only [nextSection]
  split
  · exact steps_wait none
  · split
    · split
      · exact steps_wait none
      · split
        · exact steps_contentOrWait none fun n hn => pos_of_mem_map (by decide) hn
        · exact steps_fault none _
    · exact steps_fault none _

theorem steps_nextStart (t : Text) : Steps none (nextStart t) := by
  simp only [nextStart]
  cases hread : Tag.read (t.drop 1) with
  | error f => exact steps_fault none _
  | ok reading =>
    have hsize := Tag.le_size_of_read hread rfl rfl rfl
    cases reading with
    | incomplete => exact steps_wait none
    | broken n =>
      obtain ⟨m, rfl⟩ := Nat.exists_eq_add_one_of_ne_zero (Nat.ne_of_gt (Nat.zero_lt_of_lt hsize))
      exact steps_content none m
    | whole tag n =>
      intro e m raw' h
      obtain ⟨rfl, rfl, rfl⟩ := Next.token.inj h
      exact ⟨Nat.zero_lt_of_lt hsize, .opened tag⟩

theorem steps_nextConstruct (t : Text) : Steps none (nextConstruct t) := by
  unfold nextConstruct
  split
  · exact steps_nextEnd none _
  · exact steps_contentOrWait none fun n hn => pos_of_mem_map (by decide) hn
  · exact steps_nextSection _
  · exact steps_contentOrWait none fun n hn => through?_pos hn
  · exact steps_contentOrWait none fun n hn => through?_pos hn
  · split
    · exact steps_nextStart _
    · exact steps_content none 0
  · exact steps_wait none

theorem numericSize?_pos (h : n ∈ numericSize? t) : 0 < n := by
  simp only [numericSize?, Option.mem_def] at h
  split at h
  · rename_i c r _
    by_cases hc : (decide (c = 'x') || decide (c = 'X')) = true
    · simp only [if_pos hc] at h
      repeat' split at h
      all_goals simp at h
      all_goals omega
    · simp only [if_neg hc] at h
      repeat' split at h
      all_goals simp at h
      all_goals omega
  · cases h

theorem namedSize?_pos (h : n ∈ namedSize? t) : 0 < n := by
  simp only [namedSize?, Option.mem_def] at h
  repeat' split at h
  all_goals simp at h
  all_goals omega

theorem steps_nextReference (t : Text) : Steps none (nextReference t) := by
  unfold nextReference
  split
  · split
    · rename_i n hn
      obtain ⟨m, rfl⟩ := Nat.exists_eq_add_one_of_ne_zero (Nat.ne_of_gt (numericSize?_pos hn))
      exact steps_content none m
    · split
      · intro e m raw' h
        cases h
      · exact steps_wait none
  · split
    · rename_i n hn
      obtain ⟨m, rfl⟩ := Nat.exists_eq_add_one_of_ne_zero (Nat.ne_of_gt (namedSize?_pos hn))
      exact steps_content none m
    · split
      · exact steps_wait none
      · exact steps_content none 0
  · exact steps_wait none

theorem steps_nextRun (refs : References) {size : Nat} (hsize : 0 < size) (t : Text) :
    Steps none (nextRun refs size t) := by
  obtain ⟨m, rfl⟩ := Nat.exists_eq_add_one_of_ne_zero (Nat.ne_of_gt hsize)
  cases refs with
  | kept => exact steps_content none m
  | resolved =>
    rw [nextRun]
    split
    · exact steps_content none m
    · exact steps_fault none _

/-- What counts as text at the end of a document is not empty. -/
theorem strandedSize_pos (t : Text) : 0 < strandedSize t := by
  unfold strandedSize
  split
  · exact through?_pos ‹_›
  · cases hthrough : through? (.char '<') 1 t with
    | none => exact Nat.zero_lt_one
    | some m =>
      simp only [through?] at hthrough
      split at hthrough
      · cases hthrough
      · rename_i rest hne
        obtain rfl := Option.some.inj hthrough
        have hlength := (List.dropWhile_sublist (l := t.drop 1) (· != Glyph.char '<')).length_le
        rw [List.length_drop] at hlength
        have hpos := List.length_pos_iff.2 hne
        rw [Option.map_some, Option.getD_some]
        omega

theorem steps_settle (refs : References) (final : Bool) (t : Text) {x : Next} (hx : Steps none x) :
    Steps none (settle refs final t x) := by
  cases x with
  | wait =>
    rw [settle]
    split
    · exact steps_nextRun refs (strandedSize_pos t) t
    · exact hx
  | token e n raw => exact hx
  | tokenThenWait n => exact hx
  | fault f => exact hx

theorem steps_next {refs : References} {final : Bool} (raw : Option Text) (t : Text) :
    Steps raw (next refs raw final t) := by
  cases raw with
  | some name =>
    simp only [next]
    cases startOfFirst? (startsEndOf name) t with
    | none => exact steps_wait _
    | some k =>
      cases k with
      | zero => exact steps_nextEnd _ t
      | succ k => exact steps_content _ k
  | none =>
    simp only [next]
    split
    · rename_i hrun
      split
      · exact steps_wait none
      · refine steps_nextRun refs (List.length_pos_iff.2 fun hnil => ?_) t
        rw [hnil] at hrun
        cases hrun
    · split
      · exact steps_nextReference _
      · exact steps_wait none
      · exact steps_settle refs final t (steps_nextConstruct t)

theorem next_nil (raw : Option Text) : next .kept raw false [] = .wait := by
  cases raw <;> rfl

theorem ne_nil_of_next (h : next .kept raw false t = .token e n raw') : t ≠ [] := by
  rintro rfl
  rw [next_nil] at h
  cases h

theorem length_take_pos (h : next .kept raw false t = .token e n raw') : 0 < (t.take n).length := by
  have hpos := (steps_next _ _ _ _ _ h).1
  have hlength := List.length_pos_iff.2 (ne_nil_of_next h)
  rw [List.length_take]
  omega

end Token

/-! ### Reading on -/

/-- Tokens that are read off the front of a text, each told without waiting, and what is left: the
open element of raw text, and the rest of the text. -/
inductive Reads : Option Text → Text → List Token → Option Text → Text → Prop where
  | done (raw : Option Text) (t : Text) : Reads raw t [] raw t
  | token {raw raw' raw'' : Option Text} {t rest : Text} {e : Event} {n : Nat} {ts : List Token}
      (h : Token.next .kept raw false t = .token e n raw')
      (more : Reads raw' (t.drop n) ts raw'' rest) :
      Reads raw t (⟨t.take n, e⟩ :: ts) raw'' rest

namespace Scanner

variable {refs : References} {final : Bool} {raw raw' : Option Text} {t : Text} {e : Event} {n : Nat}

theorem length_drop_le {g : Glyph} {r : Text} (hn : 0 < n) :
    ((g :: r).drop n).length ≤ r.length := by
  rw [List.length_drop, List.length_cons]
  omega

/-- More fuel than there are glyphs changes nothing. -/
theorem passFrom_congr {fuel fuel' : Nat} (h : t.length ≤ fuel) (h' : t.length ≤ fuel') :
    passFrom refs final fuel raw t = passFrom refs final fuel' raw t := by
  induction fuel generalizing fuel' raw t with
  | zero =>
    obtain rfl := List.length_eq_zero_iff.1 (Nat.le_zero.1 h)
    cases fuel' <;> rfl
  | succ fuel ih =>
    cases t with
    | nil => cases fuel' <;> rfl
    | cons g r =>
      obtain ⟨fuel', rfl⟩ := Nat.exists_eq_add_of_lt (Nat.lt_of_lt_of_le (Nat.succ_pos _) h')
      rw [Nat.zero_add] at h' ⊢
      simp only [passFrom]
      cases hnext : Token.next refs raw final (g :: r) with
      | token e n raw' =>
        have hshort := length_drop_le (g := g) (r := r) (Token.steps_next _ _ _ _ _ hnext).1
        have hrest : passFrom refs final fuel raw' ((g :: r).drop n) =
            passFrom refs final fuel' raw' ((g :: r).drop n) :=
          ih (Nat.le_trans hshort (Nat.le_of_succ_le_succ h))
            (Nat.le_trans hshort (Nat.le_of_succ_le_succ h'))
        simp only [hrest]
      | tokenThenWait n => rfl
      | wait => rfl
      | fault f => rfl

theorem pass_token (ht : t ≠ []) (h : Token.next refs raw final t = .token e n raw') :
    pass refs final raw t =
      ⟨⟨t.take n, e⟩ :: (pass refs final raw' (t.drop n)).tokens,
        (pass refs final raw' (t.drop n)).stop⟩ := by
  obtain ⟨g, r, rfl⟩ := List.exists_cons_of_ne_nil ht
  have hshort := length_drop_le (g := g) (r := r) (Token.steps_next _ _ _ _ _ h).1
  have hrest : passFrom refs final r.length raw' ((g :: r).drop n) =
      pass refs final raw' ((g :: r).drop n) := passFrom_congr hshort (Nat.le_refl _)
  rw [← hrest]
  simp only [pass, List.length_cons, passFrom, h]

/-- A pass that does not start with a token that it goes on from. -/
theorem content_of_pass (h : ∀ e n raw', Token.next .kept raw false t ≠ .token e n raw') :
    ∀ k ∈ (pass .kept false raw t).tokens, k.event = .content := by
  intro k hk
  cases t with
  | nil => cases hk
  | cons g r =>
    simp only [pass, List.length_cons, passFrom] at hk
    cases hnext : Token.next .kept raw false (g :: r) with
    | token e n raw' => exact absurd hnext (h e n raw')
    | tokenThenWait n =>
      rw [hnext] at hk
      rw [List.mem_singleton.1 hk]
    | wait =>
      rw [hnext] at hk
      cases hk
    | fault f =>
      rw [hnext] at hk
      cases hk

end Scanner

namespace Reads

open Scanner

variable {raw raw' : Option Text} {t rest : Text} {ts : List Token}

/-- A pass goes on behind the tokens as if it started there. -/
theorem pass_eq (h : Reads raw t ts raw' rest) :
    pass .kept false raw t =
      ⟨ts ++ (pass .kept false raw' rest).tokens, (pass .kept false raw' rest).stop⟩ := by
  induction h with
  | done => rfl
  | token hnext _ ih => rw [pass_token (Token.ne_nil_of_next hnext) hnext, ih, List.cons_append]

/-- The tokens that are read and what is left make up the text. -/
theorem sources_append_rest (h : Reads raw t ts raw' rest) : sources ts ++ rest = t := by
  induction h with
  | done => rfl
  | token hnext _ ih => rw [sources_cons, List.append_assoc, ih, List.take_append_drop]

theorem closes (h : Reads raw t ts raw' rest) : ∀ k ∈ ts, k.Closes := by
  induction h with
  | done =>
    intro k hk
    cases hk
  | @token _ _ _ t _ e n _ hnext _ ih =>
    intro k hk
    rcases List.mem_cons.1 hk with rfl | hk
    · rintro tag rfl
      obtain ⟨body, rest, rfl, rfl⟩ := Token.next_opened hnext
      refine ⟨body, ?_⟩
      rw [List.take_append, List.take_of_length_le (Nat.le_succ _), Nat.add_sub_cancel_left]
      rfl
    · exact ih k hk

/-- A text is read up to where the pass stops, but for a piece of text that it makes a token of in
stopping. -/
theorem exists_of_pass (raw : Option Text) (t : Text) :
    ∃ ts raw' rest, Reads raw t ts raw' rest ∧
      ∀ k ∈ (pass .kept false raw' rest).tokens, k.event = .content := by
  induction hlen : t.length using Nat.strong_induction_on generalizing raw t with
  | _ len ih =>
    by_cases hmore : ∃ e n raw', Token.next .kept raw false t = .token e n raw'
    · obtain ⟨e, n, raw', hnext⟩ := hmore
      have hpos := (Token.steps_next _ _ _ _ _ hnext).1
      have hshort : (t.drop n).length < len := by
        have hlength := List.length_pos_iff.2 (Token.ne_nil_of_next hnext)
        rw [List.length_drop]
        omega
      obtain ⟨ts, raw'', rest, hread, hcontent⟩ := ih _ hshort raw' (t.drop n) rfl
      exact ⟨_, raw'', rest, .token hnext hread, hcontent⟩
    · refine ⟨[], raw, t, .done raw t, content_of_pass ?_⟩
      intro e n raw' hnext
      exact hmore ⟨e, n, raw', hnext⟩

end Reads

end HtmlDeps
