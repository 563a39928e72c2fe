import HtmlDeps.Proofs.Markup.Skims

/-!
# Passes as skims

A pass skims the document, whether it keeps references or resolves them (`Scanner.skims_of_pass`).  With
references resolved it comes to an end from which there is no way on, unless a reference is too long; with
references kept it may stop before a stray `&#`, one that no number follows, and take all that is left for text.
-/

namespace HtmlDeps

namespace Token

variable {refs : References} {final : Bool} {raw raw' : Option Text} {t r : Text} {g : Glyph} {n m : Nat}

/-- Whether a text starts with `&#` and no number behind it that something else follows. -/
def isStray : Text → Bool
  | .char '&' :: .char '#' :: r => (numericSize? (.char '&' :: .char '#' :: r)).isNone
  | _ => false

/-! ### References hold no `<` -/

theorem angle_not_mem_takeWhile {p : Glyph → Bool} (hp : p (.char '<') = false) (t : Text) :
    .char '<' ∉ t.takeWhile p := by
  intro hmem
  have htrue := List.mem_takeWhile_imp hmem
  rw [hp] at htrue
  cases htrue

theorem angle_not_mem_take {p : Glyph → Bool} {a : Text} (ha : .char '<' ∉ a) (hp : p (.char '<') = false)
    (r : Text) :
    .char '<' ∉ (a ++ r).take (a.length + (r.takeWhile p).length) := by
  rw [List.take_length_add_append, ← List.prefix_iff_eq_take.1 (List.takeWhile_prefix p), List.mem_append, not_or]
  exact ⟨ha, angle_not_mem_takeWhile hp r⟩

theorem angle_not_mem_take_semicolon (h : .char '<' ∉ t.take m) (hdrop : t.drop m = g :: r) :
    .char '<' ∉ t.take (m + if g = .char ';' then 1 else 0) := by
  split
  · rename_i hg
    have hlast : t[m]? = some g := by
      rw [← List.head?_drop, hdrop]
      rfl
    rw [List.take_add_one, hlast, hg]
    intro hmem
    rcases List.mem_append.1 hmem with hmem | hmem
    · exact h hmem
    · exact absurd (List.mem_singleton.1 hmem) (by decide)
  · exact h

theorem angle_not_mem_numeric (h : numericSize? (.char '&' :: .char '#' :: r) = some n) :
    .char '<' ∉ (Glyph.char '&' :: .char '#' :: r).take n := by
  simp only [numericSize?, List.drop_succ_cons, List.drop_zero] at h
  split at h  -- The digits go on until something else, and what else belongs to it is a semicolon.
  · rename_i x r
    by_cases hx : (decide (x = 'x') || decide (x = 'X')) = true
    · have hfront : Glyph.char '<' ∉ [Glyph.char '&', .char '#', .char x] := by
        rw [Bool.or_eq_true, decide_eq_true_eq, decide_eq_true_eq] at hx
        rcases hx with rfl | rfl <;> decide
      rw [if_pos hx] at h
      dsimp only at h
      split at h
      · rename_i hdrop
        split at h
        · cases h
        · obtain rfl := Option.some.inj h
          exact angle_not_mem_take_semicolon (angle_not_mem_take hfront (by decide) r) hdrop
      · cases h
    · have hfront : Glyph.char '<' ∉ [Glyph.char '&', .char '#'] := by decide
      rw [if_neg hx] at h
      dsimp only at h
      split at h
      · rename_i hdrop
        split at h
        · cases h
        · obtain rfl := Option.some.inj h
          exact angle_not_mem_take_semicolon (angle_not_mem_take hfront (by decide) (.char x :: r)) hdrop
      · cases h
  · cases h

theorem drop_length_takeWhile (a : Text) (p : Glyph → Bool) (r : Text) :
    (a ++ r).drop (a.length + (r.takeWhile p).length) = r.dropWhile p := by
  rw [List.drop_length_add_append]
  nth_rewrite 2 [← List.takeWhile_append_dropWhile (p := p) (l := r)]
  rw [List.drop_left]

theorem angle_not_mem_named (h : namedSize? (.char '&' :: g :: r) = some n) :
    .char '<' ∉ (Glyph.char '&' :: g :: r).take n := by
  simp only [namedSize?, List.drop_succ_cons, List.drop_zero, Text.cutAt, Bool.not_not] at h
  split at h
  · cases h
  · rename_i hg
    have hfront : Glyph.char '<' ∉ [Glyph.char '&', g] := by
      rw [List.mem_cons, List.mem_singleton, not_or]
      refine ⟨by decide, ?_⟩
      rintro rfl
      exact hg (by decide)
    split at h
    · rename_i hrest
      obtain rfl := Option.some.inj h
      exact angle_not_mem_take_semicolon (angle_not_mem_take hfront (by decide) r)
        ((drop_length_takeWhile [Glyph.char '&', g] _ r).trans hrest)
    · rename_i hrest
      have hall : .char '<' ∉ [Glyph.char '&', g] ++ r := by  -- the name goes on to the end
        rw [← List.takeWhile_append_dropWhile (p := fun x => isReferenceName x) (l := r), hrest, List.append_nil,
          List.mem_append, not_or]
        exact ⟨hfront, angle_not_mem_takeWhile (by decide) r⟩
      exact fun hmem => hall (List.mem_of_mem_take hmem)

theorem angle_not_mem_of_namedSize?_eq_none (hg : g.isLetter = true)
    (h : namedSize? (.char '&' :: g :: r) = none) : .char '<' ∉ Glyph.char '&' :: g :: r := by
  simp only [namedSize?, List.drop_succ_cons, List.drop_zero, Text.cutAt, Bool.not_not, hg, Bool.not_true,
    Bool.false_eq_true, if_false] at h
  split at h
  · cases h
  · rename_i hrest
    rw [← List.takeWhile_append_dropWhile (p := fun x => isReferenceName x) (l := r), hrest, List.append_nil]
    intro hmem
    rcases List.mem_cons.1 hmem with hmem | hmem
    · exact absurd hmem (by decide)
    · rcases List.mem_cons.1 hmem with rfl | hmem
      · exact absurd hg (by decide)
      · exact angle_not_mem_takeWhile (by decide) r hmem

/-! ### The next token -/

/-- Some piece of a text holds a reference that is too long. -/
def Overlong (t : Text) : Prop := ∃ u, u <:+: t ∧ ∀ v, Entity.decode u ≠ .ok v

theorem Overlong.mono {s : Text} (h : Overlong s) (hs : s <:+: t) : Overlong t := by
  obtain ⟨u, hu, hlong⟩ := h
  exact ⟨u, hu.trans hs, hlong⟩

/-- What may come next where running text stands. -/
def Runs (refs : References) (t : Text) : Next → Prop
  | .token e n raw => e = .content ∧ raw = none ∧ .char '<' ∉ t.take n
  | .tokenThenWait n => (0 < n ∧ .char '<' ∉ t.take n) ∧ refs = .kept ∧ isStray t
  | .wait => .char '<' ∉ t ∨ refs = .kept ∧ isStray t
  | .fault _ => refs = .resolved ∧ Overlong t

theorem nextRun_cases (refs : References) (n : Nat) (t : Text) : nextRun refs n t = .token .content n none ∨
    ∃ f, nextRun refs n t = .fault f ∧ refs = .resolved ∧ Overlong t := by
  cases refs with
  | kept => exact .inl rfl
  | resolved =>
    rw [nextRun]
    cases hdecode : Entity.decode (t.take n) with
    | ok v => exact .inl rfl
    | error e =>
      refine .inr ⟨_, rfl, rfl, t.take n, (List.take_prefix n t).isInfix, fun v hv => ?_⟩
      rw [hv] at hdecode
      cases hdecode

theorem runs_nextRun (refs : References) (h : .char '<' ∉ t.take n) : Runs refs t (nextRun refs n t) := by
  rcases nextRun_cases refs n t with hrun | ⟨f, hrun, hlong⟩
  · rw [hrun]
    exact ⟨rfl, rfl, h⟩
  · rw [hrun]
    exact hlong

theorem runs_nextReference (r : Text) : Runs .kept (.char '&' :: r) (nextReference (.char '&' :: r)) := by
  unfold nextReference
  split
  · rename_i r' heq
    obtain ⟨rfl, rfl⟩ := List.cons.inj heq
    cases hsize : numericSize? (.char '&' :: .char '#' :: r') with
    | some n => exact ⟨rfl, rfl, angle_not_mem_numeric hsize⟩
    | none =>
      have hstray : isStray (.char '&' :: .char '#' :: r') := by
        rw [isStray, hsize]
        rfl
      dsimp only
      split
      · exact ⟨⟨Nat.zero_lt_two, by simp⟩, rfl, hstray⟩
      · exact .inr ⟨rfl, hstray⟩
  · rename_i g r' _ heq
    obtain ⟨rfl, rfl⟩ := List.cons.inj heq
    cases hsize : namedSize? (.char '&' :: g :: r') with
    | some n => exact ⟨rfl, rfl, angle_not_mem_named hsize⟩
    | none =>
      dsimp only
      split
      · exact .inl (angle_not_mem_of_namedSize?_eq_none ‹_› hsize)
      · exact ⟨rfl, rfl, by simp⟩
  · rename_i hshort
    cases r with
    | nil => exact .inl (by decide)
    | cons g r => exact absurd rfl (hshort _ g r)

/-- What comes next in running text. -/
theorem runs_next (hg : g ≠ .char '<') (r : Text) : Runs refs (g :: r) (next refs none final (g :: r)) := by
  simp only [next]
  generalize hp : (fun x : Glyph => !(x == .char '<' || (decide (refs = .kept) && x == .char '&'))) = p
  have hangle : p (.char '<') = false := by
    rw [← hp]
    rfl
  split
  · split
    · -- the run goes on to the end
      rename_i hwait
      simp only [Bool.and_eq_true, decide_eq_true_eq] at hwait
      have hall : (g :: r).takeWhile p = g :: r := (List.takeWhile_prefix p).eq_of_length hwait.1.2
      refine .inl ?_
      rw [← hall]
      exact angle_not_mem_takeWhile hangle _
    · refine runs_nextRun refs ?_
      rw [← List.prefix_iff_eq_take.1 (List.takeWhile_prefix p)]
      exact angle_not_mem_takeWhile hangle _
  · rename_i hempty
    have hreference : refs = .kept ∧ g = .char '&' := by
      by_contra hnot
      have hpg : p g = true := by
        rw [not_and_or] at hnot
        rw [← hp]
        simpa [hg] using hnot
      rw [List.takeWhile_cons_of_pos hpg] at hempty
      exact hempty rfl
    obtain ⟨rfl, rfl⟩ := hreference
    exact runs_nextReference r

/-! ### The next construct -/

/-- What may come next where a construct or raw text stands: what comes there at the end, references kept, unless
a text that is too long was to be resolved. -/
def Fronts (refs : References) (final : Bool) (raw : Option Text) (t : Text) : Next → Prop
  | .token e n raw' => next .kept raw true t = .token e n raw'
  | .tokenThenWait _ => False
  | .wait => final = true → next .kept raw true t = .wait
  | .fault f => next .kept raw true t = .fault f ∨ refs = .resolved ∧ Overlong t

theorem nextEnd_ne_tokenThenWait (raw : Option Text) (t : Text) (n : Nat) : nextEnd raw t ≠ .tokenThenWait n := by
  intro h
  simp only [nextEnd] at h
  repeat' split at h
  all_goals cases h

theorem contentOrWait_ne_tokenThenWait (raw : Option Text) (m? : Option Nat) (n : Nat) :
    contentOrWait raw m? ≠ .tokenThenWait n := by
  cases m? <;> exact nofun

theorem nextConstruct_ne_tokenThenWait (t : Text) (n : Nat) : nextConstruct t ≠ .tokenThenWait n := by
  intro h
  unfold nextConstruct at h
  split at h
  · exact nextEnd_ne_tokenThenWait _ _ _ h
  · exact contentOrWait_ne_tokenThenWait _ _ _ h
  · simp only [nextSection] at h
    repeat' split at h
    all_goals first | exact contentOrWait_ne_tokenThenWait _ _ _ h | cases h
  · exact contentOrWait_ne_tokenThenWait _ _ _ h
  · exact contentOrWait_ne_tokenThenWait _ _ _ h
  · simp only [nextStart] at h
    repeat' split at h
    all_goals cases h
  · cases h

/-- At the end, a construct that waits is text. -/
theorem fronts_settle (refs : References) (final : Bool) (g : Glyph) (r : Text) :
    Fronts refs final none (.char '<' :: g :: r)
      (settle refs final (.char '<' :: g :: r) (nextConstruct (.char '<' :: g :: r))) := by
  have hkept : next .kept none true (.char '<' :: g :: r) =
      settle .kept true (.char '<' :: g :: r) (nextConstruct (.char '<' :: g :: r)) := by
    simp [next]
  cases hx : nextConstruct (.char '<' :: g :: r) with
  | token e n raw =>
    rw [hx] at hkept
    exact hkept
  | tokenThenWait n => exact absurd hx (nextConstruct_ne_tokenThenWait _ n)
  | fault f =>
    rw [hx] at hkept
    exact .inl hkept
  | wait =>
    rw [hx] at hkept
    cases final with
    | false =>
      intro hfinal
      cases hfinal
    | true =>
      rw [settle, if_pos rfl]
      rcases nextRun_cases refs (strandedSize (.char '<' :: g :: r)) (.char '<' :: g :: r) with
        hrun | ⟨f, hrun, hlong⟩
      · rw [hrun]
        exact hkept
      · rw [hrun]
        exact .inr hlong

/-- What comes next where a construct or raw text stands. -/
theorem fronts_next (front : raw = none → t.head? = some (.char '<')) :
    Fronts refs final raw t (next refs raw final t) := by
  cases raw with
  | some name =>
    have hsame : next .kept (some name) true t = next refs (some name) final t := rfl
    cases hx : next refs (some name) final t with
    | token e n raw' => exact hsame.trans hx
    | tokenThenWait n =>
      simp only [next] at hx
      split at hx
      · cases hx
      · exact nextEnd_ne_tokenThenWait _ _ _ hx
      · cases hx
    | wait => exact fun _ => hsame.trans hx
    | fault f => exact .inl (hsame.trans hx)
  | none =>
    obtain ⟨r, rfl⟩ := List.head?_eq_some_iff.1 (front rfl)
    cases r with
    | nil => exact fun _ => rfl
    | cons g r =>
      have hsettle : next refs none final (.char '<' :: g :: r) =
          settle refs final (.char '<' :: g :: r) (nextConstruct (.char '<' :: g :: r)) := by
        simp [next]
      rw [hsettle]
      exact fronts_settle refs final g r

/-- What comes next stands at a front, or in running text. -/
theorem fronts_or_runs (refs : References) (final : Bool) (raw : Option Text) (ht : t ≠ []) :
    (raw = none → t.head? = some (.char '<')) ∧ Fronts refs final raw t (next refs raw final t) ∨
      raw = none ∧ Runs refs t (next refs none final t) := by
  by_cases front : raw = none → t.head? = some (.char '<')
  · exact .inl ⟨front, fronts_next front⟩
  · obtain ⟨hraw, hhead⟩ := Classical.not_imp.1 front
    obtain ⟨g, r, rfl⟩ := List.exists_cons_of_ne_nil ht
    exact .inr ⟨hraw, runs_next (fun hg => hhead (congrArg some hg)) r⟩

end Token

/-! ### Passes -/

theorem Skims.text_take {t rest : Text} {ts : List Token} {raw : Option Text} {n : Nat} (ht : t ≠ []) (hn : 0 < n)
    (hangle : .char '<' ∉ t.take n) (h : Skims none (t.drop n) ts raw rest) :
    Skims none t (⟨t.take n, .content⟩ :: ts) raw rest := by
  have htake : t.take n ≠ [] := by
    rw [Ne, List.take_eq_nil_iff, not_or]
    exact ⟨Nat.ne_of_gt hn, ht⟩
  have htext := Skims.text htake hangle h
  rwa [List.take_append_drop] at htext

/-- A token of a pass is a step of a skim. -/
theorem Skims.step {refs : References} {final : Bool} {raw raw' raw'' : Option Text} {t rest : Text} {e : Event}
    {n : Nat} {ts : List Token} (ht : t ≠ []) (hnext : Token.next refs raw final t = .token e n raw')
    (h : Skims raw' (t.drop n) ts raw'' rest) : Skims raw t (⟨t.take n, e⟩ :: ts) raw'' rest := by
  rcases Token.fronts_or_runs refs final raw ht with ⟨front, hfronts⟩ | ⟨rfl, hruns⟩
  · rw [hnext] at hfronts
    exact .token front hfronts h
  · rw [hnext] at hruns
    obtain ⟨rfl, rfl, hangle⟩ := hruns
    exact .text_take ht (Token.steps_next _ _ _ _ _ hnext).1 hangle h

/-- Nothing is left, or something that nothing ends. -/
def Quiet (raw : Option Text) (t : Text) : Prop :=
  t = [] ∨ (raw = none → t.head? = some (.char '<')) ∧ Token.next .kept raw true t = .wait

/-- What comes next cannot be read. -/
def Faulty (f : MarkupFault) (raw : Option Text) (t : Text) : Prop :=
  (raw = none → t.head? = some (.char '<')) ∧ Token.next .kept raw true t = .fault f

section

variable {raw : Option Text} {t : Text} {f : MarkupFault}

theorem Quiet.halts (h : Quiet raw t) : Halts raw t := by
  refine h.imp_right (And.imp_right fun hwait e n raw' hnext => ?_)
  rw [hwait] at hnext
  cases hnext

theorem Faulty.halts (h : Faulty f raw t) : Halts raw t := by
  refine .inr ⟨h.1, fun e n raw' hnext => ?_⟩
  rw [h.2] at hnext
  cases hnext

theorem Quiet.not_faulty (h : Quiet raw t) : ¬ Faulty f raw t := by
  rintro ⟨front, hfault⟩
  rcases h with rfl | ⟨-, hwait⟩
  · cases raw with
    | none => exact absurd (front rfl) nofun
    | some name => cases hfault
  · rw [hwait] at hfault
    cases hfault

end

namespace Scanner

open Token

variable {refs : References} {final : Bool} {raw raw' : Option Text} {t rest : Text} {f : MarkupFault}

/-- Some text behind a place starts with a stray reference. -/
def Straying (t : Text) : Prop := ∃ u, u <:+ t ∧ isStray u

theorem Straying.mono {s : Text} (h : Straying s) (hs : s <:+ t) : Straying t := by
  obtain ⟨u, hu, hstray⟩ := h
  exact ⟨u, hu.trans hs, hstray⟩

theorem skims_of_passFrom {fuel : Nat} (hfuel : t.length ≤ fuel)
    (h : (passFrom refs final fuel raw t).stop = .ok (raw', rest)) :
    Skims raw t (passFrom refs final fuel raw t).tokens raw' rest ∧ (final = true →
      Quiet raw' rest ∨ (raw' = none ∧ .char '<' ∉ rest) ∨ refs = .kept ∧ raw' = none ∧ Straying t) := by
  induction fuel generalizing raw t with  -- The fuel bounds the text, and each token takes some of it.
  | zero =>
    obtain rfl := List.length_eq_zero_iff.1 (Nat.le_zero.1 hfuel)
    obtain ⟨rfl, rfl⟩ := Prod.mk.inj (Except.ok.inj h)
    exact ⟨.done _ _, fun _ => .inl (.inl rfl)⟩
  | succ fuel ih =>
    cases t with
    | nil =>
      obtain ⟨rfl, rfl⟩ := Prod.mk.inj (Except.ok.inj h)
      exact ⟨.done _ _, fun _ => .inl (.inl rfl)⟩
    | cons g r =>
      have hcases := fronts_or_runs refs final raw (List.cons_ne_nil g r)
      simp only [passFrom] at h ⊢
      cases hnext : next refs raw final (g :: r) with
      | token e n raw₁ =>
        rw [hnext] at h
        have hpos := (steps_next _ _ _ _ _ hnext).1
        obtain ⟨hskims, hend⟩ := ih (Nat.le_trans (length_drop_le hpos) (Nat.le_of_succ_le_succ hfuel)) h
        exact ⟨.step (List.cons_ne_nil g r) hnext hskims, fun hfinal => (hend hfinal).imp_right (Or.imp_right
          (And.imp_right (And.imp_right fun hstray => hstray.mono (List.drop_suffix n _))))⟩
      | tokenThenWait n =>
        rw [hnext] at h
        obtain ⟨rfl, rfl⟩ := Prod.mk.inj (Except.ok.inj h)
        rcases hcases with ⟨-, hfronts⟩ | ⟨rfl, hruns⟩  -- Only running text gives a token and then waits.
        · rw [hnext] at hfronts
          exact hfronts.elim
        · rw [hnext] at hruns
          obtain ⟨⟨hpos, hangle⟩, hrefs, hstray⟩ := hruns
          exact ⟨.text_take (List.cons_ne_nil g r) hpos hangle (.done _ _),
            fun _ => .inr (.inr ⟨hrefs, rfl, _, List.suffix_rfl, hstray⟩)⟩
      | wait =>
        rw [hnext] at h
        obtain ⟨rfl, rfl⟩ := Prod.mk.inj (Except.ok.inj h)
        refine ⟨.done _ _, fun hfinal => ?_⟩
        rcases hcases with ⟨front, hfronts⟩ | ⟨rfl, hruns⟩
        · rw [hnext] at hfronts
          exact .inl (.inr ⟨front, hfronts hfinal⟩)
        · rw [hnext] at hruns
          exact .inr (hruns.imp (fun hangle => ⟨rfl, hangle⟩)
            (And.imp_right fun hstray => ⟨rfl, _, List.suffix_rfl, hstray⟩))
      | fault f =>
        rw [hnext] at h
        cases h

theorem faulty_of_passFrom {fuel : Nat} (h : (passFrom refs final fuel raw t).stop = .error f) :
    (∃ ts raw' rest, Skims raw t ts raw' rest ∧ Faulty f raw' rest) ∨ refs = .resolved ∧ Overlong t := by
  induction fuel generalizing raw t with
  | zero => cases h
  | succ fuel ih =>
    cases t with
    | nil => cases h
    | cons g r =>
      have hcases := fronts_or_runs refs final raw (List.cons_ne_nil g r)
      simp only [passFrom] at h
      cases hnext : next refs raw final (g :: r) with
      | token e n raw₁ =>
        rw [hnext] at h
        rcases ih h with ⟨ts, raw', rest, hskims, hfaulty⟩ | ⟨hrefs, hlong⟩
        · exact .inl ⟨_, raw', rest, .step (List.cons_ne_nil g r) hnext hskims, hfaulty⟩
        · exact .inr ⟨hrefs, hlong.mono (List.drop_suffix n _).isInfix⟩
      | tokenThenWait n =>
        rw [hnext] at h
        cases h
      | wait =>
        rw [hnext] at h
        cases h
      | fault f' =>
        rw [hnext] at h
        obtain rfl := Except.error.inj h
        -- At a front the fault is of the construct; in running text only a reference can be too long.
        rcases hcases with ⟨front, hfronts⟩ | ⟨rfl, hruns⟩
        · rw [hnext] at hfronts
          exact hfronts.imp_left fun hfault => ⟨[], raw, g :: r, .done _ _, front, hfault⟩
        · rw [hnext] at hruns
          exact .inr hruns

/-! ### Scans -/

theorem marks_finalPass {x : Option Text × Text} (h : (finalPass refs raw t).stop = .ok x) :
    ∃ raw' rest, (pass refs true raw t).stop = .ok (raw', rest) ∧
      ∀ n, marks n (finalPass refs raw t).tokens = marks n (pass refs true raw t).tokens := by
  unfold finalPass at h ⊢
  dsimp only at h ⊢
  split at h
  · rename_i g r hstop
    split at h
    · cases h
    · refine ⟨none, g :: r, hstop, fun n => ?_⟩
      rw [marks_append]
      exact List.append_nil _
  · exact ⟨x.1, x.2, h, fun n => rfl⟩

theorem faulty_of_finalPass (h : (finalPass refs raw t).stop = .error f) :
    (∃ ts raw' rest, Skims raw t ts raw' rest ∧ Faulty f raw' rest) ∨ refs = .resolved ∧ Overlong t := by
  unfold finalPass at h
  dsimp only at h
  split at h
  · rename_i g r hstop
    have hsuffix := (skims_of_passFrom (Nat.le_refl _) hstop).1.suffix
    split at h
    · rename_i f' hrun
      rcases nextRun_cases refs (g :: r).length (g :: r) with hcontent | ⟨-, -, hrefs, hlong⟩
      · rw [hcontent] at hrun
        cases hrun
      · exact .inr ⟨hrefs, hlong.mono hsuffix.isInfix⟩
    · cases h
  · exact faulty_of_passFrom h

theorem scan_eq_error (h : (scan refs t).outcome = .error f) : (pass refs false none t).stop = .error f ∨
    ∃ raw rest, (pass refs false none t).stop = .ok (raw, rest) ∧ (finalPass refs raw rest).stop = .error f := by
  simp only [scan, feedAll, feed, resume, close, start, List.nil_append] at h
  cases hpass : (pass refs false none t).stop with
  | error f' =>
    simp only [hpass, Except.map] at h
    exact .inl (congrArg _ (Except.error.inj h))
  | ok x =>
    simp only [hpass, Except.map] at h
    refine .inr ⟨x.1, x.2, rfl, ?_⟩
    cases hfinal : (finalPass refs x.1 x.2).stop with
    | error f' =>
      simp only [hfinal] at h
      exact congrArg _ (Except.error.inj h)
    | ok y =>
      simp only [hfinal] at h
      cases h

/-- A scan fails where what comes next cannot be read. -/
theorem faulty_of_scan (h : (scan refs t).outcome = .error f) :
    (∃ ts raw rest, Skims none t ts raw rest ∧ Faulty f raw rest) ∨ refs = .resolved ∧ Overlong t := by
  rcases scan_eq_error h with hpass | ⟨raw, rest, hpass, hfinal⟩
  · exact faulty_of_passFrom hpass
  · have hskims := (skims_of_passFrom (Nat.le_refl _) hpass).1
    rcases faulty_of_finalPass hfinal with ⟨ts, raw', rest', hrest, hfaulty⟩ | ⟨hrefs, hlong⟩
    · exact .inl ⟨_, raw', rest', hskims.append hrest, hfaulty⟩
    · exact .inr ⟨hrefs, hlong.mono hskims.suffix.isInfix⟩

/-- What a scan that keeps references takes for text in the end, since it cannot go on. -/
def forgone (t : Text) : Text :=
  match (pass .kept false none t).stop with
  | .ok (raw, rest) =>
    match (pass .kept true raw rest).stop with
    | .ok (none, last) => last
    | _ => []
  | .error _ => []

/-- A skim that finds what a scan finds. -/
structure Skimmed (refs : References) (t : Text) (ts : List Token) (raw : Option Text) (rest : Text) : Prop where
  skims : Skims none t ts raw rest
  tokens : ∃ us, (scan refs t).tokens = Located.of .start us ∧ ∀ n, marks n us = marks n ts

/-- A scan skims the document. -/
theorem skimmed_of_scan {s : Scanner} (h : (scan refs t).outcome = .ok s) :
    ∃ ts raw rest, Skimmed refs t ts raw rest ∧
    (Quiet raw rest ∨ (raw = none ∧ .char '<' ∉ rest) ∨ refs = .kept ∧ raw = none ∧ Straying t) ∧
    (refs = .kept → forgone t = if raw = none then rest else []) := by
  obtain ⟨raw, rest, raw', rest', hpass, hfinal, htokens⟩ := scan_eq_ok h
  obtain ⟨raw₂, last, hlast, hmarks⟩ := marks_finalPass hfinal
  have hskims := (skims_of_passFrom (Nat.le_refl _) hpass).1
  obtain ⟨hskims', hend⟩ := skims_of_passFrom (Nat.le_refl _) hlast
  refine ⟨_, raw₂, last, ⟨hskims.append hskims', _, htokens, fun n => ?_⟩, ?_, ?_⟩
  · rw [marks_append, hmarks, marks_append]
    rfl
  · exact (hend rfl).imp_right (Or.imp_right (And.imp_right (And.imp_right fun hstray =>
      hstray.mono hskims.suffix)))
  · rintro rfl
    rw [forgone, hpass]
    dsimp only
    rw [hlast]
    cases raw₂ <;> rfl

/-- Without a stray reference that counts, a scan comes to an end from which there is no way on. -/
theorem quiet_of_scan {s : Scanner} (h : (scan refs t).outcome = .ok s) (hstray : refs = .kept → ¬ Straying t) :
    ∃ ts raw rest, Skimmed refs t ts raw rest ∧ Quiet raw rest := by
  obtain ⟨ts, raw, rest, hskimmed, hend, -⟩ := skimmed_of_scan h
  rcases hend with hquiet | ⟨rfl, hangle⟩ | ⟨hrefs, -, hcounts⟩
  · exact ⟨ts, raw, rest, hskimmed, hquiet⟩
  · cases rest with
    | nil => exact ⟨ts, none, [], hskimmed, .inl rfl⟩
    | cons g r =>
      have htext := Skims.text (List.cons_ne_nil g r) hangle (.done none [])  -- what is left is text
      rw [List.append_nil] at htext
      obtain ⟨us, htokens, hmarks⟩ := hskimmed.tokens
      refine ⟨_, none, [], ⟨hskimmed.skims.append htext, us, htokens, fun n => ?_⟩, .inl rfl⟩
      rw [hmarks, marks_append]
      exact (List.append_nil _).symm
  · exact absurd hcounts (hstray hrefs)

end Scanner
end HtmlDeps
