import HtmlDeps.Proofs.Markup.Passes

/-!
# What a scan cannot read

A scan that resolves references fails at a marked section whose name means nothing, and at a number that is too
long, in the value of an attribute or in running text (`Token.Obstacle`).  A document with neither `<![` nor such
a number has no obstacle (`Token.Obstacle.marked_or_long`).  It makes no difference that a scan stops to wait for
more text first: one pass over the whole document finds the same tokens and the same fault
(`Scanner.scan_eq_finalPass`).
-/

namespace HtmlDeps

/-! ### Numbers that are too long -/

namespace Entity

variable {s t r : Text} {e : TooLong}

/-- Somewhere in a text stands a reference with more digits than a number may have. -/
def LongNumber (t : Text) : Prop :=
  ∃ ds : Text, maxDigits < ds.length ∧ (∀ g ∈ ds, g.isDigit) ∧ .char '&' :: .char '#' :: ds <:+: t

theorem LongNumber.mono (h : LongNumber s) (hs : s <:+: t) : LongNumber t := by
  obtain ⟨ds, hlength, hdigits, hds⟩ := h
  exact ⟨ds, hlength, hdigits, hds.trans hs⟩

theorem longNumber_of_after? (h : after? r = .error e) : LongNumber (.char '&' :: r) := by
  unfold after? at h
  split at h
  · rename_i r
    dsimp only at h
    split at h
    · repeat' split at h
      all_goals cases h
    · split at h
      · rename_i hlength
        refine ⟨r.takeWhile Glyph.isDigit, hlength, fun g hg => List.mem_takeWhile_imp hg, ?_⟩
        exact (List.prefix_append_right_inj [Glyph.char '&', .char '#']).2 (List.takeWhile_prefix _) |>.isInfix
      · cases h
  · cases h

theorem longNumber_of_decodeFrom {skip : Nat} (h : decodeFrom skip t = .error e) : LongNumber t := by
  induction t generalizing skip with
  | nil => simp [decodeFrom] at h
  | cons g r ih =>
    have hrest : ∀ {n}, decodeFrom n r = .error e → LongNumber (g :: r) := by
      intro n hn
      exact (ih hn).mono (List.suffix_cons g r).isInfix
    have hbehind : ∀ {n} (front : Text), (do return front ++ (← decodeFrom n r)) = .error e → LongNumber (g :: r) := by
      intro n front hn
      cases hmore : decodeFrom n r with
      | ok v => simp [hmore, bind, Except.bind, pure, Except.pure] at hn
      | error e' =>
        simp only [hmore, bind, Except.bind, Except.error.injEq] at hn
        exact hrest (hn ▸ hmore)
    cases skip with  -- What is skipped was decoded before; else only a reference can fail.
    | succ skip => exact hrest h
    | zero =>
      by_cases hg : g = .char '&'
      · subst hg
        simp only [decodeFrom] at h
        cases hafter : after? r with
        | error e' => exact longNumber_of_after? hafter
        | ok found =>
          rw [hafter] at h
          cases found with
          | none => exact hbehind [.char '&'] h
          | some p => exact hbehind p.1 h
      · rw [decodeFrom] at h
        · exact hbehind [g] h
        · exact hg

theorem longNumber_of_decode (h : decode t = .error e) : LongNumber t := by
  unfold decode at h
  split at h
  · exact longNumber_of_decodeFrom h
  · cases h

/-- Too many digits behind `&#` are refused. -/
theorem decode_digits {ds : Text} (hlength : maxDigits < ds.length) (hdigits : ∀ g ∈ ds, g.isDigit) :
    decode (.char '&' :: .char '#' :: ds) = .error ⟨ds.length⟩ := by
  have htake : ds.takeWhile Glyph.isDigit = ds := List.takeWhile_eq_self_iff.2 hdigits
  have hne : ds.isEmpty = false := by
    cases ds with
    | nil => simp at hlength
    | cons g ds => rfl
  have hafter : after? (.char '#' :: ds) = .error ⟨ds.length⟩ := by
    simp only [after?, htake, hne, Bool.false_eq_true, if_false, if_pos hlength]
  have hamp : (Glyph.char '&' :: .char '#' :: ds).contains (.char '&') = true := rfl
  rw [decode, if_pos hamp, decodeFrom, hafter]
  rfl

end Entity

namespace Tag

open Entity

variable {t source rest : Text} {g : Glyph} {e : TooLong}

theorem value_infix_source {a : Assignment} (h : assignment? t = some a) : a.value <:+: a.source := by
  rcases hlead : Text.cutAt (fun g => !g.isBlank) t with ⟨lead, t₁⟩
  rcases hequals : Text.cutAt (fun g => g != .char '=') t₁ with ⟨equals, t₂⟩
  rcases hgap : Text.cutAt (fun g => !g.isBlank) t₂ with ⟨gap, t₃⟩
  simp only [assignment?, hlead, hequals, hgap] at h
  split at h
  · cases h
  split at h
  · rename_i q r
    split at h
    · split at h
      · rename_i v close rest _
        obtain rfl := Option.some.inj h
        exact ⟨lead ++ equals ++ gap ++ [q], [close], by simp⟩
      · split at h
        · obtain rfl := Option.some.inj h
          exact List.nil_infix
        · split at h
          · cases h
          · obtain rfl := Option.some.inj h
            exact (List.suffix_append _ _).isInfix
    · obtain rfl := Option.some.inj h
      exact (List.suffix_append _ _).isInfix
  · obtain rfl := Option.some.inj h
    exact List.nil_infix

theorem value_infix_of_attribute? {a : RawAttribute} (h : attribute? g t = some (a, source, rest)) :
    a.value.getD [] <:+: t := by
  cases t with
  | nil => simp [attribute?] at h
  | cons x r =>
    simp only [attribute?] at h
    split at h
    · cases h
    · rcases hname : Text.cutAt (fun g => g.isBlank || g == .char '/' || g == .char '=' || g == .char '>') r with
        ⟨more, t₁⟩
      simp only [hname] at h
      split at h
      · rename_i b hassign
        simp only [Option.some.injEq, Prod.mk.injEq] at h
        obtain ⟨rfl, -⟩ := h
        have hb : b.value <:+: t₁ :=
          (value_infix_source hassign).trans ⟨[], b.rest, source_append_rest hassign⟩
        have ht₁ : t₁ <:+ x :: r := ⟨x :: more, congrArg (List.cons x) (append_of_cutAt hname)⟩
        exact hb.trans ht₁.isInfix
      · simp only [Option.some.injEq, Prod.mk.injEq] at h
        obtain ⟨rfl, -⟩ := h
        exact List.nil_infix

theorem value_infix_of_attributesFrom {fuel : Nat} {as : List RawAttribute}
    (h : attributesFrom fuel g t = (as, source, rest)) : ∀ a ∈ as, a.value.getD [] <:+: t := by
  induction fuel generalizing g t source rest as with
  | zero =>
    obtain ⟨rfl, -⟩ := Prod.mk.inj h
    exact nofun
  | succ fuel ih =>
    simp only [attributesFrom] at h
    split at h
    · obtain ⟨rfl, -⟩ := Prod.mk.inj h
      exact nofun
    · rename_i a first mid hfirst
      rcases hmore : attributesFrom fuel (first.getLast?.getD g) mid with ⟨bs, more, last⟩
      simp only [hmore, Prod.mk.injEq] at h
      obtain ⟨rfl, -⟩ := h
      intro b hb
      rcases List.mem_cons.1 hb with rfl | hb
      · exact value_infix_of_attribute? hfirst
      · have hmid : mid <:+ t := ⟨first, append_of_attribute? hfirst⟩
        exact (ih hmore b hb).trans hmid.isInfix

theorem exists_of_resolveAttributes {as : List RawAttribute} (h : resolveAttributes as = .error e) :
    ∃ a ∈ as, Entity.decode (a.value.getD []) = .error e := by
  induction as with
  | nil => cases h
  | cons a as ih =>
    simp only [resolveAttributes] at h
    cases hvalue : Entity.decode (a.value.getD []) with
    | error e' =>
      simp only [hvalue, bind, Except.bind, Except.error.injEq] at h
      exact ⟨a, List.mem_cons_self, h ▸ hvalue⟩
    | ok v =>
      cases hrest : resolveAttributes as with
      | error e' =>
        simp only [hvalue, hrest, bind, Except.bind, Except.error.injEq] at h
        obtain ⟨b, hb, hdecode⟩ := ih (h ▸ hrest)
        exact ⟨b, List.mem_cons_of_mem a hb, hdecode⟩
      | ok vs => simp [hvalue, hrest, bind, Except.bind, pure, Except.pure] at h

theorem longNumber_of_read (h : read t = .error e) : LongNumber t := by
  rcases hname : Text.cutAt endsName t with ⟨name, t₁⟩
  rcases hgap : cutGap t₁ with ⟨gap, t₂⟩
  rcases hattrs : attributesFrom t₂.length ((name ++ gap).getLast?.getD (.char '<')) t₂ with ⟨raw, source, rest⟩
  have hresolve : resolveAttributes raw = .error e := by
    simp only [read, hname, hgap, hattrs] at h
    cases hresolve : resolveAttributes raw with
    | ok attrs =>
      simp only [hresolve, bind, Except.bind] at h
      repeat' split at h
      all_goals cases h
    | error e' =>
      simp only [hresolve, bind, Except.bind] at h
      repeat' split at h
      all_goals cases h
      all_goals rfl
  obtain ⟨a, ha, hdecode⟩ := exists_of_resolveAttributes hresolve
  have ht₂ : t₂ <:+ t := ⟨name ++ gap, by rw [List.append_assoc, append_of_cutGap hgap, append_of_cutAt hname]⟩
  exact (longNumber_of_decode hdecode).mono ((value_infix_of_attributesFrom hattrs a ha).trans ht₂.isInfix)

end Tag

namespace Token

variable {refs : References} {raw raw' : Option Text} {e : Event} {n : Nat} {t r : Text} {g : Glyph}
  {f : MarkupFault}

/-! ### Obstacles -/

/-- A marked section, given what follows its first three glyphs. -/
def marked (t : Text) : Text := .char '<' :: .char '!' :: .char '[' :: t

/-- The name of a marked section. -/
def sectionName (g : Glyph) (r : Text) : Text := g :: r.takeWhile isSectionName

/-- What follows the name of a marked section. -/
def behindName (r : Text) : Text := r.dropWhile isSectionName

/-- What stands in front of a text outside of raw text and cannot be read. -/
inductive Obstacle : Text → MarkupFault → Prop
  | nameless (g : Glyph) (r : Text) : g.isLetter = false →  -- A marked section without a name.
      Obstacle (marked (g :: r)) (.nameExpected ((marked (g :: r)).take 20))
  -- A marked section with a name that means nothing, and something behind it.
  | unknown (g : Glyph) (r : Text) : g.isLetter →
      Text.lower (sectionName g r) ∉ standardSections ++ conditionalSections →
      (behindName r).dropWhile Glyph.isBlank ≠ [] →
      Obstacle (marked (g :: r)) (.unknownSection (sectionName g r ++ (behindName r).takeWhile Glyph.isBlank))
  -- A start tag with a number that is too long in the value of an attribute.
  | tag (g : Glyph) (r : Text) (e : Entity.TooLong) : g.isLetter → Tag.read (g :: r) = .error e →
      Obstacle (.char '<' :: g :: r) (.tooLong e)
  -- Running text with such a number.
  | text (t : Text) (e : Entity.TooLong) : Entity.decode (t.takeWhile (· != .char '<')) = .error e →
      Obstacle t (.tooLong e)
  -- A construct that never ends, and so is text, with such a number.
  | stranded (g : Glyph) (r : Text) (e : Entity.TooLong) : nextConstruct (.char '<' :: g :: r) = .wait →
      Entity.decode ((Glyph.char '<' :: g :: r).take (strandedSize (.char '<' :: g :: r))) = .error e →
      Obstacle (.char '<' :: g :: r) (.tooLong e)

/-- An obstacle is a marked section, or holds a number that is too long. -/
theorem Obstacle.marked_or_long (h : Obstacle t f) : marked [] <+: t ∨ Entity.LongNumber t := by
  cases h with
  | nameless g r => exact .inl ⟨g :: r, rfl⟩
  | unknown g r => exact .inl ⟨g :: r, rfl⟩
  | tag g r e hletter hread =>
    right
    exact (Tag.longNumber_of_read hread).mono (List.suffix_cons _ _).isInfix
  | text t e hdecode =>
    right
    exact (Entity.longNumber_of_decode hdecode).mono (List.takeWhile_prefix _).isInfix
  | stranded g r e hwait hdecode =>
    right
    exact (Entity.longNumber_of_decode hdecode).mono (List.take_prefix _ _).isInfix

/-! ### What the next token says -/

theorem nextRun_eq_fault : nextRun .resolved n t = .fault f ↔
    ∃ e, Entity.decode (t.take n) = .error e ∧ f = .tooLong e := by
  unfold nextRun
  cases hdecode : Entity.decode (t.take n) with
  | ok v => simp
  | error e => simp [eq_comm]

theorem nextRun_ne_wait : nextRun refs n t ≠ .wait := by
  cases refs with
  | kept => exact nofun
  | resolved =>
    cases hdecode : Entity.decode (t.take n) <;> simp [nextRun, hdecode]

theorem contentOrWait_ne_fault (m? : Option Nat) : contentOrWait raw m? ≠ .fault f := by
  cases m? <;> exact nofun

theorem nextSection_eq_fault : nextSection (marked (g :: r)) = .fault f ↔
    g.isLetter = false ∧ f = .nameExpected ((marked (g :: r)).take 20) ∨
    g.isLetter ∧ Text.lower (sectionName g r) ∉ standardSections ++ conditionalSections ∧
      (behindName r).dropWhile Glyph.isBlank ≠ [] ∧
      f = .unknownSection (sectionName g r ++ (behindName r).takeWhile Glyph.isBlank) := by
  have hdrop : (marked (g :: r)).drop 3 = g :: r := rfl
  have hname : g :: r.takeWhile isSectionName = sectionName g r := rfl
  have hbehind : r.dropWhile isSectionName = behindName r := rfl
  simp only [nextSection, hdrop, Text.cutAt, Bool.not_not, hname, hbehind]
  cases hg : g.isLetter with
  | false =>
    simp only [Bool.false_eq_true, if_false, Next.fault.injEq, true_and, false_and, or_false]
    exact eq_comm
  | true =>
    simp only [if_true, Bool.true_eq_false, false_and, false_or, true_and]
    by_cases hrest : (behindName r).dropWhile Glyph.isBlank = []
    · simp [hrest]
    · rw [if_neg (by rwa [List.isEmpty_iff])]
      simp only [hrest, ne_eq, not_false_eq_true, true_and, List.mem_append, not_or]
      split
      · rename_i ending hending
        refine iff_of_false (contentOrWait_ne_fault _) ?_
        rintro ⟨⟨hstandard, hconditional⟩, -⟩
        simp [hstandard, hconditional] at hending
      · rename_i hnone
        -- No ending means that the name is neither a standard section nor a conditional one.
        have hmeaningless : Text.lower (sectionName g r) ∉ standardSections ∧
            Text.lower (sectionName g r) ∉ conditionalSections := by
          constructor
          · intro hmem
            simp [hmem] at hnone
          · intro hmem
            by_cases hstandard : Text.lower (sectionName g r) ∈ standardSections <;>
              simp [hstandard, hmem] at hnone
        rw [Next.fault.injEq]
        constructor
        · intro h
          exact ⟨hmeaningless, h.symm⟩
        · rintro ⟨-, rfl⟩
          rfl

theorem nextStart_eq_fault : nextStart t = .fault f ↔ ∃ e, Tag.read (t.drop 1) = .error e ∧ f = .tooLong e := by
  unfold nextStart
  cases hread : Tag.read (t.drop 1) with
  | error e => simp [eq_comm]
  | ok reading => cases reading <;> simp

theorem nextEnd_ne_fault : nextEnd raw t ≠ .fault f := by
  intro h
  simp only [nextEnd] at h
  repeat' split at h
  all_goals cases h

theorem nextDeclaration_eq_fault : nextDeclaration r = .fault f ↔
    ∃ g s, r = .char '[' :: g :: s ∧ nextSection (marked (g :: s)) = .fault f := by
  unfold nextDeclaration
  -- A comment or a declaration is read or waited for; only a marked section can fail.
  by_cases hcomment : r.take 2 = [.char '-', .char '-']
  · rw [if_pos hcomment]
    refine iff_of_false (contentOrWait_ne_fault _) ?_
    rintro ⟨g, s, rfl, -⟩
    exact absurd (List.cons.inj hcomment).1 (by decide)
  · rw [if_neg hcomment]
    by_cases hsection : r.head? = some (.char '[')
    · rw [if_pos hsection]
      obtain ⟨s, rfl⟩ := List.head?_eq_some_iff.1 hsection
      cases s with
      | nil =>
        refine iff_of_false ?_ ?_
        · simp [nextSection]
        · rintro ⟨g, s, h, -⟩
          cases h
      | cons g s =>
        constructor
        · intro h
          exact ⟨g, s, rfl, h⟩
        · rintro ⟨g', s', heq, h⟩
          cases heq
          exact h
    · rw [if_neg hsection]
      refine iff_of_false (contentOrWait_ne_fault _) ?_
      rintro ⟨g, s, rfl, -⟩
      exact hsection rfl

/-- A construct that cannot be read is a marked section or a start tag. -/
theorem nextConstruct_eq_fault : nextConstruct (.char '<' :: g :: r) = .fault f ↔
    (∃ h s, g :: r = .char '!' :: .char '[' :: h :: s ∧ nextSection (marked (h :: s)) = .fault f) ∨
    g.isLetter ∧ ∃ e, Tag.read (g :: r) = .error e ∧ f = .tooLong e := by
  rw [nextConstruct_cons]
  by_cases hdeclaration : g = .char '!'
  · subst hdeclaration
    have hletter : (Glyph.char '!').isLetter = false := by decide
    rw [if_neg (by decide), if_pos rfl, nextDeclaration_eq_fault, hletter]
    simp
  · have hnone : ¬ ∃ h s, g :: r = .char '!' :: .char '[' :: h :: s ∧ nextSection (marked (h :: s)) = .fault f := by
      rintro ⟨h, s, heq, -⟩
      exact hdeclaration (List.cons.inj heq).1
    rw [or_iff_right hnone, if_neg hdeclaration]
    -- End tags and instructions are read or waited for; a letter begins a start tag, and all else is text.
    split
    · rename_i hend
      refine iff_of_false nextEnd_ne_fault ?_
      rintro ⟨hletter, -⟩
      rw [hend] at hletter
      exact absurd hletter (by decide)
    · split
      · rename_i hquestion
        refine iff_of_false (contentOrWait_ne_fault _) ?_
        rintro ⟨hletter, -⟩
        rw [hquestion] at hletter
        exact absurd hletter (by decide)
      · split
        · rename_i hletter
          rw [nextStart_eq_fault]
          exact (and_iff_right hletter).symm
        · rename_i hletter
          refine iff_of_false nofun ?_
          rintro ⟨h, -⟩
          exact hletter h

/-! ### Where the next token is a fault -/

theorem next_text (hg : g ≠ .char '<') (final : Bool) (r : Text) :
    next .resolved none final (g :: r) =
      if ((g :: r).takeWhile (· != .char '<')).length = (g :: r).length && endsInReference (g :: r) then .wait
      else nextRun .resolved ((g :: r).takeWhile (· != .char '<')).length (g :: r) := by
  have hstops : (fun g : Glyph => !(g == .char '<' || (decide (References.resolved = .kept) && g == .char '&'))) =
      (· != .char '<') := by
    funext g
    simp [bne]
  have hrun : ((g :: r).takeWhile (· != .char '<')).isEmpty = false := by
    rw [List.takeWhile_cons_of_pos (by simpa using hg)]
    rfl
  simp only [next, hstops, hrun, Bool.not_false, if_true, decide_true, Bool.true_and]

theorem next_construct (final : Bool) (g : Glyph) (r : Text) :
    next .resolved none final (.char '<' :: g :: r) =
      settle .resolved final (.char '<' :: g :: r) (nextConstruct (.char '<' :: g :: r)) := by
  simp [next]

theorem settle_eq_fault {x : Next} : settle .resolved true t x = .fault f ↔
    x = .fault f ∨ x = .wait ∧ nextRun .resolved (strandedSize t) t = .fault f := by
  cases x <;> simp [settle]

theorem settle_ne_wait (refs : References) (t : Text) (x : Next) : settle refs true t x ≠ .wait := by
  cases x with
  | wait => exact nextRun_ne_wait
  | token => exact nofun
  | tokenThenWait => exact nofun
  | fault => exact nofun

theorem decode_nil : Entity.decode [] = .ok [] := rfl

theorem obstacle_text_iff (hg : g ≠ .char '<') : Obstacle (g :: r) f ↔
    ∃ e, Entity.decode ((g :: r).takeWhile (· != .char '<')) = .error e ∧ f = .tooLong e := by
  constructor
  · intro h
    cases h with
    | text _ e h => exact ⟨e, h, rfl⟩
    | nameless => exact absurd rfl hg
    | unknown => exact absurd rfl hg
    | tag => exact absurd rfl hg
    | stranded => exact absurd rfl hg
  · rintro ⟨e, h, rfl⟩
    exact .text _ e h

theorem obstacle_construct_iff : Obstacle (.char '<' :: g :: r) f ↔
    nextConstruct (.char '<' :: g :: r) = .fault f ∨ nextConstruct (.char '<' :: g :: r) = .wait ∧
      nextRun .resolved (strandedSize (.char '<' :: g :: r)) (.char '<' :: g :: r) = .fault f := by
  constructor
  · intro h
    generalize ht : Glyph.char '<' :: g :: r = t at h ⊢
    cases h with
    | nameless g r hletter =>
      exact .inl (nextConstruct_eq_fault.2 (.inl ⟨g, r, rfl, nextSection_eq_fault.2 (.inl ⟨hletter, rfl⟩)⟩))
    | unknown g r hletter hname hrest =>
      exact .inl (nextConstruct_eq_fault.2
        (.inl ⟨g, r, rfl, nextSection_eq_fault.2 (.inr ⟨hletter, hname, hrest, rfl⟩)⟩))
    | tag g r e hletter hread => exact .inl (nextConstruct_eq_fault.2 (.inr ⟨hletter, e, hread, rfl⟩))
    | text _ e hdecode =>
      rw [← ht, List.takeWhile_cons_of_neg (by decide), decode_nil] at hdecode
      cases hdecode
    | stranded g r e hwait hdecode => exact .inr ⟨hwait, nextRun_eq_fault.2 ⟨e, hdecode, rfl⟩⟩
  · rintro (hfault | ⟨hwait, hrun⟩)
    · rcases nextConstruct_eq_fault.1 hfault with ⟨h, s, heq, hsection⟩ | ⟨hletter, e, hread, rfl⟩
      · have ht : Glyph.char '<' :: g :: r = marked (h :: s) := congrArg (List.cons _) heq
        rw [ht]
        rcases nextSection_eq_fault.1 hsection with ⟨hletter, rfl⟩ | ⟨hletter, hname, hrest, rfl⟩
        · exact .nameless h s hletter
        · exact .unknown h s hletter hname hrest
      · exact .tag g r e hletter hread
    · obtain ⟨e, hdecode, rfl⟩ := nextRun_eq_fault.1 hrun
      exact .stranded g r e hwait hdecode

/-- An obstacle stops a scan, now or when the document ends there. -/
theorem obstacle_iff (ht : t ≠ []) : Obstacle t f ↔
    next .resolved none true t = .fault f ∨
      next .resolved none true t = .wait ∧ nextRun .resolved t.length t = .fault f := by
  obtain ⟨g, r, rfl⟩ := List.exists_cons_of_ne_nil ht
  -- Markup stops a scan at once; running text may wait first, and stop when the document ends.
  by_cases hg : g = .char '<'
  · subst hg
    cases r with
    | nil =>
      have hwait : next .resolved none true [.char '<'] = .wait := rfl
      refine iff_of_false ?_ ?_
      · intro h
        generalize hshort : [Glyph.char '<'] = t at h
        cases h with
        | text _ e hdecode =>
          rw [← hshort] at hdecode
          cases hdecode
        | nameless => cases hshort
        | unknown => cases hshort
        | tag => cases hshort
        | stranded => cases hshort
      · rw [hwait]
        rintro (h | ⟨-, h⟩)
        · cases h
        · cases h
    | cons g r =>
      rw [next_construct, settle_eq_fault, obstacle_construct_iff]
      refine (or_iff_left ?_).symm
      rintro ⟨hwait, -⟩
      exact settle_ne_wait _ _ _ hwait
  · rw [obstacle_text_iff hg, next_text hg]
    have htake : ∀ n, n = ((g :: r).takeWhile (· != .char '<')).length →
        (g :: r).take n = (g :: r).takeWhile (· != .char '<') := by
      rintro n rfl
      exact (List.prefix_iff_eq_take.1 (List.takeWhile_prefix _)).symm
    split
    · rename_i hends
      simp only [Bool.and_eq_true, decide_eq_true_eq] at hends
      rw [nextRun_eq_fault, htake _ hends.1.symm]
      simp
    · rw [nextRun_eq_fault, htake _ rfl]
      refine (or_iff_left ?_).symm
      rintro ⟨hwait, -⟩
      exact nextRun_ne_wait hwait

/-- Raw text never is one. -/
theorem next_raw_ne_fault {name : Text} {final : Bool} : next refs (some name) final t ≠ .fault f := by
  intro h
  simp only [next] at h
  split at h
  · cases h
  · exact nextEnd_ne_fault h
  · cases h

/-- Only waiting makes a difference at the end. -/
theorem next_final (h : next refs raw false t ≠ .wait) : next refs raw true t = next refs raw false t := by
  cases raw with
  | some name => rfl
  | none =>
    have hsettle : ∀ x, settle refs false t x ≠ .wait → settle refs true t x = settle refs false t x := by
      intro x hx
      cases x with
      | wait => exact absurd rfl hx
      | token => rfl
      | tokenThenWait => rfl
      | fault => rfl
    simp only [next] at h ⊢
    split
    · rfl
    · rename_i hrun
      rw [if_neg hrun] at h
      split at h
      · rfl
      · rfl
      · exact hsettle _ h

/-- Where references are resolved, no piece of text is cut off in waiting. -/
theorem next_ne_tokenThenWait (ht : t ≠ []) (final : Bool) : next .resolved raw final t ≠ .tokenThenWait n := by
  intro h
  rcases fronts_or_runs .resolved final raw ht with ⟨-, hfronts⟩ | ⟨rfl, hruns⟩
  · rw [h] at hfronts
    exact hfronts
  · rw [h] at hruns
    cases hruns.2.1

end Token

namespace Scanner

variable {refs : References} {raw raw' : Option Text} {e : Event} {n : Nat} {t : Text} {f : MarkupFault}

/-! ### One pass over the document -/

theorem length_drop_lt {final : Bool} (ht : t ≠ []) (h : Token.next refs raw final t = .token e n raw') :
    (t.drop n).length < t.length := by
  have hpos := (Token.steps_next _ _ _ _ _ h).1
  have hlength := List.length_pos_iff.2 ht
  rw [List.length_drop]
  omega

theorem pass_wait {final : Bool} (h : Token.next refs raw final t = .wait) :
    pass refs final raw t = ⟨[], .ok (raw, t)⟩ := by
  cases t with
  | nil => rfl
  | cons g r => simp only [pass, List.length_cons, passFrom, h]

theorem pass_fault {final : Bool} (ht : t ≠ []) (h : Token.next refs raw final t = .fault f) :
    pass refs final raw t = ⟨[], .error f⟩ := by
  obtain ⟨g, r, rfl⟩ := List.exists_cons_of_ne_nil ht
  simp only [pass, List.length_cons, passFrom, h]

theorem finalPass_nil : finalPass refs raw [] = ⟨[], .ok (raw, [])⟩ := by
  cases raw <;> rfl

theorem finalPass_token (ht : t ≠ []) (h : Token.next refs raw true t = .token e n raw') :
    finalPass refs raw t = ⟨⟨t.take n, e⟩ :: (finalPass refs raw' (t.drop n)).tokens,
      (finalPass refs raw' (t.drop n)).stop⟩ := by
  simp only [finalPass, pass_token ht h]
  split
  · rename_i hstop
    split <;> rfl
  · rfl

theorem finalPass_fault (ht : t ≠ []) (h : Token.next refs raw true t = .fault f) :
    finalPass refs raw t = ⟨[], .error f⟩ := by
  simp only [finalPass, pass_fault ht h]

/-- Outside of raw text, what waits at the end is text. -/
theorem finalPass_wait (ht : t ≠ []) (h : Token.next refs none true t = .wait) :
    finalPass refs none t =
      match Token.nextRun refs t.length t with
      | .fault f => ⟨[], .error f⟩
      | _ => ⟨[⟨t, .content⟩], .ok (none, [])⟩ := by
  obtain ⟨g, r, rfl⟩ := List.exists_cons_of_ne_nil ht
  simp only [finalPass, pass_wait h]
  rfl

theorem finalPass_raw {name : Text} (h : Token.next refs (some name) true t = .wait) :
    finalPass refs (some name) t = ⟨[], .ok (some name, t)⟩ := by
  simp only [finalPass, pass_wait h]

/-- A pass that may be continued and a final one over what it leaves are one final pass. -/
theorem finalPass_eq (raw : Option Text) (t : Text) :
    (∃ f, (pass .resolved false raw t).stop = .error f ∧
      finalPass .resolved raw t = ⟨(pass .resolved false raw t).tokens, .error f⟩) ∨
    ∃ raw' rest, (pass .resolved false raw t).stop = .ok (raw', rest) ∧
      finalPass .resolved raw t = ⟨(pass .resolved false raw t).tokens ++ (finalPass .resolved raw' rest).tokens,
        (finalPass .resolved raw' rest).stop⟩ := by
  induction hlen : t.length using Nat.strong_induction_on generalizing raw t with
  | _ len ih =>
    by_cases ht : t = []
    · subst ht
      exact .inr ⟨raw, [], rfl, rfl⟩
    cases hnext : Token.next .resolved raw false t with
    | token e n raw' =>
      have hfinal := (Token.next_final (by rw [hnext]; exact nofun)).trans hnext
      have hshort := length_drop_lt ht hnext
      rw [hlen] at hshort
      rw [finalPass_token ht hfinal, pass_token ht hnext]
      rcases ih _ hshort raw' (t.drop n) rfl with ⟨f, hstop, heq⟩ | ⟨raw'', rest, hstop, heq⟩
      · exact .inl ⟨f, hstop, by rw [heq]⟩
      · exact .inr ⟨raw'', rest, hstop, by rw [heq, List.cons_append]⟩
    | tokenThenWait n => exact absurd hnext (Token.next_ne_tokenThenWait ht false)
    | wait =>
      rw [pass_wait hnext]
      exact .inr ⟨raw, t, rfl, rfl⟩
    | fault f =>
      have hfinal := (Token.next_final (by rw [hnext]; exact nofun)).trans hnext
      rw [pass_fault ht hnext, finalPass_fault ht hfinal]
      exact .inl ⟨f, rfl, rfl⟩

/-- **A scan is one final pass**: its tokens are those of the pass, and it meets the same fault, or none. -/
theorem scan_eq_finalPass (t : Text) :
    (scan .resolved t).tokens = Located.of .start (finalPass .resolved none t).tokens ∧
      ∀ f, (scan .resolved t).outcome = .error f ↔ (finalPass .resolved none t).stop = .error f := by
  simp only [scan, feedAll, feed, close, resume, start, List.nil_append]
  rcases finalPass_eq none t with ⟨f, hstop, heq⟩ | ⟨raw, rest, hstop, heq⟩
  · rw [heq, hstop]
    simp [Except.map]
  · rw [heq, hstop, Located.of_append]
    refine ⟨rfl, ?_⟩
    intro f
    simp only [Except.map]
    cases (finalPass .resolved raw rest).stop <;> simp

end Scanner
end HtmlDeps
