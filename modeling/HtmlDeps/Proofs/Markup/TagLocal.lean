import HtmlDeps.Proofs.Markup.Sources

/-!
# What a start tag depends on

A start tag is told by its own text and little more.  Its grammar never reads past the `>` at its
end, with one exception: an attribute's value that opens with a quote looks for the other quote in
all that is left of the document.  If the text behind the `>` is replaced by one that has no glyphs
of its own, the tag stays as it is (`Tag.read_local`).
-/

namespace HtmlDeps

variable {u x : Text}

/-! ### Up to a `>` -/

theorem takeWhile_append_of_stop {p : Glyph → Bool} (hp : p (.char '>') = false) (u x : Text) :
    (u ++ .char '>' :: x).takeWhile p = u.takeWhile p := by
  induction u with
  | nil => simp [hp]
  | cons g u ih =>
    by_cases hg : p g = true
    · simp [hg, ih]
    · simp [hg]

theorem dropWhile_append_of_stop {p : Glyph → Bool} (hp : p (.char '>') = false) (u x : Text) :
    (u ++ .char '>' :: x).dropWhile p = u.dropWhile p ++ .char '>' :: x := by
  induction u with
  | nil => simp [hp]
  | cons g u ih =>
    by_cases hg : p g = true
    · simp [hg, ih]
    · simp [hg]

theorem Text.cutAt_append_of_stop {p : Glyph → Bool} (hp : p (.char '>') = true) (u x : Text) :
    cutAt p (u ++ .char '>' :: x) = ((cutAt p u).1, (cutAt p u).2 ++ .char '>' :: x) := by
  simp only [cutAt]
  rw [takeWhile_append_of_stop (by simp [hp]), dropWhile_append_of_stop (by simp [hp])]

theorem Text.skipBlanks_append_of_stop (u x : Text) :
    skipBlanks (u ++ .char '>' :: x) = skipBlanks u ++ .char '>' :: x :=
  dropWhile_append_of_stop (by decide) u x

theorem head?_append_stop (u x : Text) :
    (u ++ .char '>' :: x).head? = (u ++ [Glyph.char '>']).head? := by
  cases u <;> rfl

/-- A piece of the text without `>` lies in front of the `>`. -/
theorem exists_of_append_eq {p r : Text} (hp : Glyph.char '>' ∉ p)
    (h : u ++ .char '>' :: x = p ++ r) :
    ∃ v, u = p ++ v ∧ r = v ++ .char '>' :: x := by
  rcases List.append_eq_append_iff.1 h with ⟨a, rfl, ha⟩ | ⟨a, rfl, ha⟩
  · cases a with
    | nil => exact ⟨[], by simp, by simpa using ha.symm⟩
    | cons g a =>
      obtain ⟨rfl, -⟩ := List.cons.inj ha
      exact absurd (by simp) hp
  · exact ⟨a, rfl, ha⟩

/-! ### Start tags -/

namespace Tag

theorem cutGap_cons {g : Glyph} {r : Text} (h : ¬ (g = .char '/' ∧ r.head? = some (.char '>'))) :
    cutGap (g :: r) =
      if g.isBlank || g = .char '/' then (g :: (cutGap r).1, (cutGap r).2) else ([], g :: r) := by
  rw [cutGap]
  rintro r' rfl rfl
  exact h ⟨rfl, rfl⟩

theorem cutGap_append_of_stop (u : Text) :
    ∃ a v, u = a ++ v ∧ ∀ x, cutGap (u ++ .char '>' :: x) = (a, v ++ .char '>' :: x) := by
  induction u with
  | nil => exact ⟨[], [], rfl, fun x => by simp [cutGap, Glyph.isBlank, Glyph.holds, blanks]⟩
  | cons g u ih =>
    obtain ⟨a, v, hu, hcut⟩ := ih
    by_cases hslash : g = .char '/' ∧ (u ++ [Glyph.char '>']).head? = some (.char '>')
    · obtain ⟨rfl, hhead⟩ := hslash
      refine ⟨[], .char '/' :: u, rfl, fun x => ?_⟩
      rw [← head?_append_stop u x] at hhead
      obtain ⟨r, hr⟩ := List.head?_eq_some_iff.1 hhead
      rw [List.cons_append, hr, cutGap]
    · by_cases hg : (g.isBlank || g = .char '/') = true
      · refine ⟨g :: a, v, by rw [hu, List.cons_append], fun x => ?_⟩
        rw [List.cons_append, cutGap_cons (by rwa [head?_append_stop]), if_pos hg, hcut]
      · refine ⟨[], g :: u, rfl, fun x => ?_⟩
        rw [List.cons_append, cutGap_cons (by rwa [head?_append_stop]), if_neg hg]

/-! #### A quoted value -/

theorem cutAt_quote_of_mem {q : Glyph} {r : Text} (h : q ∈ r) :
    ∃ v rest, r = v ++ q :: rest ∧ ∀ z, Text.cutAt (· == q) (r ++ z) = (v, q :: rest ++ z) := by
  induction r with
  | nil => cases h
  | cons g r ih =>
    by_cases hg : g = q
    · subst hg
      exact ⟨[], r, rfl, fun z => by simp [Text.cutAt]⟩
    · obtain ⟨v, rest, rfl, hcut⟩ := ih ((List.mem_cons.1 h).resolve_left fun e => hg e.symm)
      refine ⟨g :: v, rest, rfl, fun z => ?_⟩
      have hcut := hcut z
      simp only [Text.cutAt, Prod.mk.injEq] at hcut ⊢
      simp only [List.cons_append, List.takeWhile_cons, List.dropWhile_cons, hcut]
      simp [hg]

theorem cutAt_quote_of_not_mem {q : Glyph} {r : Text} (h : q ∉ r) :
    Text.cutAt (· == q) r = (r, []) := by
  have hall : ∀ g ∈ r, (!(g == q)) = true := by
    intro g hg
    simp only [Bool.not_eq_true', beq_eq_false_iff_ne]
    rintro rfl
    exact h hg
  rw [Text.cutAt, List.takeWhile_eq_self_iff.2 hall, List.dropWhile_eq_nil_iff.2 hall]

/-- The first `q` of a text does not lie in a part that has none. -/
theorem length_le_of_append_eq {q : Glyph} {r v rest : Text}
    (h : r ++ .char '>' :: x = v ++ q :: rest) (hr : q ∉ r) (hq : q ≠ .char '>') :
    r.length ≤ v.length := by
  rcases List.append_eq_append_iff.1 h with ⟨a, rfl, -⟩ | ⟨a, rfl, ha⟩
  · simp
  · cases a with
    | nil => exact absurd (List.cons.inj ha).1 hq
    | cons g a =>
      obtain ⟨rfl, -⟩ := List.cons.inj ha
      exact absurd (by simp) hr

theorem cutBare_append_of_stop (u z : Text) :
    cutBare (u ++ .char '>' :: z) = ((cutBare u).1, (cutBare u).2 ++ .char '>' :: z) :=
  Text.cutAt_append_of_stop (by decide) u z

/-- The assignment of a value that opens with the quote `q`, given what stands in front of it and
behind it. -/
def quotedAssignment? (lead equals gap : Text) (q : Glyph) (r : Text) : Option Assignment :=
  match Text.cutAt (· == q) r with
  | (v, close :: rest) => some ⟨v, lead ++ equals ++ gap ++ q :: (v ++ [close]), rest⟩
  | (_, []) =>
    match gap.getLast? with
    | some g => some ⟨[], lead ++ equals ++ gap.dropLast, g :: q :: r⟩
    | none =>
      if equals.length = 1 then none
      else
        some ⟨(cutBare (.char '=' :: q :: r)).1,
          lead ++ equals.dropLast ++ (cutBare (.char '=' :: q :: r)).1,
          (cutBare (.char '=' :: q :: r)).2⟩

theorem quotedAssignment?_local {lead equals gap r : Text} {q : Glyph} (hq : q ≠ .char '>')
    (hsize : ∀ a ∈ quotedAssignment? lead equals gap q (r ++ .char '>' :: x),
      a.source.length ≤ lead.length + equals.length + gap.length + r.length + 1) :
    (∀ z ⊆ x, quotedAssignment? lead equals gap q (r ++ .char '>' :: z) = none) ∨
      ∃ value source v, ∀ z ⊆ x, quotedAssignment? lead equals gap q (r ++ .char '>' :: z) =
        some ⟨value, source, v ++ .char '>' :: z⟩ := by
  unfold quotedAssignment? at hsize ⊢
  by_cases hr : q ∈ r
  · -- the value is closed in front of the `>`
    obtain ⟨v, rest, rfl, hcut⟩ := cutAt_quote_of_mem hr
    simp only [hcut]
    exact .inr ⟨_, _, rest, fun _ _ => rfl⟩
  by_cases hx : q ∈ x
  · -- the value runs over the `>`, which the size rules out
    have hmem : q ∈ r ++ .char '>' :: x := by simp [hx]
    obtain ⟨v, rest, hv, hcut⟩ := cutAt_quote_of_mem hmem
    have hcut := hcut []
    rw [List.append_nil, List.append_nil] at hcut
    simp only [hcut, Option.mem_def] at hsize
    have hlong := length_le_of_append_eq hv hr hq
    have hle := hsize _ rfl
    simp only [List.length_append, List.length_cons, List.length_nil] at hle
    omega
  have hopen : ∀ z ⊆ x,  -- the quote is never closed, be there more text or less
      Text.cutAt (· == q) (r ++ .char '>' :: z) = (r ++ .char '>' :: z, []) := by
    intro z hz
    have hqz : q ∉ z := fun h => hx (hz h)
    exact cutAt_quote_of_not_mem (by simp [hr, hq, hqz])
  cases hlast : gap.getLast? with
  | some g =>
    refine .inr ⟨[], lead ++ equals ++ gap.dropLast, g :: q :: r, fun z hz => ?_⟩
    simp only [hopen z hz, List.cons_append]
  | none =>
    by_cases hone : equals.length = 1
    · refine .inl fun z hz => ?_
      simp only [hopen z hz, if_pos hone]
    · refine .inr ⟨(cutBare (.char '=' :: q :: r)).1,
        lead ++ equals.dropLast ++ (cutBare (.char '=' :: q :: r)).1,
        (cutBare (.char '=' :: q :: r)).2, fun z hz => ?_⟩
      simp only [hopen z hz, if_neg hone, ← List.cons_append, cutBare_append_of_stop]

/-- An assignment that ends in front of the `>` is read there whatever part of the text behind is
left. -/
theorem assignment?_local
    (hsize : ∀ a ∈ assignment? (u ++ .char '>' :: x), a.source.length ≤ u.length) :
    (∀ z ⊆ x, assignment? (u ++ .char '>' :: z) = none) ∨
      ∃ value source v, ∀ z ⊆ x,
        assignment? (u ++ .char '>' :: z) = some ⟨value, source, v ++ .char '>' :: z⟩ := by
  rcases hlead : Text.cutAt (fun g => !g.isBlank) u with ⟨lead, t₁⟩
  rcases hequal : Text.cutAt (fun g => g != .char '=') t₁ with ⟨equals, t₂⟩
  rcases hgap : Text.cutAt (fun g => !g.isBlank) t₂ with ⟨gap, t₃⟩
  have hu : u.length = lead.length + equals.length + gap.length + t₃.length := by
    rw [← append_of_cutAt hlead, ← append_of_cutAt hequal, ← append_of_cutAt hgap]
    simp only [List.length_append, Nat.add_assoc]
  -- Each cut stops at the `>` at the latest, so none of them sees what is behind it.
  have hlead' (z : Text) : Text.cutAt (fun g => !g.isBlank) (u ++ .char '>' :: z) =
      (lead, t₁ ++ .char '>' :: z) := by
    rw [Text.cutAt_append_of_stop (by decide), hlead]
  have hequal' (z : Text) : Text.cutAt (fun g => g != .char '=') (t₁ ++ .char '>' :: z) =
      (equals, t₂ ++ .char '>' :: z) := by
    rw [Text.cutAt_append_of_stop (by decide), hequal]
  have hgap' (z : Text) : Text.cutAt (fun g => !g.isBlank) (t₂ ++ .char '>' :: z) =
      (gap, t₃ ++ .char '>' :: z) := by
    rw [Text.cutAt_append_of_stop (by decide), hgap]
  simp only [assignment?, hlead', hequal', hgap'] at hsize ⊢
  by_cases hempty : equals.isEmpty = true
  · exact .inl fun z _ => if_pos hempty
  simp only [if_neg hempty] at hsize ⊢
  cases t₃ with
  | nil =>
    have hquote : ¬ isQuote (.char '>') = true := by decide
    have hbare (z : Text) : cutBare (.char '>' :: z) = ([], .char '>' :: z) :=
      cutBare_append_of_stop [] z
    simp only [List.nil_append, if_neg hquote, hbare]
    exact .inr ⟨_, _, [], fun _ _ => rfl⟩
  | cons q r =>
    by_cases hq : isQuote q = true
    · simp only [List.cons_append, if_pos hq] at hsize ⊢
      have hqr : q ≠ .char '>' := by
        rintro rfl
        exact absurd hq (by decide)
      rw [hu] at hsize
      exact quotedAssignment?_local hqr hsize
    · simp only [List.cons_append, if_neg hq]
      simp only [← List.cons_append, cutBare_append_of_stop]
      exact .inr ⟨_, _, _, fun _ _ => rfl⟩

theorem attribute?_local {before : Glyph}
    (hsize : ∀ a ∈ attribute? before (u ++ .char '>' :: x), a.2.1.length ≤ u.length) :
    (∀ z ⊆ x, attribute? before (u ++ .char '>' :: z) = none) ∨
      ∃ a source v, source ≠ [] ∧ ∀ z ⊆ x,
        attribute? before (u ++ .char '>' :: z) = some (a, source, v ++ .char '>' :: z) := by
  cases u with
  | nil => exact .inl fun z _ => by simp [attribute?]
  | cons g r =>
    by_cases hnone : (!opensAttribute before || g.isBlank || g = .char '/' || g = .char '>') = true
    · exact .inl fun z _ => by simp only [attribute?, List.cons_append, if_pos hnone]
    rcases hname : Text.cutAt
      (fun g => g.isBlank || g == .char '/' || g == .char '=' || g == .char '>') r with ⟨more, t⟩
    have hname' (z : Text) : Text.cutAt
        (fun g => g.isBlank || g == .char '/' || g == .char '=' || g == .char '>')
          (r ++ .char '>' :: z) = (more, t ++ .char '>' :: z) := by
      rw [Text.cutAt_append_of_stop (by decide), hname]
    simp only [List.cons_append, attribute?, if_neg hnone, hname'] at hsize ⊢
    have ht : r = more ++ t := (append_of_cutAt hname).symm
    have hassign : ∀ a ∈ assignment? (t ++ .char '>' :: x), a.source.length ≤ t.length := by
      intro a ha
      rw [Option.mem_def] at ha
      simp only [ha] at hsize
      have hle := hsize _ rfl
      simp only [ht, List.length_cons, List.length_append] at hle
      omega
    -- What can be missing is the value; the name and the gap behind it end at the `>` at the latest.
    rcases assignment?_local hassign with hz | ⟨value, source, v, hz⟩
    · obtain ⟨gap, w, -, hgap⟩ := cutGap_append_of_stop t
      refine .inr ⟨⟨g :: more, none⟩, g :: more ++ gap, w, by simp, fun z hzx => ?_⟩
      simp only [hz z hzx, hgap, List.cons_append]
    · obtain ⟨gap, w, -, hgap⟩ := cutGap_append_of_stop v
      refine .inr ⟨⟨g :: more, some value⟩, g :: more ++ source ++ gap, w, by simp, fun z hzx => ?_⟩
      simp only [hz z hzx, hgap, List.cons_append]

theorem attributesFrom_local {fuel : Nat} {before : Glyph} (hfuel : u.length < fuel)
    (hsize : (attributesFrom fuel before (u ++ .char '>' :: x)).2.1.length ≤ u.length) :
    ∃ as source v, u = source ++ v ∧ ∀ z ⊆ x, ∀ fuel, u.length < fuel →
      attributesFrom fuel before (u ++ .char '>' :: z) = (as, source, v ++ .char '>' :: z) := by
  induction fuel generalizing u before with
  | zero => cases hfuel
  | succ fuel ih =>
    simp only [attributesFrom] at hsize
    have hfirst : ∀ a ∈ attribute? before (u ++ .char '>' :: x), a.2.1.length ≤ u.length := by
      rintro ⟨a, source, rest⟩ ha
      rw [Option.mem_def] at ha
      simp only [ha, List.length_append] at hsize ⊢
      omega
    -- The first attribute is in front of the `>`, and takes some of the text in front of it.
    rcases attribute?_local hfirst with hnone | ⟨a, source, v, hne, hsome⟩
    · refine ⟨[], [], u, rfl, fun z hz m hm => ?_⟩
      obtain ⟨m, rfl⟩ := Nat.exists_eq_add_one_of_ne_zero (Nat.ne_of_gt (Nat.zero_lt_of_lt hm))
      simp only [attributesFrom, hnone z hz]
    · have hself := hsome x (List.Subset.refl x)
      have hu : u = source ++ v := by
        have := append_of_attribute? hself
        rw [← List.append_assoc] at this
        exact (List.append_cancel_right this).symm
      have hpos : 0 < source.length := List.length_pos_iff.2 hne
      have hlen : u.length = source.length + v.length := by rw [hu, List.length_append]
      simp only [hself, List.length_append, hlen] at hsize
      have hmore := Nat.le_of_add_le_add_left hsize
      obtain ⟨as, more, w, hv, hrest⟩ := @ih v (source.getLast?.getD before) (by omega) hmore
      refine ⟨a :: as, source ++ more, w, by rw [hu, hv, List.append_assoc], fun z hz m hm => ?_⟩
      obtain ⟨m, rfl⟩ := Nat.exists_eq_add_one_of_ne_zero (Nat.ne_of_gt (Nat.zero_lt_of_lt hm))
      simp only [attributesFrom, hsome z hz, hrest z hz m (by omega)]

theorem le_size_of_read {t name t₁ gap t₂ source rest : Text} {raw : List RawAttribute}
    {reading : Reading} (h : read t = .ok reading) (hname : Text.cutAt endsName t = (name, t₁))
    (hgap : cutGap t₁ = (gap, t₂))
    (hattrs : attributesFrom t₂.length ((name ++ gap).getLast?.getD (.char '<')) t₂ =
      (raw, source, rest)) :
    match reading with
    | .incomplete => True
    | .broken n => name.length + gap.length + source.length < n
    | .whole _ n => name.length + gap.length + source.length + 1 < n := by
  simp only [read, hname, hgap, hattrs] at h
  cases hres : resolveAttributes raw with
  | error f =>
    simp only [hres, bind, Except.bind, pure, Except.pure] at h
    repeat' split at h
    all_goals cases h
    all_goals trivial
  | ok attrs =>
    simp only [hres, bind, Except.bind, pure, Except.pure] at h
    repeat' split at h
    all_goals cases h
    all_goals first | trivial | (simp only; omega)

/-- What is read lies between a `<` in front of the text `u` and a `>` behind it, these two
included. -/
def Reading.Within (u : Text) : Reading → Prop
  | .incomplete => False
  | .broken n => n ≤ u.length + 1
  | .whole _ n => n ≤ u.length + 2

theorem read_local {reading : Reading} (h : read (u ++ .char '>' :: x) = .ok reading)
    (hsize : reading.Within u) : ∀ z ⊆ x, read (u ++ .char '>' :: z) = .ok reading := by
  rcases hname : Text.cutAt endsName u with ⟨name, t₁⟩
  have hname' (z : Text) : Text.cutAt endsName (u ++ .char '>' :: z) =
      (name, t₁ ++ .char '>' :: z) := by
    rw [Text.cutAt_append_of_stop (by decide), hname]
  obtain ⟨gap, t₂, ht₁, hgap⟩ := cutGap_append_of_stop t₁
  have hlen : u.length = name.length + (gap.length + t₂.length) := by
    rw [← append_of_cutAt hname, ht₁, List.length_append, List.length_append]
  rcases hattrs : attributesFrom (t₂ ++ .char '>' :: x).length
    ((name ++ gap).getLast?.getD (.char '<')) (t₂ ++ .char '>' :: x) with ⟨raw, source, rest⟩
  have hwithin : name.length + gap.length + source.length ≤ u.length := by
    have hle := le_size_of_read h (hname' x) (hgap x) hattrs
    cases reading with
    | incomplete => exact hsize.elim
    | broken n => exact Nat.le_of_lt_succ (Nat.lt_of_lt_of_le hle hsize)
    | whole tag n =>
      simp only [Reading.Within] at hle hsize
      omega
  have hsource : source.length ≤ t₂.length := by omega
  have hfuel (z : Text) : t₂.length < (t₂ ++ .char '>' :: z).length := by simp
  obtain ⟨as, source, v, hv, hread⟩ := attributesFrom_local (hfuel x) (by rwa [hattrs])
  intro z hz
  simp only [read, hname', hgap] at h ⊢
  rw [hread x (List.Subset.refl x) _ (hfuel x)] at h
  rw [hread z hz _ (hfuel z)]
  cases v with  -- the two glyphs behind the attributes tell, and they lie in front of `x`
  | nil => exact h
  | cons g v =>
    by_cases hclose : g = .char '>'
    · subst hclose
      exact h
    by_cases hslash : g = .char '/'
    · subst hslash
      cases v with
      | nil => exact h
      | cons g v =>
        by_cases hclose : g = .char '>'
        · subst hclose
          exact h
        · simpa [hclose] using h
    · simpa [hclose, hslash] using h

end Tag

end HtmlDeps
