import HtmlDeps.Proofs.Markup.TagLocal

/-!
# What a token depends on

Every pattern of the grammar ends at the first `>` at the latest, so that what stands behind a `>`
has no say in the tokens in front of it, but for the quotes in start tags.  A token stays as it is if
the text behind a later `>` is replaced by one that has no glyphs of its own (`Token.next_local`).
Waiting is not like that: whether a stray `&#` is taken as text depends on a semicolon anywhere
behind it.
-/

namespace HtmlDeps

variable {u x : Text}

/-! ### Patterns that end with `>` -/

namespace Token

variable {raw raw' : Option Text} {n : Nat}

theorem length_sub_skipBlanks (u x : Text) :
    (u ++ .char '>' :: x).length - (Text.skipBlanks u ++ .char '>' :: x).length =
      u.length - (Text.skipBlanks u).length := by
  simp only [List.length_append, List.length_cons]
  omega

theorem commentEnd?_local (u x : Text) :
    commentEnd? (u ++ .char '>' :: x) = commentEnd? (u ++ [.char '>']) := by
  match u with
  | [] => rfl
  | [a] => simp [commentEnd?]
  | a :: b :: u =>
    by_cases hdash : a = .char '-' ∧ b = .char '-'
    · obtain ⟨rfl, rfl⟩ := hdash
      have hnil := Text.skipBlanks_append_of_stop u []
      simp only [List.cons_append, commentEnd?, Text.skipBlanks_append_of_stop, hnil,
        length_sub_skipBlanks, head?_append_stop _ x]
    · have hnone (r : Text) : commentEnd? (a :: b :: r) = none := by
        unfold commentEnd?
        split
        · rename_i heq
          obtain ⟨rfl, hrest⟩ := List.cons.inj heq
          obtain ⟨rfl, -⟩ := List.cons.inj hrest
          exact absurd ⟨rfl, rfl⟩ hdash
        · rfl
      rw [List.cons_append, List.cons_append, List.cons_append, List.cons_append, hnone, hnone]

/-- A pattern that reads `>` at its end alone. -/
theorem spaced?_local {gs : List Glyph} (hgs : Glyph.char '>' ∉ gs.dropLast) (u x : Text) :
    spaced? gs (u ++ .char '>' :: x) = spaced? gs (u ++ [.char '>']) := by
  induction gs generalizing u with
  | nil => simp only [spaced?]
  | cons g gs ih =>
    cases gs with
    | nil => cases u <;> rfl
    | cons g' gs =>
      simp only [List.dropLast_cons_cons, List.mem_cons, not_or] at hgs
      obtain ⟨hg, hrest⟩ := hgs
      cases u with
      | nil => simp [spaced?, Ne.symm hg]
      | cons a u =>
        have hnil := Text.skipBlanks_append_of_stop u []
        simp only [List.cons_append, spaced?, Text.skipBlanks_append_of_stop, hnil,
          length_sub_skipBlanks, ih hrest]

theorem lower_take_ne {name v : Text} (hname : Glyph.char '>' ∉ name)
    (hlong : v.length < name.length) (x : Text) :
    Text.lower ((v ++ .char '>' :: x).take name.length) ≠ name := by
  intro h
  apply hname
  rw [← h]
  apply Text.mem_lowerFrom (by decide) (by decide)
  rw [List.take_append, List.mem_append]
  obtain ⟨k, hk⟩ := Nat.exists_eq_add_of_lt hlong
  have hroom : name.length - v.length = k + 1 := by omega
  rw [hroom, List.take_succ_cons]
  exact .inr List.mem_cons_self

theorem startsEndOf_local {name : Text} (hname : Glyph.char '>' ∉ name) (u x : Text) :
    startsEndOf name (u ++ .char '>' :: x) = startsEndOf name (u ++ [.char '>']) := by
  match u with
  | [] => rfl
  | [a] => simp [startsEndOf]
  | a :: b :: u =>
    by_cases hend : a = .char '<' ∧ b = .char '/'
    · obtain ⟨rfl, rfl⟩ := hend
      have hnil := Text.skipBlanks_append_of_stop u []
      simp only [List.cons_append, startsEndOf, Text.skipBlanks_append_of_stop, hnil]
      rcases Nat.lt_or_ge (Text.skipBlanks u).length name.length with hlong | hshort
      · have hne (z : Text) := beq_false_of_ne (lower_take_ne hname hlong z)
        simp only [hne, Bool.false_and]
      · rw [List.take_append_of_le_length hshort, List.take_append_of_le_length hshort,
          List.drop_append_of_le_length hshort, List.drop_append_of_le_length hshort]
        rw [Text.skipBlanks_append_of_stop, Text.skipBlanks_append_of_stop, head?_append_stop]
    · have hfalse (r : Text) : startsEndOf name (a :: b :: r) = false := by
        unfold startsEndOf
        split
        · rename_i heq
          obtain ⟨rfl, hrest⟩ := List.cons.inj heq
          obtain ⟨rfl, -⟩ := List.cons.inj hrest
          exact absurd ⟨rfl, rfl⟩ hend
        · rfl
      rw [List.cons_append, List.cons_append, List.cons_append, List.cons_append, hfalse, hfalse]

theorem endOfFirst?_local {size? : Text → Option Nat}
    (hlocal : ∀ u x, size? (u ++ .char '>' :: x) = size? (u ++ [.char '>']))
    (h : endOfFirst? size? (u ++ .char '>' :: x) = some n) (hn : n ≤ u.length) (z : Text) :
    endOfFirst? size? (u ++ .char '>' :: z) = some n := by
  induction u generalizing n with
  | nil =>
    obtain rfl := Nat.le_zero.1 hn
    have hz := (hlocal [] z).trans (hlocal [] x).symm
    simp only [List.nil_append] at hz h ⊢
    simp only [endOfFirst?, hz] at h ⊢
    split at h
    · exact h
    · simp at h
  | cons g u ih =>
    have hz := (hlocal (g :: u) z).trans (hlocal (g :: u) x).symm
    simp only [List.cons_append] at hz h ⊢
    simp only [endOfFirst?, hz] at h ⊢
    split at h
    · exact h
    · obtain ⟨m, hm, rfl⟩ := Option.map_eq_some_iff.1 h
      rw [ih hm (Nat.le_of_succ_le_succ hn)]
      rfl

theorem startOfFirst?_local {matches? : Text → Bool}
    (hlocal : ∀ u x, matches? (u ++ .char '>' :: x) = matches? (u ++ [.char '>']))
    (h : startOfFirst? matches? (u ++ .char '>' :: x) = some n) (hn : n ≤ u.length) (z : Text) :
    startOfFirst? matches? (u ++ .char '>' :: z) = some n := by
  induction u generalizing n with
  | nil =>
    obtain rfl := Nat.le_zero.1 hn
    have hz := (hlocal [] z).trans (hlocal [] x).symm
    simp only [List.nil_append] at hz h ⊢
    simp only [startOfFirst?, hz] at h ⊢
    split at h
    · rename_i hmatch
      rw [if_pos hmatch, h]
    · simp at h
  | cons g u ih =>
    have hz := (hlocal (g :: u) z).trans (hlocal (g :: u) x).symm
    simp only [List.cons_append] at hz h ⊢
    simp only [startOfFirst?, hz] at h ⊢
    split at h
    · rename_i hmatch
      rw [if_pos hmatch, h]
    · rename_i hmatch
      obtain ⟨m, hm, rfl⟩ := Option.map_eq_some_iff.1 h
      rw [if_neg hmatch, ih hm (Nat.le_of_succ_le_succ hn)]
      rfl

/-! ### Tokens -/

theorem through?_stop (hn : n ≤ u.length) (x : Text) :
    through? (.char '>') n (u ++ .char '>' :: x) =
      some (u.length - ((u.drop n).dropWhile (· != .char '>')).length + 1) := by
  have hdrop : ((u ++ .char '>' :: x).drop n).dropWhile (· != .char '>') =
      (u.drop n).dropWhile (· != .char '>') ++ .char '>' :: x := by
    rw [List.drop_append_of_le_length hn, dropWhile_append_of_stop (by decide)]
  have hlen : (u ++ .char '>' :: x).length -
      ((u.drop n).dropWhile (· != .char '>') ++ .char '>' :: x).length =
      u.length - ((u.drop n).dropWhile (· != .char '>')).length := by
    simp only [List.length_append, List.length_cons]
    omega
  rw [through?, hdrop]
  split
  · simp at *
  · rw [hlen]

theorem endName?_local (a b : Glyph) (u x : Text) :
    endName? (a :: b :: (u ++ .char '>' :: x)) = endName? (a :: b :: (u ++ [.char '>'])) := by
  have hnil := Text.skipBlanks_append_of_stop u []
  simp only [endName?, List.drop_succ_cons, List.drop_zero, Text.skipBlanks_append_of_stop, hnil]
  cases Text.skipBlanks u with
  | nil => rfl
  | cons g r =>
    have hcut (z : Text) : Text.cutAt (fun g => !isEndName g) (r ++ .char '>' :: z) =
        ((Text.cutAt (fun g => !isEndName g) r).1,
          (Text.cutAt (fun g => !isEndName g) r).2 ++ .char '>' :: z) :=
      Text.cutAt_append_of_stop (by decide) r z
    simp only [List.cons_append, hcut, Text.skipBlanks_append_of_stop, head?_append_stop _ x]

theorem nextEnd_local (a b : Glyph) (u x : Text) :
    nextEnd raw (a :: b :: (u ++ .char '>' :: x)) = nextEnd raw (a :: b :: (u ++ [.char '>'])) := by
  have hthrough (z : Text) : through? (.char '>') 1 (a :: b :: (u ++ .char '>' :: z)) = _ :=
    through?_stop (u := a :: b :: u) (by simp) z
  simp only [nextEnd, hthrough, endName?_local a b u x]
  cases endName? (a :: b :: (u ++ [.char '>'])) with
  | some name => rfl
  | none =>
    cases u with
    | nil => cases raw <;> rfl
    | cons g r =>
      have hcut (z : Text) : (Text.cutAt Tag.endsName (r ++ .char '>' :: z)).1 =
          (Text.cutAt Tag.endsName r).1 := by
        rw [Text.cutAt_append_of_stop (by decide)]
      cases raw with
      | none => simp only [List.drop_succ_cons, List.drop_zero, List.cons_append, hcut]
      | some name => rfl

theorem contentOrWait_eq {e : Event} {m? : Option Nat} {k : Nat}
    (h : contentOrWait raw (m?.map (k + ·)) = .token e n raw') :
    e = .content ∧ raw' = raw ∧ ∃ m, m? = some m ∧ n = k + m := by
  cases m? with
  | none => cases h
  | some m =>
    simp only [Option.map_some, contentOrWait, Next.token.injEq] at h
    obtain ⟨rfl, rfl, rfl⟩ := h
    exact ⟨rfl, rfl, m, rfl, rfl⟩

theorem nextSection_local {a b c : Glyph} {e : Event}
    (h : nextSection (a :: b :: c :: (u ++ .char '>' :: x)) = .token e n raw')
    (hn : n ≤ u.length + 3) (z : Text) :
    nextSection (a :: b :: c :: (u ++ .char '>' :: z)) = .token e n raw' := by
  cases u with
  | nil => simp [nextSection, Glyph.isLetter, Glyph.holds] at h
  | cons g r =>
    by_cases hg : g.isLetter = true
    · have hname (z : Text) : Text.cutAt (fun g => !isSectionName g) (r ++ .char '>' :: z) =
          ((Text.cutAt (fun g => !isSectionName g) r).1,
            (Text.cutAt (fun g => !isSectionName g) r).2 ++ .char '>' :: z) :=
        Text.cutAt_append_of_stop (by decide) r z
      have hgap (u z : Text) : Text.cutAt (fun g => !g.isBlank) (u ++ .char '>' :: z) =
          ((Text.cutAt (fun g => !g.isBlank) u).1,
            (Text.cutAt (fun g => !g.isBlank) u).2 ++ .char '>' :: z) :=
        Text.cutAt_append_of_stop (by decide) u z
      have hfull (u z : Text) : (u ++ .char '>' :: z).isEmpty = false := by cases u <;> rfl
      simp only [nextSection, List.drop_succ_cons, List.drop_zero, List.cons_append, if_pos hg,
        hname, hgap, hfull] at h ⊢
      split at h
      · cases h
      · split at h
        · rename_i ending hending
          obtain ⟨rfl, rfl, m, hm, rfl⟩ := contentOrWait_eq h
          -- Either ending has its `>` last, so finding it does not depend on what comes behind.
          have hstop : Glyph.char '>' ∉ ending.dropLast := by
            split at hending
            · obtain rfl := Option.some.inj hending
              decide
            · split at hending
              · obtain rfl := Option.some.inj hending
                decide
              · cases hending
          have hm' : m ≤ (g :: r).length := by omega
          have hz := endOfFirst?_local (u := g :: r) (spaced?_local hstop) hm hm' z
          rw [List.cons_append] at hz
          rw [hz]
          rfl
        · cases h
    · simp [nextSection, hg] at h

theorem drop_takeWhile_stop (p : Glyph → Bool) (v x : Text) :
    (v ++ .char '>' :: x).drop (v.takeWhile p).length = v.dropWhile p ++ .char '>' :: x := by
  have hv : v ++ .char '>' :: x = v.takeWhile p ++ (v.dropWhile p ++ .char '>' :: x) := by
    rw [← List.append_assoc, List.takeWhile_append_dropWhile]
  rw [hv, List.drop_left]

theorem numericSize?_local (a b : Glyph) (u x : Text) :
    numericSize? (a :: b :: (u ++ .char '>' :: x)) =
      numericSize? (a :: b :: (u ++ [.char '>'])) := by
  match u with
  | [] => rfl
  | .stray _ :: _ => rfl
  | .char c :: r =>
    have hhex (z : Text) : (r ++ .char '>' :: z).takeWhile Glyph.isHexDigit =
        r.takeWhile Glyph.isHexDigit :=
      takeWhile_append_of_stop (by decide) r z
    have hdigit (z : Text) : (.char c :: (r ++ .char '>' :: z)).takeWhile Glyph.isDigit =
        (.char c :: r).takeWhile Glyph.isDigit :=
      takeWhile_append_of_stop (by decide) (.char c :: r) z
    have hdrop (m : Nat) (z : Text) : (a :: b :: .char c :: z).drop (3 + m) = z.drop m := by
      rw [Nat.add_comm]
      rfl
    have hdrop' (m : Nat) (z : Text) :
        (a :: b :: .char c :: z).drop (2 + m) = (.char c :: z).drop m := by
      rw [Nat.add_comm]
      rfl
    -- the glyph behind the digits is one of `u` or the `>`
    have hhexBehind (z : Text) := drop_takeWhile_stop Glyph.isHexDigit r z
    have hdigitBehind (z : Text) : (.char c :: (r ++ .char '>' :: z)).drop
        ((.char c :: r).takeWhile Glyph.isDigit).length =
          (.char c :: r).dropWhile Glyph.isDigit ++ .char '>' :: z :=
      drop_takeWhile_stop Glyph.isDigit (.char c :: r) z
    simp only [numericSize?, List.drop_succ_cons, List.drop_zero, List.cons_append]
    by_cases hc : (decide (c = 'x') || decide (c = 'X')) = true
    · simp only [if_pos hc, hhex, hdrop, hhexBehind]
      cases r.dropWhile Glyph.isHexDigit <;> rfl
    · simp only [if_neg hc, hdigit, hdrop', hdigitBehind]
      cases (Glyph.char c :: r).dropWhile Glyph.isDigit <;> rfl

theorem namedSize?_local (a : Glyph) (u x : Text) :
    namedSize? (a :: (u ++ .char '>' :: x)) = namedSize? (a :: (u ++ [.char '>'])) := by
  cases u with
  | nil => rfl
  | cons g r =>
    have hname (z : Text) : Text.cutAt (fun g => !isReferenceName g) (r ++ .char '>' :: z) =
        ((Text.cutAt (fun g => !isReferenceName g) r).1,
          (Text.cutAt (fun g => !isReferenceName g) r).2 ++ .char '>' :: z) :=
      Text.cutAt_append_of_stop (by decide) r z
    simp only [namedSize?, List.drop_succ_cons, List.drop_zero, List.cons_append, hname]
    cases (Text.cutAt (fun g => !isReferenceName g) r).2 with
    | nil => rfl
    | cons g' r' => rfl

theorem nextReference_local {a : Glyph} {e : Event}
    (h : nextReference (a :: (u ++ .char '>' :: x)) = .token e n raw') (z : Text) :
    nextReference (a :: (u ++ .char '>' :: z)) = .token e n raw' := by
  have hnamed := (namedSize?_local a u z).trans (namedSize?_local a u x).symm
  cases u with
  | nil => exact h
  | cons g r =>
    simp only [List.cons_append] at h hnamed ⊢
    by_cases hg : g = .char '#'
    · subst hg
      have hnumeric :=
        (numericSize?_local a (.char '#') r z).trans (numericSize?_local a _ r x).symm
      simp only [nextReference, hnumeric] at h ⊢
      cases hsize : numericSize? (a :: .char '#' :: (r ++ .char '>' :: x)) with
      | some m => simpa only [hsize] using h
      | none =>
        simp only [hsize] at h
        split at h <;> cases h
    · simpa [nextReference, hg, hnamed] using h

/-- The token takes `n` glyphs in front of the `>`, or with it if it is a start tag. -/
def Within (u : Text) (e : Event) (n : Nat) : Prop :=
  n ≤ u.length ∨ n = u.length + 1 ∧ ∃ tag, e = .opened tag

theorem Within.le_succ {e : Event} (hn : Within u e n) : n ≤ u.length + 1 := by
  rcases hn with hn | ⟨rfl, -⟩
  · exact Nat.le_succ_of_le hn
  · exact Nat.le_refl _

theorem nextStart_local {a : Glyph} {e : Event}
    (h : nextStart (a :: (u ++ .char '>' :: x)) = .token e n raw') (hn : Within (a :: u) e n)
    {z : Text} (hz : z ⊆ x) : nextStart (a :: (u ++ .char '>' :: z)) = .token e n raw' := by
  simp only [nextStart, List.drop_succ_cons, List.drop_zero] at h ⊢
  cases hread : Tag.read (u ++ .char '>' :: x) with
  | error f =>
    rw [hread] at h
    cases h
  | ok reading =>
    have hwithin : reading.Within u := by
      rw [hread] at h
      cases reading with
      | incomplete => cases h
      | broken m =>
        obtain ⟨rfl, rfl, -⟩ := Next.token.inj h
        rcases hn with hn | ⟨-, tag, htag⟩
        · exact hn
        · cases htag
      | whole tag m =>
        obtain ⟨-, rfl, -⟩ := Next.token.inj h
        exact hn.le_succ
    rw [Tag.read_local hread hwithin z hz, ← hread]
    exact h

/-- What is no start tag ends in front of the `>`. -/
theorem Within.le {e : Event} (hn : Within u e n) (he : ∀ tag, e ≠ .opened tag) : n ≤ u.length := by
  rcases hn with hn | ⟨-, tag, htag⟩
  · exact hn
  · exact absurd htag (he tag)

/-- A declaration: what begins with `<!`, given what follows these two glyphs. -/
def nextDeclaration (t : Text) : Next :=
  if t.take 2 = [.char '-', .char '-'] then
    contentOrWait none ((endOfFirst? commentEnd? (t.drop 2)).map (4 + ·))
  else if t.head? = some (.char '[') then nextSection (.char '<' :: .char '!' :: t)
  else contentOrWait none (through? (.char '>') 2 (.char '<' :: .char '!' :: t))

theorem nextConstruct_cons (g : Glyph) (t : Text) :
    nextConstruct (.char '<' :: g :: t) =
      if g = .char '/' then nextEnd none (.char '<' :: g :: t)
      else if g = .char '!' then nextDeclaration t
      else if g = .char '?' then contentOrWait none (through? (.char '>') 2 (.char '<' :: g :: t))
      else if g.isLetter then nextStart (.char '<' :: g :: t)
      else .token .content 1 none := by
  unfold nextConstruct
  split <;> simp_all [nextDeclaration]
  rename_i tail hdash hbracket _  -- a declaration that is neither a comment nor a section
  have hcomment : tail.take 2 ≠ [.char '-', .char '-'] := by
    intro h
    apply hdash (tail.drop 2)
    rw [← List.take_append_drop 2 tail, h]
    rfl
  have hsection : tail.head? ≠ some (.char '[') := by
    intro h
    obtain ⟨r, rfl⟩ := List.head?_eq_some_iff.1 h
    exact hbracket r rfl
  rw [if_neg hcomment, if_neg hsection]

theorem take_two_stop {a b : Glyph} (ha : a ≠ .char '>') (hb : b ≠ .char '>') :
    (u ++ .char '>' :: x).take 2 = [a, b] ↔ ∃ v, u = a :: b :: v := by
  match u with
  | [] => simp [Ne.symm ha]
  | [c] => simp [Ne.symm hb]
  | c :: d :: v => simp

theorem through?_behind_two (a b : Glyph) (u x z : Text) :
    through? (.char '>') 2 (a :: b :: (u ++ .char '>' :: z)) =
      through? (.char '>') 2 (a :: b :: (u ++ .char '>' :: x)) := by
  have hsize (z : Text) := through?_stop (u := a :: b :: u) (n := 2) (by simp) z
  simp only [List.cons_append] at hsize
  rw [hsize, hsize]

theorem nextDeclaration_local {e : Event}
    (h : nextDeclaration (u ++ .char '>' :: x) = .token e n raw')
    (hn : Within (.char '<' :: .char '!' :: u) e n) (z : Text) :
    nextDeclaration (u ++ .char '>' :: z) = .token e n raw' := by
  have hdash : Glyph.char '-' ≠ .char '>' := by decide
  unfold nextDeclaration at h ⊢
  -- The first characters tell a comment, a section and a declaration apart; a `>` is none of them.
  by_cases hcomment : ∃ v, u = .char '-' :: .char '-' :: v
  · rw [if_pos ((take_two_stop hdash hdash).2 hcomment)] at h ⊢
    obtain ⟨v, rfl⟩ := hcomment
    obtain ⟨rfl, rfl, m, hm, rfl⟩ := contentOrWait_eq h
    have hlen := hn.le (by simp)
    simp only [List.length_cons] at hlen
    have hend := endOfFirst?_local commentEnd?_local hm (by omega) z
    simp only [List.cons_append, List.drop_succ_cons, List.drop_zero]
    rw [hend]
    rfl
  rw [if_neg (mt (take_two_stop hdash hdash).1 hcomment)] at h ⊢
  rw [head?_append_stop u z, ← head?_append_stop u x]
  by_cases hsection : (u ++ .char '>' :: x).head? = some (.char '[')
  · rw [if_pos hsection] at h ⊢
    have he : ∀ tag, e ≠ .opened tag := by
      rintro tag rfl
      exact plain_nextSection _ _ _ _ h
    cases u with
    | nil => simp at hsection
    | cons c u => exact nextSection_local h (hn.le he) z
  · rw [if_neg hsection] at h ⊢
    rw [through?_behind_two _ _ u x z]
    exact h

theorem nextConstruct_local {e : Event} (h : nextConstruct (u ++ .char '>' :: x) = .token e n raw')
    (hn : Within u e n) {z : Text} (hz : z ⊆ x) :
    nextConstruct (u ++ .char '>' :: z) = .token e n raw' := by
  cases u with
  | nil => simp [nextConstruct] at h
  | cons a u =>
    by_cases ha : a = .char '<'
    · subst ha
      cases u with
      | nil => exact h
      | cons g u =>
        -- The first two characters decide what is read, and they stand in front of the `>`.
        simp only [List.cons_append, nextConstruct_cons] at h ⊢
        by_cases hend : g = .char '/'
        · rw [if_pos hend] at h ⊢
          rw [nextEnd_local _ _ u z, ← nextEnd_local _ _ u x]
          exact h
        rw [if_neg hend] at h ⊢
        by_cases hbang : g = .char '!'
        · subst hbang
          rw [if_pos rfl] at h ⊢
          exact nextDeclaration_local h hn z
        rw [if_neg hbang] at h ⊢
        by_cases hquery : g = .char '?'
        · rw [if_pos hquery] at h ⊢
          rw [through?_behind_two _ _ u x z]
          exact h
        rw [if_neg hquery] at h ⊢
        by_cases hletter : g.isLetter = true
        · rw [if_pos hletter] at h ⊢
          exact nextStart_local (u := g :: u) h hn hz
        · rw [if_neg hletter] at h ⊢
          exact h
    · simp [nextConstruct, ha] at h

theorem settle_of_open (refs : References) (t : Text) (x : Next) : settle refs false t x = x := by
  cases x <;> rfl

theorem next_angle (t : Text) :
    next .kept none false (.char '<' :: t) = nextConstruct (.char '<' :: t) := by
  cases t with
  | nil => rfl
  | cons g t => simp [next, settle_of_open]

theorem next_ampersand (t : Text) :
    next .kept none false (.char '&' :: t) = nextReference (.char '&' :: t) := by
  simp [next]

/-- A glyph of running text. -/
def isRun (g : Glyph) : Bool := g != .char '<' && g != .char '&'

theorem next_run {g : Glyph} (hg : isRun g = true) (t : Text) :
    next .kept none false (g :: t) = .token .content ((g :: t).takeWhile isRun).length none := by
  have hstops : (fun g : Glyph => !(g == .char '<' || g == .char '&')) = isRun := by
    funext g
    simp only [isRun, bne, Bool.not_or]
  simp only [next, decide_true, Bool.true_and, hstops, List.takeWhile_cons_of_pos hg]
  rfl

theorem startOfFirst?_eq_zero {matches? : Text → Bool} {t : Text}
    (h : startOfFirst? matches? t = some 0) : matches? t = true := by
  cases t with
  | nil => cases h
  | cons g r =>
    simp only [startOfFirst?] at h
    split at h
    · assumption
    · simp at h

theorem exists_of_startsEndOf {name t : Text} (h : startsEndOf name t = true) :
    ∃ r, t = .char '<' :: .char '/' :: r := by
  unfold startsEndOf at h
  split at h
  · exact ⟨_, rfl⟩
  · cases h

theorem next_raw_local {name : Text} {e : Event} (hname : Glyph.char '>' ∉ name)
    (h : next .kept (some name) false (u ++ .char '>' :: x) = .token e n raw') (hn : Within u e n)
    (z : Text) : next .kept (some name) false (u ++ .char '>' :: z) = .token e n raw' := by
  simp only [next] at h ⊢
  cases hfirst : startOfFirst? (startsEndOf name) (u ++ .char '>' :: x) with
  | none =>
    rw [hfirst] at h
    cases h
  | some k =>
    rw [hfirst] at h
    cases k with
    | zero =>
      obtain ⟨r, hr⟩ := exists_of_startsEndOf (startOfFirst?_eq_zero hfirst)
      obtain ⟨v, rfl, -⟩ := exists_of_append_eq (p := [.char '<', .char '/']) (by decide) hr
      rw [startOfFirst?_local (startsEndOf_local hname) hfirst (Nat.zero_le _) z]
      simp only [List.cons_append, List.nil_append] at h ⊢
      rw [nextEnd_local _ _ v z, ← nextEnd_local _ _ v x]
      exact h
    | succ k =>
      obtain ⟨rfl, rfl, rfl⟩ := Next.token.inj h
      have hk := hn.le (by simp)
      simp only [startOfFirst?_local (startsEndOf_local hname) hfirst hk z]

/-- A run of text that ends in front of the `>`, which does not end it, ends there. -/
theorem takeWhile_isRun_local (h : ((u ++ .char '>' :: x).takeWhile isRun).length ≤ u.length)
    (z : Text) : (u ++ .char '>' :: z).takeWhile isRun = (u ++ .char '>' :: x).takeWhile isRun := by
  have hrun : isRun (.char '>') = true := by decide
  rw [List.takeWhile_append] at h ⊢
  rw [List.takeWhile_append]
  by_cases hall : (u.takeWhile isRun).length = u.length
  · rw [if_pos hall, List.takeWhile_cons_of_pos hrun, List.length_append, List.length_cons] at h
    omega
  · rw [if_neg hall, if_neg hall]

/-- **A token depends on its own text.**  A token that ends in front of a `>`, or with it in the case
of a start tag, is a token of every text that has something else behind the `>`, as long as this has
no new glyphs. -/
theorem next_local {e : Event} (hraw : ∀ name ∈ raw, Glyph.char '>' ∉ name)
    (h : next .kept raw false (u ++ .char '>' :: x) = .token e n raw') (hn : Within u e n)
    {z : Text} (hz : z ⊆ x) : next .kept raw false (u ++ .char '>' :: z) = .token e n raw' := by
  cases raw with
  | some name => exact next_raw_local (hraw name rfl) h hn z
  | none =>
    cases u with
    | nil =>
      have hrun : isRun (.char '>') = true := by decide
      rw [List.nil_append, next_run hrun] at h
      obtain ⟨rfl, rfl, -⟩ := Next.token.inj h
      have hle := hn.le (by simp)
      simp [List.takeWhile_cons_of_pos hrun] at hle
    | cons a u =>
      by_cases hangle : a = .char '<'
      · subst hangle
        rw [List.cons_append, next_angle] at h ⊢
        exact nextConstruct_local h hn hz
      by_cases hampersand : a = .char '&'
      · subst hampersand
        rw [List.cons_append, next_ampersand] at h ⊢
        exact nextReference_local h z
      have hrun : isRun a = true := by simp [isRun, hangle, hampersand]
      rw [List.cons_append, next_run hrun, ← List.cons_append] at h ⊢
      obtain ⟨rfl, rfl, rfl⟩ := Next.token.inj h
      rw [takeWhile_isRun_local (hn.le (by simp)) z]

end Token

end HtmlDeps
