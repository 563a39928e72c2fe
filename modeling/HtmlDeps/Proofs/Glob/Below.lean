import HtmlDeps.Proofs.Glob.Spelling
import HtmlDeps.Proofs.Url.Relative

/-!
# Everything below a directory

The pattern of a directory and `/**` selects what lies below the directory, as far as no part of the path
below it starts with a dot (`accepts_below_iff`); this needs a directory whose name is ordinary.  The pattern
`**/*` selects the paths without such parts (`accepts_everything_iff`).
-/

namespace HtmlDeps.Glob

variable {path rest t r u v : Text} {es : List Element} {first : Bool} {k j : Nat}

/-! ### Dots at the start of a part -/

/-- A text with a part behind a slash that starts with a dot. -/
def Dotted (t : Text) : Prop := [slash, .char '.'] <:+: t

theorem dotted_cons_iff {g : Glyph} :
    Dotted (g :: t) ↔ g = slash ∧ t.head? = some (.char '.') ∨ Dotted t := by
  rw [Dotted, List.infix_cons_iff]
  apply or_congr_left
  cases t with
  | nil => simp
  | cons h t => simp [eq_comm]

theorem dotted_slashes_iff (hu : ∀ g ∈ u, g = slash) (h : Dotted (u ++ v)) :
    Dotted v ∨ v.head? = some (.char '.') := by
  induction u with
  | nil => exact .inl h
  | cons g u ih =>
    rw [List.forall_mem_cons] at hu
    rcases dotted_cons_iff.1 h with ⟨-, hhead⟩ | h
    · cases u with
      | nil => exact .inr hhead
      | cons x u =>
        rw [hu.2 x List.mem_cons_self] at hhead
        exact absurd (Option.some.inj hhead) (by decide)
    · exact ih hu.2 h

theorem dotted_append_iff (hu : slash ∉ u) : Dotted (u ++ v) ↔ Dotted v := by
  induction u with
  | nil => rfl
  | cons g u ih =>
    rw [List.mem_cons, not_or] at hu
    rw [List.cons_append, dotted_cons_iff, ih hu.2]
    simp [Ne.symm hu.1]

theorem Dotted.not_all (h : Dotted t) : ¬ ∀ g ∈ t, g = slash := by
  intro hall
  have hdot := hall (.char '.') (h.subset (by simp))
  exact absurd hdot (by decide)

theorem deepSpan_cons {g : Glyph} : deepSpan first (g :: t) =
    if g = slash ∧ t.head? = some (.char '.') ∨ first ∧ g = .char '.' then 0 else 1 + deepSpan false t := by
  conv_lhs => rw [deepSpan.eq_def]
  split
  · rename_i heq
    cases heq
  · rename_i heq
    cases heq
    rw [if_pos (.inl ⟨rfl, rfl⟩)]
  · rename_i g' t' hnot heq
    cases heq
    have hnot : ¬ (g = slash ∧ t.head? = some (.char '.')) := by
      rintro ⟨rfl, hhead⟩
      obtain ⟨r, rfl⟩ := List.head?_eq_some_iff.1 hhead
      exact hnot r rfl rfl
    simp [hnot]

/-- Where `**` may go, it leaves every such part. -/
theorem Dotted.drop (first : Bool) (h : Dotted t) (hk : k ≤ deepSpan first t) : Dotted (t.drop k) := by
  induction t generalizing first k with
  | nil => simpa using h
  | cons g t ih =>
    cases k with
    | zero => exact h
    | succ k =>
      rw [deepSpan_cons] at hk
      split at hk
      · cases hk
      · rename_i hfree
        exact ih false ((dotted_cons_iff.1 h).resolve_left fun hdot => hfree (.inl hdot)) (by omega)

theorem deepSpan_eq_length (first : Bool) (h : ¬ Dotted t) (hfirst : first → t.head? ≠ some (.char '.')) :
    deepSpan first t = t.length := by
  induction t generalizing first with
  | nil => rfl
  | cons g t ih =>
    rw [dotted_cons_iff, not_or] at h
    have hfree : ¬ (g = slash ∧ t.head? = some (.char '.') ∨ first ∧ g = .char '.') := by
      rintro (hdot | ⟨hstart, rfl⟩)
      · exact h.1 hdot
      · exact hfirst hstart rfl
    rw [deepSpan_cons, if_neg hfree, ih false h.2 (by simp), List.length_cons, Nat.add_comm]

/-! ### Everything below a directory -/

theorem mem_upTo {n : Nat} : k ∈ upTo n ↔ k ≤ n := by
  rw [upTo, List.mem_range, Nat.lt_succ_iff]

theorem takeWhile_of_le {p : Glyph → Bool} (hj : j ≤ (t.takeWhile p).length) : ∀ g ∈ t.take j, p g := by
  have htake : t.take j <+: t.takeWhile p :=
    List.prefix_of_prefix_length_le (List.take_prefix j t) (List.takeWhile_prefix p)
      (by rw [List.length_take]; omega)
  exact fun g hg => List.mem_takeWhile_imp (htake.subset hg)

theorem boundary_le (h : j ∈ Element.sizes first t .boundary) : j ≤ (t.takeWhile (· == slash)).length := by
  have hslashes : ∀ j ∈ (upTo (t.takeWhile (· == slash)).length).drop 1, j ≤ (t.takeWhile (· == slash)).length :=
    fun j hj => mem_upTo.1 (List.mem_of_mem_drop hj)
  simp only [Element.sizes] at h
  split at h
  · rcases List.mem_cons.1 h with rfl | h
    · exact Nat.zero_le _
    · exact hslashes j h
  · exact hslashes j h

theorem slash_of_mem_take {g : Glyph} (h : j ∈ Element.sizes first t .boundary) (hg : g ∈ t.take j) :
    g = slash := by
  simpa using takeWhile_of_le (boundary_le h) g hg

/-- A directory and `/**` spell what lies below, as far as no part starts with a dot. -/
theorem spells_below_iff :
    Spells [.beforeSlash, .deep, .boundary] false t ↔ t.head? = some slash ∧ ¬ Dotted t := by
  constructor
  · rintro ⟨i, hi, k, hk, j, hj, hrest⟩
    have hhead : t.head? = some slash ∧ i = 0 := by
      simp only [Element.sizes] at hi
      split at hi
      · rename_i hhead
        exact ⟨hhead, List.mem_singleton.1 hi⟩
      · cases hi
    obtain ⟨hhead, rfl⟩ := hhead
    refine ⟨hhead, fun hdotted => ?_⟩
    have hleft := hdotted.drop _ (mem_upTo.1 hk)
    refine hleft.not_all fun g hg => ?_
    rw [← List.take_append_drop j (List.drop _ _)] at hg
    rcases List.mem_append.1 hg with hg | hg
    · exact slash_of_mem_take hj hg
    · exact hrest g hg
  · rintro ⟨hhead, hdotted⟩
    refine ⟨0, by simp [Element.sizes, hhead], t.length, ?_, 0, ?_, ?_⟩
    · rw [List.drop_zero]
      exact mem_upTo.2 (deepSpan_eq_length false hdotted (by simp)).ge
    · simp [Element.sizes, atEnd]
    · simp [Spells]

/-! ### Everything -/

theorem many_le {m : Nat} (h : m ∈ Element.sizes first t (.many true)) :
    m ≤ (t.takeWhile (· != slash)).length ∧ (t.head? = some (.char '.') → m = 0) := by
  simp only [Element.sizes, ↓reduceIte] at h
  split at h
  · cases h
  · split at h
    · rw [List.mem_singleton] at h
      rw [h]
      exact ⟨Nat.zero_le _, fun _ => rfl⟩
    · rename_i hhead
      exact ⟨mem_upTo.1 h, fun hdot => absurd hdot hhead⟩

/-- The pattern of all files spells no part that starts with a dot. -/
theorem not_dotted_of_spells (h : Spells [.deep, .boundary, .many true] true t) :
    t.head? ≠ some (.char '.') ∧ ¬ Dotted t := by
  obtain ⟨k, hk, j, hj, m, hm, hrest⟩ := h
  -- The wildcard takes no dot in front, and so neither of the others may leave it one.
  have hfirst : ((t.drop k).drop j).head? ≠ some (.char '.') := by
    intro hhead
    obtain rfl := (many_le hm).2 hhead
    exact absurd (hrest _ (List.mem_of_mem_head? hhead)) (by decide)
  have hlater : ¬ Dotted ((t.drop k).drop j) := by
    intro hdotted
    have hfree : slash ∉ ((t.drop k).drop j).take m := fun hmem => by
      simpa using takeWhile_of_le (many_le hm).1 slash hmem
    rw [← List.take_append_drop m ((t.drop k).drop j), dotted_append_iff hfree] at hdotted
    exact hdotted.not_all hrest
  constructor
  · intro hhead
    obtain ⟨r, rfl⟩ := List.head?_eq_some_iff.1 hhead
    have hk := mem_upTo.1 hk
    rw [deepSpan_cons, if_pos (.inr ⟨rfl, rfl⟩), Nat.le_zero] at hk
    subst hk
    have hj := boundary_le hj
    have hnone : (List.drop 0 (Glyph.char '.' :: r)).takeWhile (· == slash) = [] := rfl
    rw [hnone, List.length_nil, Nat.le_zero] at hj
    subst hj
    exact hfirst rfl
  · intro hdotted
    have hleft := hdotted.drop true (mem_upTo.1 hk)
    rw [← List.take_append_drop j (t.drop k)] at hleft
    rcases dotted_slashes_iff (fun g hg => slash_of_mem_take hj hg) hleft with hdot | hdot
    · exact hlater hdot
    · exact hfirst hdot

theorem mem_sizes_many (hne : t ≠ []) (hslash : slash ∉ t) (hdot : t.head? ≠ some (.char '.')) :
    t.length ∈ Element.sizes first t (.many true) := by
  have hspan : t.takeWhile (· != slash) = t :=
    List.takeWhile_eq_self_iff.2 fun g hg => by simpa using fun heq : g = slash => hslash (heq ▸ hg)
  have hdots : atDots t = false := by
    unfold atDots
    split
    · exact absurd rfl hdot
    · exact absurd rfl hdot
    · rfl
  simp only [Element.sizes, hspan, hdots, if_neg hdot]
  simp [hne, mem_upTo]

theorem mem_sizes_boundary (hslash : slash ∉ t) : 1 ∈ Element.sizes first (slash :: t) .boundary := by
  have hone : 1 ∈ (upTo ((slash :: t).takeWhile (· == slash)).length).drop 1 := by
    rw [List.takeWhile_cons_of_pos (by rfl), takeWhile_slash fun hhead => hslash (List.mem_of_mem_head? hhead)]
    decide
  simp only [Element.sizes]
  split
  · exact List.mem_cons_of_mem 0 hone
  · exact hone

/-! ### Parts of a path -/

variable {ps qs ns : List Text}

theorem tight_join (h : ∀ n ∈ ns, n ≠ [] ∧ slash ∉ n) : Tight (Text.join "/" ns) := Text.not_infix_join h

theorem not_dotted_of_not_mem (h : slash ∉ t) : ¬ Dotted t := fun hdotted =>
  h (hdotted.subset List.mem_cons_self)

theorem dotted_join_iff (h : ∀ n ∈ ns, n ≠ [] ∧ slash ∉ n) :
    Dotted (slash :: Text.join "/" ns) ↔ ∃ n ∈ ns, n.head? = some (.char '.') := by
  induction ns with
  | nil =>
    have hnone : Text.join "/" [] = [] := rfl
    rw [hnone, dotted_cons_iff]
    simp [Dotted]
  | cons n ns ih =>
    rw [List.forall_mem_cons] at h
    have hhead : ∀ r : Text, (n ++ r).head? = n.head? := fun r =>
      List.head?_append_of_ne_nil n h.1.1
    cases ns with
    | nil =>
      have hsingle : Text.join "/" [n] = n ++ [] := by simp [Text.join, List.intercalate]
      rw [hsingle, dotted_cons_iff, hhead, List.append_nil]
      simp [not_dotted_of_not_mem h.1.2]
    | cons m ns =>
      have hjoin : Text.join "/" (n :: m :: ns) = n ++ slash :: Text.join "/" (m :: ns) := by
        rw [Text.join_cons_cons, List.append_assoc]
        rfl
      rw [hjoin, dotted_cons_iff, hhead, dotted_append_iff h.1.2, ih h.2, List.exists_mem_cons_iff]
      simp

/-- What stands behind a directory and a slash leads on from it. -/
theorem join_eq_append_slash_iff (hps : ∀ n ∈ ps, slash ∉ n) (hqs : ∀ n ∈ qs, slash ∉ n) (hne : ps ≠ []) :
    Text.join "/" qs = Text.join "/" ps ++ slash :: t ↔
      ∃ more, more ≠ [] ∧ qs = ps ++ more ∧ t = Text.join "/" more := by
  constructor
  · intro heq
    have hmore : Text.split slash t ≠ [] := Text.split_ne_nil slash t
    have hall : ∀ n ∈ ps ++ Text.split slash t, slash ∉ n := by
      intro n hn
      rcases List.mem_append.1 hn with hn | hn
      · exact hps n hn
      · exact Text.not_mem_of_mem_split hn
    have hjoin : Text.join [slash] qs = Text.join [slash] (ps ++ Text.split slash t) := by
      rw [Text.join_append hne hmore, Text.join_split, List.append_assoc]
      exact heq
    have hqs' : qs ≠ [] := by
      rintro rfl
      simp [Text.join] at heq
    refine ⟨Text.split slash t, hmore, ?_, (Text.join_split slash t).symm⟩
    rw [← Text.split_join hqs' hqs, hjoin, Text.split_join (List.append_ne_nil_of_left_ne_nil hne _) hall]
  · rintro ⟨more, hmore, rfl, rfl⟩
    rw [Text.join_append hne hmore, List.append_assoc]
    rfl

/-! ### The two patterns -/

/-- The pattern of all that lies below a directory. -/
def below (directory : Text) : Text := directory ++ "/**"

/-- The part of a pattern that spans any number of parts. -/
def span : Text := "**"

theorem readFrom_below (leading : Bool) (acc : List Element) :
    Element.readFrom 4 leading acc "/**" = .boundary :: .deep :: .beforeSlash :: acc := rfl

theorem read_below (ht : Simple t) (htight : Tight (below t)) :
    Element.read (below t) = t.map .plain ++ [.beforeSlash, .deep, .boundary] := by
  have hfuel : (below t).length + 1 = 4 + t.length := by
    rw [below, List.length_append, Nat.add_assoc, Nat.add_comm]
    rfl
  rw [Element.read, hfuel, below, Element.readFrom_append 4 true [] ht htight, readFrom_below, List.append_nil]
  simp

theorem below_join (hne : ps ≠ []) : below (Text.join "/" ps) = Text.join "/" (ps ++ [span]) := by
  rw [Text.join_append hne (List.cons_ne_nil _ []), List.append_assoc]
  rfl

theorem not_dot_of_parts (h : ∀ n ∈ ns, Path.Part n) : Text.after? "./" (Text.join "/" ns) = none := by
  by_contra hsome
  obtain ⟨r, hr⟩ := Option.ne_none_iff_exists'.1 hsome
  have heq : Text.join "/" ns = Text.join "/" [Path.dot] ++ slash :: r := by
    rw [Text.after?_eq_some.1 hr]
    rfl
  obtain ⟨more, -, rfl, -⟩ := (join_eq_append_slash_iff (by decide) (fun n hn => (h n hn).2.2)
    (List.cons_ne_nil _ [])).1 heq
  exact (h Path.dot (by simp)).2.1 rfl

theorem dotless_iff (h : ∀ n ∈ ns, n ≠ [] ∧ slash ∉ n) :
    ¬ Dotted (slash :: Text.join "/" ns) ↔ ∀ n ∈ ns, n.head? ≠ some (.char '.') := by
  rw [dotted_join_iff h]
  simp

theorem spells_everything_iff (h : ∀ n ∈ ns, n ≠ [] ∧ slash ∉ n) (hne : ns ≠ []) :
    Spells [.deep, .boundary, .many true] true (Text.join "/" ns) ↔ ∀ n ∈ ns, n.head? ≠ some (.char '.') := by
  constructor
  · intro hspells
    obtain ⟨hhead, hdotted⟩ := not_dotted_of_spells hspells
    rw [← dotless_iff h, dotted_cons_iff]
    simp [hhead, hdotted]
  · intro hdots
    have hdotted := (dotless_iff h).2 hdots
    rw [dotted_cons_iff, not_or] at hdotted
    have hhead : (Text.join "/" ns).head? ≠ some (.char '.') := fun hhead => hdotted.1 ⟨rfl, hhead⟩
    -- the last part is left to `*`, those in front of it to `**`
    obtain ⟨init, last, rfl⟩ := (List.eq_nil_or_concat ns).resolve_left hne
    rw [List.concat_eq_append] at h hdots hdotted hhead ⊢
    have hlast := h last (by simp)
    have hmany : ∀ first, last.length ∈ Element.sizes first last (.many true) := fun first =>
      mem_sizes_many hlast.1 hlast.2 (hdots last (by simp))
    have hsingle : Text.join "/" [last] = last := by simp [Text.join, List.intercalate]
    cases init with
    | nil =>
      rw [List.nil_append, hsingle]
      exact ⟨0, mem_upTo.2 (Nat.zero_le _), 0, by simp [Element.sizes], last.length, hmany _, by simp [Spells]⟩
    | cons n init =>
      have hjoin : Text.join "/" (n :: init ++ [last]) = Text.join "/" (n :: init) ++ slash :: last := by
        rw [Text.join_append (List.cons_ne_nil n init) (List.cons_ne_nil last []), hsingle, List.append_assoc]
        rfl
      have hdeep := deepSpan_eq_length true hdotted.2 fun _ => hhead
      rw [hjoin] at hdeep ⊢
      refine ⟨(Text.join "/" (n :: init)).length, mem_upTo.2 ?_, 1, ?_, last.length, ?_, ?_⟩
      · rw [hdeep, List.length_append]
        exact Nat.le_add_right _ _
      · rw [List.drop_left]
        exact mem_sizes_boundary hlast.2
      · rw [List.drop_left]
        exact hmany _
      · simp [Spells]

/-- The pattern is read as it stands. -/
theorem accepts_below (hsimple : Simple (Text.join "/" ps)) (path : Text) :
    accepts path (below (Text.join "/" ps)) = .ok (matchesElements path (below (Text.join "/" ps))) := by
  refine accepts_of_not_mem (fun hmem => ?_) path
  rcases List.mem_append.1 hmem with hmem | hmem
  · exact hsimple.brace hmem
  · exact absurd hmem (by decide)

section

variable (hps : ∀ n ∈ ps, Path.Part n) (hne : ps ≠ [])

include hps

theorem part_of_mem_span : ∀ n ∈ ps ++ [span], Path.Part n := by
  intro n hn
  rcases List.mem_append.1 hn with hn | hn
  · exact hps n hn
  · rw [List.mem_singleton.1 hn]
    decide

include hne

theorem tight_below : Tight (below (Text.join "/" ps)) := by
  rw [below_join hne]
  exact tight_join fun n hn => (part_of_mem_span hps n hn).imp_right And.right

theorem join_ne_nil : Text.join "/" ps ≠ [] := by
  obtain ⟨n, ns, rfl⟩ := List.exists_cons_of_ne_nil hne
  exact Text.join_ne_nil (hps n List.mem_cons_self).1 ns

/-- The pattern is not cleaned. -/
theorem cleaned_below (hordinary : Ordinary (Text.join "/" ps)) :
    cleaned (below (Text.join "/" ps)) = below (Text.join "/" ps) := by
  refine cleaned_eq_self (strip_eq_self (fun g hg => ?_) fun g hg => ?_) ?_
  · rw [below, List.head?_append_of_ne_nil _ (join_ne_nil hps hne)] at hg
    exact (hordinary.opening g hg).2
  · rw [below, List.getLast?_append_of_ne_nil _ (by decide)] at hg
    obtain rfl := Option.some.inj hg
    decide
  · rw [below_join hne]
    exact not_dot_of_parts (part_of_mem_span hps)

/-- **What lies below a directory** is selected unless a part of the way there starts with a dot. -/
theorem accepts_below_iff (hsimple : Simple (Text.join "/" ps)) (hqs : ∀ n ∈ qs, n ≠ [] ∧ slash ∉ n) :
    accepts (Text.join "/" qs) (below (Text.join "/" ps)) = .ok true ↔
      ∃ more, more ≠ [] ∧ qs = ps ++ more ∧ ∀ n ∈ more, n.head? ≠ some (.char '.') := by
  have hpath : Tight (Text.join "/" qs) := tight_join hqs
  have hbelow : below (Text.join "/" ps) ≠ [] := List.append_ne_nil_of_left_ne_nil (join_ne_nil hps hne) _
  have hempty : (true && (Text.join "/" ps).isEmpty) = false := by simp [join_ne_nil hps hne]
  have hsplit {t : Text} := join_eq_append_slash_iff (t := t) (fun n hn => (hps n hn).2.2)
    (fun n hn => (hqs n hn).2) hne
  rw [accepts_below hsimple, Except.ok.injEq, matchesElements_iff hbelow,
    read_below hsimple (tight_below hps hne), spells_append_iff hpath, hempty]
  constructor
  · rintro ⟨r, heq, hspells⟩
    obtain ⟨hhead, hdotted⟩ := spells_below_iff.1 hspells
    obtain ⟨r, rfl⟩ := List.head?_eq_some_iff.1 hhead
    obtain ⟨more, hmore, rfl, rfl⟩ := hsplit.1 heq
    have hparts : ∀ n ∈ more, n ≠ [] ∧ slash ∉ n := fun n hn => hqs n (List.mem_append_right ps hn)
    exact ⟨more, hmore, rfl, (dotless_iff hparts).1 hdotted⟩
  · rintro ⟨more, hmore, rfl, hdots⟩
    have hparts : ∀ n ∈ more, n ≠ [] ∧ slash ∉ n := fun n hn => hqs n (List.mem_append_right ps hn)
    exact ⟨slash :: Text.join "/" more, hsplit.2 ⟨more, hmore, rfl, rfl⟩,
      spells_below_iff.2 ⟨rfl, (dotless_iff hparts).2 hdots⟩⟩

end

theorem accepts_everything (path : Text) : accepts path "**/*" = .ok (matchesElements path "**/*") :=
  accepts_of_not_mem (by decide) path

/-- **All paths without parts that start with a dot** are selected by the pattern of all files. -/
theorem accepts_everything_iff (hqs : ∀ n ∈ qs, n ≠ [] ∧ slash ∉ n) (hne : qs ≠ []) :
    accepts (Text.join "/" qs) "**/*" = .ok true ↔ ∀ n ∈ qs, n.head? ≠ some (.char '.') := by
  have hread : Element.read "**/*" = [.deep, .boundary, .many true] := by decide
  rw [accepts_everything, Except.ok.injEq, matchesElements_iff (by decide), hread]
  exact spells_everything_iff hqs hne

/-! ### Matchers -/

/-- What is known of a matcher: glyphs that stand for themselves match just themselves; `**` stands for parts of
a path, as many as one likes, and neither it nor `*` for a part that starts with a dot. -/
structure Faithful (m : Matcher) : Prop where
  itself : ∀ t, Simple t → Tight t → m t t = .ok true
  below : ∀ ps qs, (∀ n ∈ ps, Path.Part n) → ps ≠ [] → Simple (Text.join "/" ps) →
    (∀ n ∈ qs, n ≠ [] ∧ slash ∉ n) → ∃ hit, m (Text.join "/" qs) (below (Text.join "/" ps)) = .ok hit ∧
      (hit ↔ ∃ more, more ≠ [] ∧ qs = ps ++ more ∧ ∀ n ∈ more, n.head? ≠ some (.char '.'))
  everything : ∀ qs, (∀ n ∈ qs, n ≠ [] ∧ slash ∉ n) → qs ≠ [] →
    ∃ hit, m (Text.join "/" qs) "**/*" = .ok hit ∧ (hit ↔ ∀ n ∈ qs, n.head? ≠ some (.char '.'))

theorem faithful_accepts : Faithful accepts where
  itself _ ht htight := accepts_self ht htight
  below ps qs hps hne hsimple hqs := by
    refine ⟨_, accepts_below hsimple _, ?_⟩
    have hiff := accepts_below_iff hps hne hsimple hqs
    rwa [accepts_below hsimple, Except.ok.injEq] at hiff
  everything qs hqs hne := by
    refine ⟨_, accepts_everything _, ?_⟩
    have hiff := accepts_everything_iff hqs hne
    rwa [accepts_everything, Except.ok.injEq] at hiff

end HtmlDeps.Glob
