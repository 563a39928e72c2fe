import HtmlDeps.Proofs.Split.Stream
import HtmlDeps.Proofs.Url.Literal

/-!
# References that climb

A reference without a slash in front is seen from the directory of the document that holds it
(`Url.resolve_join`).  Its `..` take back the names of that directory; those for which no name is left stay
in front of the URL (`Url.settle_join`), although they lead nowhere above the root of the project
(`Url.ofUrl_climb`).
-/

namespace HtmlDeps

namespace Text

variable {sep t a b : Text} {p : Glyph → Bool} {g : Glyph}

theorem join_append {ps qs : List Text} (hps : ps ≠ []) (hqs : qs ≠ []) :
    join sep (ps ++ qs) = join sep ps ++ sep ++ join sep qs := by
  obtain ⟨y, qs, rfl⟩ := List.exists_cons_of_ne_nil hqs
  induction ps with
  | nil => exact absurd rfl hps
  | cons x ps ih =>
    cases ps with
    | nil => simp [join, List.intercalate]
    | cons z ps =>
      rw [List.cons_append, List.cons_append, join_cons_cons, ← List.cons_append,
        ih (List.cons_ne_nil z ps), join_cons_cons]
      simp only [List.append_assoc]

theorem cutLast?_append (hg : p g) (hb : ∀ x ∈ b, p x = false) : cutLast? p (a ++ g :: b) = some (a, b) := by
  have hb : ∀ x ∈ b.reverse, (!p x) = true := fun x hx => by simp [hb x (List.mem_reverse.1 hx)]
  rw [cutLast?, List.reverse_append, List.reverse_cons, List.append_assoc, List.singleton_append,
    List.dropWhile_append_of_pos hb, List.takeWhile_append_of_pos hb,
    List.dropWhile_cons_of_neg (by simp [hg]), List.takeWhile_cons_of_neg (by simp [hg])]
  simp

theorem cutLast?_eq_none (h : ∀ x ∈ t, p x = false) : cutLast? p t = none := by
  have hdrop : (t.reverse.dropWhile fun x => !p x) = [] :=
    List.dropWhile_eq_nil_iff.2 fun x hx => by simp [h x (List.mem_reverse.1 hx)]
  rw [cutLast?, hdrop]

end Text

namespace Percent

theorem unescaped_of_not_mem {t : Text} (h : .char '%' ∉ t) : Unescaped t := fun _ _ hpair =>
  absurd (hpair.subset List.mem_cons_self) h

end Percent

namespace Url

variable {t x : Text} {ps qs : List Text}

/-- A text without controls, spaces and the marks `:`, `?`, `#` and `%` stands for itself. -/
theorem literal_of_glyphs
    (h : ∀ g ∈ t, 32 < g.code ∧ g ∉ ([.char ':', .char '?', .char '#', .char '%'] : Text)) :
    Literal t := by
  have hcode : ∀ g : Glyph, g.code ≤ 32 → g ∉ t := fun g hg hmem => absurd (h g hmem).1 (Nat.not_lt.2 hg)
  have hmark : ∀ g ∈ ([.char ':', .char '?', .char '#', .char '%'] : Text), g ∉ t := fun g hg hmem =>
    (h g hmem).2 hg
  refine ⟨fun g hg => (h g (List.mem_of_mem_head? hg)).1, fun g hg hmem => ?_, ?_,
    Percent.unescaped_of_not_mem (hmark _ (by decide))⟩
  · simp only [List.mem_cons, List.not_mem_nil, or_false] at hmem
    rcases hmem with rfl | rfl | rfl | rfl | rfl
    · exact hcode _ (by decide) hg
    · exact hcode _ (by decide) hg
    · exact hcode _ (by decide) hg
    · exact hmark _ (by decide) hg
    · exact hmark _ (by decide) hg
  · have hcolon : ∀ x ∈ t, x ≠ .char ':' := fun x hx heq => hmark _ (by decide) (heq ▸ hx)
    have hcut : Text.cutAt (· == .char ':') t = (t, []) := by
      rw [Text.cutAt, List.takeWhile_eq_self_iff.2 (by simpa using hcolon),
        List.dropWhile_eq_nil_iff.2 (by simpa using hcolon)]
    unfold cutScheme?
    rw [hcut]
    cases t <;> rfl

/-- A reference is seen from the directory of its document. -/
theorem resolve_join (hx : .char '/' ∉ x) (hqs : ∀ n ∈ qs, Path.Part n) (hne : qs ≠ [])
    (hliteral : Literal (Text.join "/" qs)) (hstrip : (Text.join "/" qs).strip = Text.join "/" qs) :
    resolve (Text.join "/" (ps ++ [x])) (Text.join "/" qs) =
      .ok (resolve.settle (Text.join "/" (ps ++ qs))) := by
  have hslash := Path.join_ne_slash hqs
  -- Without its last part, the document is its directory, with the slash unless it is the base.
  have hdir : ((Text.cutLast? (· == .char '/') (Text.join "/" (ps ++ [x]))).elim ([] : Text)
      fun x => x.1 ++ [.char '/']) ++ Text.join "/" qs = Text.join "/" (ps ++ qs) := by
    have hfile : ∀ g ∈ x, (g == Glyph.char '/') = false := fun g hg =>
      beq_eq_false_iff_ne.2 fun heq => hx (heq ▸ hg)
    cases ps with
    | nil =>
      have hsingle : Text.join "/" [x] = x := by simp [Text.join, List.intercalate]
      rw [List.nil_append, hsingle, Text.cutLast?_eq_none hfile]
      rfl
    | cons n ps =>
      have hsingle : Text.join "/" [x] = x := by simp [Text.join, List.intercalate]
      have hbase : Text.join "/" (n :: ps ++ [x]) = Text.join "/" (n :: ps) ++ .char '/' :: x := by
        rw [Text.join_append (List.cons_ne_nil n ps) (List.cons_ne_nil x []), hsingle]
        exact List.append_assoc ..
      rw [hbase, Text.cutLast?_append (by rfl) hfile, Text.join_append (List.cons_ne_nil n ps) hne]
      rfl
  unfold resolve
  dsimp only
  rw [hstrip, isExternal_of_literal hliteral hslash, parse_of_literal hliteral hslash]
  simp only [bind, Except.bind, Bool.false_eq_true, if_false]
  split
  · rename_i hempty
    obtain ⟨n, ns, rfl⟩ := List.exists_cons_of_ne_nil hne
    exact absurd hempty (Text.join_ne_nil (hqs n List.mem_cons_self).1 ns)
  · exact absurd ‹_› (hslash _)
  · rw [hdir]
    rfl

end Url

namespace Path

variable {names : List Text} {k : Nat}

theorem foldl_push_replicate (k : Nat) :
    (List.replicate k dotDot).foldl (push false) [] = List.replicate k dotDot := by
  induction k with
  | zero => rfl
  | succ k ih =>
    rw [List.replicate_succ', List.foldl_append, ih, ← List.replicate_succ']
    cases k <;> rfl

/-- What cannot be taken back stays in front. -/
theorem resolveParts_climb (hnames : dotDot ∉ names) :
    resolveParts false (List.replicate k dotDot ++ names) = List.replicate k dotDot ++ names := by
  rw [resolveParts, List.foldl_append, foldl_push_replicate, foldl_push_of_not_mem false hnames,
    List.reverse_append, List.reverse_reverse, List.reverse_replicate]

/-- At a root, nothing stays in front. -/
theorem resolveParts_climb_root (hnames : dotDot ∉ names) :
    resolveParts true (List.replicate k dotDot ++ names) = names := by
  have hnone : (List.replicate k dotDot).foldl (push true) [] = [] := by
    induction k with
    | zero => rfl
    | succ k ih => exact ih
  rw [resolveParts, List.foldl_append, hnone, foldl_push_of_not_mem true hnames, List.append_nil,
    List.reverse_reverse]

theorem part_climb (hparts : ∀ n ∈ names, Part n) : ∀ n ∈ List.replicate k dotDot ++ names, Part n := by
  intro n hn
  rcases List.mem_append.1 hn with hn | hn
  · rw [List.eq_of_mem_replicate hn]
    exact ⟨by decide, by decide, by decide⟩
  · exact hparts n hn

end Path

namespace Url

open HtmlDeps.Path

variable {names : List Text} {k : Nat}

/-- The `..` in front of a URL stay there. -/
theorem settle_join (hnames : ∀ n ∈ names, Name n) (hparts : ∀ n ∈ names, Path.Part n) (hne : names ≠ []) :
    resolve.settle (Text.join "/" (List.replicate k dotDot ++ names)) =
      some (Text.join "/" (List.replicate k dotDot ++ names)) := by
  have hclimb := part_climb (k := k) hparts
  have hwritten : (Path.mk .here (List.replicate k dotDot ++ names)).Written := hclimb
  obtain ⟨n, ns, hcons⟩ := List.exists_cons_of_ne_nil
    (List.append_ne_nil_of_right_ne_nil (List.replicate k dotDot) hne)
  have htext : (Path.mk .here (List.replicate k dotDot ++ names)).toText =
      Text.join "/" (List.replicate k dotDot ++ names) := by
    rw [hcons]
    rfl
  have hread := hwritten.ofText_toText
  rw [htext] at hread
  -- A leading `..` has nothing in front of it to go up from, and none stands behind a name.
  have hresolved : (ofText (Text.join "/" (List.replicate k dotDot ++ names))).normal =
      ⟨.here, List.replicate k dotDot ++ names⟩ := by
    rw [hread, normal]
    exact congrArg (Path.mk .here) (resolveParts_climb fun hmem => (hnames _ hmem).ne_dotDot rfl)
  have hempty : Text.join "/" (List.replicate k dotDot ++ names) ≠ [] := by
    rw [hcons]
    exact Text.join_ne_nil (hclimb n (hcons ▸ List.mem_cons_self)).1 ns
  have hdot : Text.join "/" (List.replicate k dotDot ++ names) ≠ dot := by
    intro hdot
    have hparts := partsOf_join hclimb
    rw [hdot, hcons] at hparts
    cases hparts
  have hnormal : normalText (Text.join "/" (List.replicate k dotDot ++ names)) =
      Text.join "/" (List.replicate k dotDot ++ names) := by
    rw [normalText, hresolved, htext]
  have hdrop : (Text.join "/" (List.replicate k dotDot ++ names)).dropLeading (.char '/') =
      Text.join "/" (List.replicate k dotDot ++ names) :=
    Text.dropLeading_join fun n hn => ⟨(hclimb n hn).1, (hclimb n hn).2.2⟩
  unfold resolve.settle
  dsimp only
  rw [hnormal, hdrop, if_neg (by simp [hempty, hdot])]

/-- The segments of a URL are the names behind its `..`. -/
theorem segments_climb (hnames : ∀ n ∈ names, Name n) (hparts : ∀ n ∈ names, Path.Part n)
    (h : Percent.Unescaped (Text.join "/" (List.replicate k dotDot ++ names))) :
    segments (Text.join "/" (List.replicate k dotDot ++ names)) = names := by
  have hread : Path.partsOf (.char '/' :: Text.join "/" (List.replicate k dotDot ++ names)) =
      List.replicate k dotDot ++ names := by
    rw [partsOf_slash, partsOf_join (part_climb hparts)]
  have habsolute : (ofText (.char '/' :: Text.join "/" (List.replicate k dotDot ++ names))).isAbsolute =
      true := decide_eq_true (anchorOf_slash_ne _)
  rw [segments, Percent.decode_of_unescaped h, normal, habsolute]
  dsimp only [ofText]
  rw [hread, resolveParts_climb_root (not_mem_of_names hnames)]

/-- The `..` in front of a URL lead nowhere above the root. -/
theorem ofUrl_climb {root : Path} (hnames : ∀ n ∈ names, Name n) (hparts : ∀ n ∈ names, Path.Part n)
    (h : Percent.Unescaped (Text.join "/" (List.replicate k dotDot ++ names))) :
    Path.ofUrl root (Text.join "/" (List.replicate k dotDot ++ names)) = root.normal.extend names := by
  rw [Path.ofUrl, segments_climb hnames hparts h]
  exact normal_extend_names hnames

end Url

end HtmlDeps
