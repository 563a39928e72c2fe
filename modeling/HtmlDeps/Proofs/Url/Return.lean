import HtmlDeps.Proofs.Url.Literal

/-!
# From a path to its URL and back

The URL of a path is not escaped, yet a reader of URLs decodes what looks like an escape.  So a path below
the root is found again from its URL exactly if no name in it holds an escape (`Path.ofUrl_ofPath_iff`).

The sentence of the full specification is “Round-trip holds for every path under root”, for `url_from_path`
and `path_from_url`.
-/

namespace HtmlDeps

namespace Percent

variable {t x : Text} {names : List Text}

theorem unescaped_infix (h : Unescaped t) (hx : x <:+: t) : Unescaped x := by
  intro a b hpair
  exact h a b (hpair.trans hx)

/-- No escape reaches across a slash. -/
theorem unescaped_append_slash (hx : Unescaped x) (ht : Unescaped t) : Unescaped (x ++ .char '/' :: t) := by
  induction x with
  | nil =>
    apply unescaped_cons _ ht
    intro a b r heq
    cases heq
  | cons g x ih =>
    apply unescaped_cons _ (ih hx.tail)
    intro a b r heq
    cases x with
    | nil =>
      simp only [List.nil_append, List.cons.injEq] at heq
      obtain ⟨-, rfl, -⟩ := heq
      exact .inl rfl
    | cons c x =>
      cases x with
      | nil =>
        simp only [List.cons_append, List.nil_append, List.cons.injEq] at heq
        obtain ⟨-, -, rfl, -⟩ := heq
        exact .inr rfl
      | cons d x =>
        simp only [List.cons_append, List.cons.injEq] at heq
        obtain ⟨rfl, rfl, rfl, -⟩ := heq
        exact hx.front

theorem infix_join {sep : Text} (h : x ∈ names) : x <:+: Text.join sep names := by
  induction names with
  | nil => cases h
  | cons n names ih =>
    cases names with
    | nil =>
      rw [List.mem_singleton.1 h]
      simp [Text.join, List.intercalate]
    | cons m names =>
      rw [Text.join_cons_cons]
      rcases List.mem_cons.1 h with rfl | h
      · exact ⟨[], sep ++ Text.join sep (m :: names), by simp⟩
      · exact (ih h).trans (List.suffix_append _ _).isInfix

theorem unescaped_join_iff : Unescaped (Text.join "/" names) ↔ ∀ n ∈ names, Unescaped n := by
  constructor
  · intro h n hn
    exact unescaped_infix h (infix_join hn)
  · intro h
    induction names with
    | nil => exact unescaped_nil
    | cons n names ih =>
      rw [List.forall_mem_cons] at h
      cases names with
      | nil => simpa [Text.join, List.intercalate] using h.1
      | cons m names =>
        rw [Text.join_cons_cons, List.append_assoc]
        exact unescaped_append_slash h.1 (ih h.2)

end Percent

namespace Path

variable {root path cwd : Path} {names : List Text} {url : Text}

theorem eq_extend_of_from? (hroot : root.isAbsolute) (h : root.from? path = some names) :
    path = root.extend names := by
  rw [isAbsolute, decide_eq_true_eq] at hroot
  unfold from? at h
  rw [if_neg (by simp [hroot])] at h
  split at h
  · rename_i hprefix
    rw [Bool.and_eq_true, decide_eq_true_eq, List.isPrefixOf_iff_prefix] at hprefix
    obtain ⟨hanchor, rest, hrest⟩ := hprefix
    rw [← hrest, List.drop_left, Option.some.injEq] at h
    obtain ⟨anchor, parts⟩ := path
    simp only at hanchor hrest
    rw [extend, ← h, hrest, hanchor]
  · cases h

/-- The path of a URL is no longer than the root with the segments of the URL. -/
theorem weight_ofUrl_le (hroot : root.isAbsolute) (url : Text) :
    weight (Path.ofUrl root url).parts ≤ weight root.parts + weight (Url.segments url) := by
  have hfold := weight_foldl_push_le (root.parts ++ Url.segments url) []
  have habsolute : (root.extend (Url.segments url)).isAbsolute := hroot
  rw [weight_nil, weight_append, Nat.zero_add] at hfold
  rw [Path.ofUrl, normal, habsolute, resolveParts, weight_reverse]
  exact hfold

theorem url_extend (hroot : root.Plain) (hpath : (root.extend names).Plain) :
    Url.ofPath cwd root (root.extend names) = .ok (Text.join "/" names) := by
  rw [Url.ofPath, hroot.absolute_eq, hpath.absolute_eq]
  simp [extend]

/-- **A path below the root is found again from its URL** exactly if no name on the way holds an escape. -/
theorem ofUrl_ofPath_iff (hroot : root.Plain) (hpath : path.Plain) (hwritten : path.Written)
    (hunder : root.from? path = some names) : ∃ u, Url.ofPath cwd root path = .ok u ∧
      (Path.ofUrl root u = path ↔ ∀ n ∈ names, Percent.Unescaped n) := by
  obtain rfl := eq_extend_of_from? hroot.absolute hunder
  refine ⟨_, url_extend hroot hpath, ?_⟩
  have hparts : ∀ n ∈ names, Part n := fun n hn => hwritten n (List.mem_append_right _ hn)
  have hnames : ∀ n ∈ names, Name n := by
    intro n hn
    have hmem : n ∈ (root.extend names).parts := List.mem_append_right _ hn
    refine ⟨(hparts n hn).1, ?_, (hparts n hn).2.2⟩
    rintro rfl
    exact hpath.settled hmem
  constructor
  · -- decoding an escape would lose length that nothing makes up for
    intro hback
    apply Percent.unescaped_join_iff.1
    apply Percent.unescaped_of_length
    have hweight := weight_ofUrl_le hroot.absolute (Text.join "/" names)
    have hsegments := weight_segments_le (Text.join "/" names)
    have hlength : (Text.join "/" names).length = weight names - 1 := length_join (.char '/') names
    rw [hback, extend, weight_append] at hweight
    omega
  · intro hunescaped
    rw [Path.ofUrl, segments_join hnames hparts (Percent.unescaped_join_iff.2 hunescaped)]
    exact hpath.normal_eq

/-- A name with a `%` that begins no escape. -/
theorem ofUrl_ofPath_percent : ∃ u, Url.ofPath "/" "/app" (Path.ofText "/app/100%/a b.js") = .ok u ∧
    Path.ofUrl "/app" u = "/app/100%/a b.js" := by
  have hroot : Path.Plain "/app" := ⟨by decide, by decide⟩
  have hpath : Path.Plain "/app/100%/a b.js" := ⟨by decide, by decide⟩
  obtain ⟨u, hu, hback⟩ := @ofUrl_ofPath_iff "/app" "/app/100%/a b.js" "/" ["100%", "a b.js"] hroot hpath
    (by decide) (by decide)
  refine ⟨u, hu, hback.2 ?_⟩
  intro n hn
  apply Percent.decode_eq_self_iff.1
  revert n
  decide

/-- A name that holds an escape is taken for another. -/
theorem not_ofUrl_ofPath : ¬ ∃ u, Url.ofPath "/" "/app" (Path.ofText "/app/a%41.js") = .ok u ∧
    Path.ofUrl "/app" u = "/app/a%41.js" := by
  rintro ⟨u, hu, hback⟩
  have hurl : Url.ofPath "/" "/app" (Path.ofText "/app/a%41.js") = .ok "a%41.js" := by decide
  obtain rfl := Except.ok.inj (hu.symm.trans hurl)
  revert hback
  decide

end Path
end HtmlDeps
