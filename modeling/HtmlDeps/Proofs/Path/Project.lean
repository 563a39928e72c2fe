import HtmlDeps.Config.Project
import HtmlDeps.Proofs.Except
import HtmlDeps.Proofs.Path.Logical

/-!
# Paths of a project

The files that a build handles lie at plain paths: absolute and resolved.  Below the root of a project,
such a path and its URL determine each other (`Project.Inside.eq_of_url_eq`), and the path of a URL lies
below the root (`Project.inside_path`).
-/

namespace HtmlDeps

namespace Text

theorem split_append_separator {g : Glyph} {x : Text} (hx : g ∉ x) (t : Text) :
    split g (x ++ g :: t) = x :: split g t := by
  induction x with
  | nil => simp [split]
  | cons y x ih =>
    simp only [List.mem_cons, not_or] at hx
    simp [split, Ne.symm hx.1, ih hx.2]

theorem join_cons_cons (sep x y : Text) (ts : List Text) :
    join sep (x :: y :: ts) = x ++ sep ++ join sep (y :: ts) := by
  simp [join, List.intercalate]

theorem split_join {g : Glyph} {ts : List Text} (hne : ts ≠ []) (h : ∀ t ∈ ts, g ∉ t) :
    split g (join [g] ts) = ts := by
  induction ts with
  | nil => exact absurd rfl hne
  | cons x ts ih =>
    have hx := h x List.mem_cons_self
    cases ts with
    | nil => simpa [join, List.intercalate] using split_of_not_mem hx
    | cons y ts =>
      rw [join_cons_cons, List.append_assoc, List.singleton_append, split_append_separator hx,
        ih (List.cons_ne_nil y ts) fun t ht => h t (List.mem_cons_of_mem x ht)]

theorem join_ne_nil {sep x : Text} (hx : x ≠ []) (ts : List Text) : join sep (x :: ts) ≠ [] := by
  cases ts with
  | nil => simpa [join, List.intercalate] using hx
  | cons y ts =>
    rw [join_cons_cons, List.append_assoc]
    exact List.append_ne_nil_of_left_ne_nil hx _

/-- Nonempty pieces without the separator can be told apart again. -/
theorem join_injective {g : Glyph} {ts us : List Text} (ht : ∀ t ∈ ts, t ≠ [] ∧ g ∉ t)
    (hu : ∀ u ∈ us, u ≠ [] ∧ g ∉ u) (h : join [g] ts = join [g] us) : ts = us := by
  cases ts with
  | nil =>
    cases us with
    | nil => rfl
    | cons u us => exact absurd h.symm (join_ne_nil (hu u List.mem_cons_self).1 us)
  | cons t ts =>
    cases us with
    | nil => exact absurd h (join_ne_nil (ht t List.mem_cons_self).1 ts)
    | cons u us =>
      rw [← split_join (List.cons_ne_nil t ts) fun x hx => (ht x hx).2, h,
        split_join (List.cons_ne_nil u us) fun x hx => (hu x hx).2]

/-- In front of such pieces there is no separator. -/
theorem dropLeading_join {g : Glyph} {ts : List Text} (ht : ∀ t ∈ ts, t ≠ [] ∧ g ∉ t) :
    (join [g] ts).dropLeading g = join [g] ts := by
  cases ts with
  | nil => rfl
  | cons t ts =>
    obtain ⟨hne, hg⟩ := ht t List.mem_cons_self
    obtain ⟨x, t, rfl⟩ := List.exists_cons_of_ne_nil hne
    have hx : x ≠ g := fun h => hg (h ▸ List.mem_cons_self)
    cases ts with
    | nil => simp [join, List.intercalate, dropLeading, hx]
    | cons u us => simp [join_cons_cons, dropLeading, hx]

end Text

namespace Path

/-! ### Plain paths -/

/-- A path that is absolute and resolved. -/
structure Plain (p : Path) : Prop where
  absolute : p.isAbsolute
  settled : dotDot ∉ p.parts

theorem foldl_push_of_not_mem (anchored : Bool) {ps : List Text} (h : dotDot ∉ ps)
    (st : List Text) : ps.foldl (push anchored) st = ps.reverse ++ st := by
  induction ps generalizing st with
  | nil => rfl
  | cons p ps ih =>
    rw [List.mem_cons, not_or] at h
    rw [List.foldl_cons, ih h.2, push, if_neg (Ne.symm h.1)]
    simp

theorem resolveParts_eq_self (anchored : Bool) {ps : List Text} (h : dotDot ∉ ps) :
    resolveParts anchored ps = ps := by
  rw [resolveParts, foldl_push_of_not_mem anchored h]
  simp

theorem mem_of_mem_push {anchored : Bool} {st : List Text} {p q : Text}
    (h : q ∈ push anchored st p) : q ∈ st ∨ q = p := by
  unfold push at h
  split at h
  · rename_i hp
    cases st with
    | nil =>
      cases anchored with
      | true => cases h
      | false => exact .inr ((List.mem_singleton.1 h).trans hp.symm)
    | cons top rest =>
      simp only [climb] at h
      split at h
      · rcases List.mem_cons.1 h with h | h
        · exact .inr (h.trans hp.symm)
        · exact .inl h
      · exact .inl (List.mem_cons_of_mem _ h)
  · rcases List.mem_cons.1 h with h | h
    · exact .inr h
    · exact .inl h

theorem mem_of_mem_resolveParts {anchored : Bool} {ps : List Text} {q : Text}
    (h : q ∈ resolveParts anchored ps) : q ∈ ps := by
  have key : ∀ (ps st : List Text), q ∈ ps.foldl (push anchored) st → q ∈ ps ∨ q ∈ st := by
    intro ps
    induction ps with
    | nil => exact fun st h => .inr h
    | cons p ps ih =>
      intro st h
      rcases ih _ h with h | h
      · exact .inl (List.mem_cons_of_mem p h)
      · rcases mem_of_mem_push h with h | rfl
        · exact .inr h
        · exact .inl List.mem_cons_self
  rcases key ps [] (List.mem_reverse.1 h) with h | h
  · exact h
  · cases h

theorem not_mem_resolveParts (ps : List Text) : dotDot ∉ resolveParts true ps :=
  settled_resolveParts true ps

theorem Plain.normal_eq {p : Path} (h : p.Plain) : p.normal = p := by
  rw [normal, resolveParts_eq_self _ h.settled]

/-- An absolute path is plain once it is resolved. -/
theorem plain_normal {p : Path} (habsolute : p.isAbsolute) : p.normal.Plain := by
  refine ⟨habsolute, ?_⟩
  rw [normal, habsolute]
  exact not_mem_resolveParts p.parts

theorem Plain.absolute_eq {p : Path} (h : p.Plain) (cwd : Path) : Path.absolute p cwd = p := by
  rw [Path.absolute, h.normal_eq, join, if_pos h.absolute, h.normal_eq]

/-! ### The parts of a URL -/

/-- The name of a file or a directory. -/
structure Name (n : Text) : Prop where
  ne_nil : n ≠ []
  ne_dotDot : n ≠ dotDot
  slash : .char '/' ∉ n

theorem name_iff {n : Text} : Name n ↔ n ≠ [] ∧ n ≠ dotDot ∧ .char '/' ∉ n :=
  ⟨fun h => ⟨h.ne_nil, h.ne_dotDot, h.slash⟩, fun ⟨hne, hdots, hslash⟩ => ⟨hne, hdots, hslash⟩⟩

instance : DecidablePred Name := fun _ => decidable_of_iff _ name_iff.symm

section

variable {anchored : Bool} {p : Path} {names ps : List Text}

theorem resolveParts_append (h : dotDot ∉ names) :
    resolveParts anchored (ps ++ names) = resolveParts anchored ps ++ names := by
  rw [resolveParts, List.foldl_append, foldl_push_of_not_mem anchored h, List.reverse_append,
    List.reverse_reverse, resolveParts]

theorem not_mem_of_names (h : ∀ n ∈ names, Name n) : dotDot ∉ names := fun hmem =>
  (h _ hmem).ne_dotDot rfl

/-- Names go through normalization. -/
theorem normal_extend_names (h : ∀ n ∈ names, Name n) : (p.extend names).normal = p.normal.extend names := by
  have happend : resolveParts p.isAbsolute (p.parts ++ names) = resolveParts p.isAbsolute p.parts ++ names :=
    resolveParts_append (not_mem_of_names h)
  exact congrArg (Path.mk p.anchor) happend

end

theorem anchorOf_slash_ne (t : Text) : anchorOf (.char '/' :: t) ≠ .here := by
  intro h
  unfold anchorOf at h
  split at h <;> simp_all

/-- The parts of a URL are names. -/
theorem name_of_mem_segments {url n : Text} (hn : n ∈ Url.segments url) : Name n := by
  have habsolute : (ofText (.char '/' :: Percent.decode url)).isAbsolute := by
    rw [isAbsolute, decide_eq_true_eq]
    exact anchorOf_slash_ne _
  rw [Url.segments, normal, habsolute] at hn
  have hmem := mem_of_mem_resolveParts hn
  simp only [ofText, partsOf, List.mem_filter] at hmem
  refine ⟨?_, ?_, Text.not_mem_of_mem_split hmem.1⟩
  · rintro rfl
    simp at hmem
  · rintro rfl
    exact not_mem_resolveParts _ hn

end Path

/-- The fragments of a layout: entrypoint, shell, others. -/
def Layout.members (l : Layout) : List Path := l.entrypoint :: l.shell.toList ++ l.fragments

namespace Project

open HtmlDeps.Path

variable {p : Project} {m : Glob.Matcher} {q q' : Path} {u t : Text}

/-- The root of a project is absolute. -/
structure Rooted (p : Project) : Prop where
  absolute : p.root.isAbsolute

/-- A path that lies below the root. -/
def Inside (p : Project) (q : Path) : Prop :=
  ∃ names, q = p.root.normal.extend names ∧ ∀ n ∈ names, Name n

/-- A path that a build may handle: a plain one that has no URL unless it lies below the root. -/
structure Regular (p : Project) (q : Path) : Prop where
  plain : q.Plain
  inside : ∀ u, p.url q = .ok u → p.Inside q

theorem Rooted.plain_root (h : p.Rooted) : p.root.normal.Plain := plain_normal h.absolute

/-- What an anchored layout consists of. -/
theorem anchor_eq_ok {cwd : Path} {homes : Homes} {l : Layout} (h : l.anchor m cwd homes = .ok p) :
    ∃ root, l.root.atHome homes = .ok root ∧ p.root = (cwd.join root).normal ∧
      Layout.under homes p.root l.entrypoint = .ok p.entrypoint ∧
      l.shell.mapM (Layout.under homes p.root) = .ok p.shell ∧
      l.fragments.mapM (Layout.under homes p.root) = .ok p.fragments ∧ p.cwd = cwd ∧ p.matcher = m := by
  unfold Layout.anchor at h
  obtain ⟨root, hroot, h⟩ := exists_of_bind_eq_ok h
  obtain ⟨entrypoint, hentrypoint, h⟩ := exists_of_bind_eq_ok h
  obtain ⟨shell, hshell, h⟩ := exists_of_bind_eq_ok h
  obtain ⟨fragments, hfragments, h⟩ := exists_of_bind_eq_ok h
  obtain rfl := Except.ok.inj h
  exact ⟨root, hroot, rfl, hentrypoint, hshell, hfragments, rfl, rfl⟩

/-- Each fragment of the layout gives one of the project. -/
theorem members_of_anchor {cwd : Path} {homes : Homes} {l : Layout} (h : l.anchor m cwd homes = .ok p) :
    l.members.map (Layout.under homes p.root) = p.members.map .ok := by
  obtain ⟨root, -, -, hentrypoint, hshell, hfragments, -⟩ := anchor_eq_ok h
  simp only [Layout.members, List.map_cons, List.map_append, hentrypoint, map_eq_of_option_mapM hshell,
    map_eq_of_mapM hfragments]

theorem mem_allFragments_iff {f : Path} : f ∈ p.allFragments ↔ f ∈ p.members := by
  have hfold : ∀ fs seen : List Path, f ∈ fs.foldl
      (fun seen f => if f ∈ seen then seen else seen ++ [f]) seen ↔ f ∈ seen ∨ f ∈ fs := by
    intro fs
    induction fs with
    | nil => simp
    | cons g fs ih =>
      intro seen
      rw [List.foldl_cons, ih, List.mem_cons]
      split
      · rename_i hg
        exact ⟨Or.imp_right .inr, Or.rec .inl (Or.rec (fun heq => .inl (heq ▸ hg)) .inr)⟩
      · rw [List.mem_append, List.mem_singleton, or_assoc]
  exact (hfold p.members []).trans (by simp)

theorem under_eq_ok {homes : Homes} {root m f : Path} :
    Layout.under homes root m = .ok f ↔ ∃ q, m.atHome homes = .ok q ∧ (root.join q).normal = f := by
  unfold Layout.under
  cases m.atHome homes with
  | error e => exact iff_of_false nofun nofun
  | ok q => simp [Except.map]

/-- The fragments of an anchored layout are those of the layout, seen from the root. -/
theorem mem_allFragments_of_anchor {cwd f : Path} {homes : Homes} {l : Layout} (h : l.anchor m cwd homes = .ok p) :
    f ∈ p.allFragments ↔ ∃ m ∈ l.members, ∃ q, m.atHome homes = .ok q ∧ (p.root.join q).normal = f := by
  have hok : f ∈ p.members ↔ Except.ok f ∈ l.members.map (Layout.under homes p.root) := by
    rw [members_of_anchor h, List.mem_map]
    simp
  rw [mem_allFragments_iff, hok, List.mem_map]
  simp only [under_eq_ok]

/-- The root of an anchored layout. -/
theorem rooted_of_anchor {cwd : Path} {homes : Homes} {l : Layout} (hcwd : cwd.isAbsolute)
    (h : l.anchor m cwd homes = .ok p) : p.Rooted := by
  obtain ⟨root, -, hroot, -⟩ := anchor_eq_ok h
  constructor
  rw [hroot]
  change (cwd.join root).isAbsolute
  unfold join
  split
  · assumption
  · exact hcwd

theorem Inside.plain (hp : p.Rooted) (h : p.Inside q) : q.Plain := by
  obtain ⟨names, rfl, hnames⟩ := h
  refine ⟨hp.plain_root.absolute, fun hmem => ?_⟩
  rcases List.mem_append.1 hmem with hmem | hmem
  · exact hp.plain_root.settled hmem
  · exact (hnames _ hmem).ne_dotDot rfl

theorem url_of_plain (hp : p.Rooted) (hq : q.Plain) :
    p.url q = if p.root.normal.parts.isPrefixOf q.parts then
      .ok (Text.join "/" (q.parts.drop p.root.normal.parts.length))
    else .error ⟨q, p.root.normal⟩ := by
  have hroot : p.root.absolute p.cwd = p.root.normal := by
    have habsolute := hp.plain_root.absolute_eq p.cwd
    rwa [Path.absolute, hp.plain_root.normal_eq] at habsolute
  rw [url, Url.ofPath, hroot, hq.absolute_eq, hq.normal_eq]

theorem url_extend (hp : p.Rooted) {names : List Text} (hnames : ∀ n ∈ names, Name n) :
    p.url (p.root.normal.extend names) = .ok (Text.join "/" names) := by
  have hinside : p.Inside (p.root.normal.extend names) := ⟨names, rfl, hnames⟩
  rw [url_of_plain hp (hinside.plain hp), if_pos]
  · simp [extend]
  · simp [extend]

theorem Inside.regular (hp : p.Rooted) (h : p.Inside q) : p.Regular q :=
  ⟨h.plain hp, fun _ _ => h⟩

/-- Below the root a path is known by its URL. -/
theorem Inside.eq_of_url_eq (hp : p.Rooted) (h : p.Inside q) (h' : p.Inside q')
    (hurl : p.url q = p.url q') : q = q' := by
  obtain ⟨names, rfl, hnames⟩ := h
  obtain ⟨names', rfl, hnames'⟩ := h'
  rw [url_extend hp hnames, url_extend hp hnames'] at hurl
  rw [Text.join_injective (fun n hn => ⟨(hnames n hn).ne_nil, (hnames n hn).slash⟩)
    (fun n hn => ⟨(hnames' n hn).ne_nil, (hnames' n hn).slash⟩) (Except.ok.inj hurl)]

/-- No URL of the project starts with a slash. -/
theorem Inside.dropLeading_url (hp : p.Rooted) (h : p.Inside q) (hurl : p.url q = .ok u) :
    u.dropLeading (.char '/') = u := by
  obtain ⟨names, rfl, hnames⟩ := h
  rw [url_extend hp hnames] at hurl
  rw [← Except.ok.inj hurl]
  exact Text.dropLeading_join fun n hn => ⟨(hnames n hn).ne_nil, (hnames n hn).slash⟩

theorem Regular.eq_of_url_eq (hp : p.Rooted) (h : p.Regular q) (h' : p.Regular q')
    (hurl : p.url q = .ok u) (hurl' : p.url q' = .ok u) : q = q' :=
  (h.inside u hurl).eq_of_url_eq hp (h'.inside u hurl') (hurl.trans hurl'.symm)

/-! ### The path of a URL -/

theorem plain_path (hp : p.Rooted) (t : Text) : (p.path t).Plain := plain_normal hp.absolute

/-- The path of a URL lies below the root. -/
theorem inside_path (p : Project) (t : Text) : p.Inside (p.path t) := by
  have hnames : ∀ n ∈ Url.segments t, Name n := fun _ hn => name_of_mem_segments hn
  exact ⟨Url.segments t, normal_extend_names hnames, hnames⟩

theorem regular_path (hp : p.Rooted) (t : Text) : p.Regular (p.path t) :=
  ⟨plain_path hp t, fun _ _ => p.inside_path t⟩

end Project
end HtmlDeps
