import HtmlDeps.Glob.Match
import HtmlDeps.Proofs.Except
import HtmlDeps.Proofs.Table
import Mathlib.Data.List.Induction

/-!
# The last pattern that matches decides

A list of patterns is gone through pattern by pattern (`selectsFrom_eq_foldlM`).  A path is selected exactly
if some pattern takes it in and no pattern behind that one takes it out again (`selects_eq_true_iff`).
Where each pattern can be told to match or not, the list is as good as the last one that matches
(`lastWord`): the patterns that are passed over, because they cannot change what has been found so far, make
no difference (`selectsFrom_eq_ok`).

This is the loop of `matches_all`, “where later patterns override earlier ones”.
-/

namespace HtmlDeps.Glob

variable {m : Matcher} {path p q : Text} {ps before after : List Text} {b hit : Bool}

/-- The mark in front of a pattern that takes paths out. -/
def bang : Glyph := .char '!'

/-- What one pattern makes of a path that is selected so far, or is not. -/
def verdict (m : Matcher) (path : Text) (selected : Bool) : Text → Except TooMany Bool
  | .char '!' :: p => if selected then (fits m path p).map (!·) else .ok false
  | p => if selected then .ok true else fits m path p

theorem verdict_bang (m : Matcher) (path : Text) (selected : Bool) (p : Text) :
    verdict m path selected (bang :: p) = if selected then (fits m path p).map (!·) else .ok false := rfl

theorem verdict_of_head_ne (h : p.head? ≠ some bang) :
    verdict m path b p = if b then .ok true else fits m path p := by
  unfold verdict
  split
  · exact absurd rfl h
  · rfl

theorem selectsFrom_cons : selectsFrom m path b (p :: ps) = verdict m path b p >>= (selectsFrom m path · ps) := by
  unfold verdict
  split
  · rw [selectsFrom]
    cases b with
    | false => rfl
    | true => cases fits m path _ <;> rfl
  · rename_i hbang
    rw [selectsFrom.eq_3 m path b p ps hbang]
    cases b with
    | false => rfl
    | true => rfl

theorem selectsFrom_eq_foldlM (m : Matcher) (path : Text) (b : Bool) (ps : List Text) :
    selectsFrom m path b ps = ps.foldlM (verdict m path) b := by
  induction ps generalizing b with
  | nil => rfl
  | cons p ps ih =>
    rw [selectsFrom_cons, List.foldlM_cons]
    exact congrArg _ (funext ih)

theorem selectsFrom_append : selectsFrom m path b (before ++ after) =
    selectsFrom m path b before >>= (selectsFrom m path · after) := by
  simp only [selectsFrom_eq_foldlM, List.foldlM_append]

/-- No pattern takes a path out. -/
def Keeps (m : Matcher) (path : Text) (ps : List Text) : Prop := ∀ p, bang :: p ∈ ps → fits m path p = .ok false

theorem keeps_append_iff : Keeps m path (before ++ after) ↔ Keeps m path before ∧ Keeps m path after := by
  simp only [Keeps, List.mem_append, or_imp, forall_and]

theorem keeps_singleton_iff : Keeps m path [p] ↔ verdict m path true p = .ok true := by
  by_cases hbang : p.head? = some bang
  · obtain ⟨p, rfl⟩ := List.head?_eq_some_iff.1 hbang
    rw [verdict_bang, if_pos rfl]
    cases h : fits m path p with
    | error e => simp [Keeps, h, Except.map]
    | ok hit => simp [Keeps, h, Except.map]
  · rw [verdict_of_head_ne hbang, if_pos rfl]
    refine ⟨fun _ => rfl, fun _ q hq => ?_⟩
    rw [← List.mem_singleton.1 hq] at hbang
    exact absurd rfl hbang

theorem selectsFrom_of_keeps (h : Keeps m path ps) : selectsFrom m path true ps = .ok true := by
  induction ps with
  | nil => rfl
  | cons p ps ih =>
    obtain ⟨hp, hps⟩ := keeps_append_iff.1 (show Keeps m path ([p] ++ ps) from h)
    rw [selectsFrom_cons, keeps_singleton_iff.1 hp]
    exact ih hps

/-- A pattern that matches decides, if those in front of it can be told and none behind it takes the path
out. -/
theorem selectsFrom_of_hit {selected : Bool} (hbefore : selectsFrom m path b before = .ok selected)
    (hp : p.head? ≠ some bang) (hhit : fits m path p = .ok true) (hafter : Keeps m path after) :
    selectsFrom m path b (before ++ p :: after) = .ok true := by
  have hone : verdict m path selected p = .ok true := by
    rw [verdict_of_head_ne hp, hhit, ite_self]
  rw [selectsFrom_append, hbefore]
  change selectsFrom m path selected (p :: after) = _
  rw [selectsFrom_cons, hone]
  exact selectsFrom_of_keeps hafter

/-- Some pattern takes a path in that was not selected before it, and no pattern behind takes it out. -/
def Takes (m : Matcher) (path : Text) (b : Bool) (ps : List Text) : Prop :=
  ∃ before q after, ps = before ++ q :: after ∧ selectsFrom m path b before = .ok false ∧
    q.head? ≠ some bang ∧ fits m path q = .ok true ∧ Keeps m path after

theorem selectsFrom_eq_true_iff :
    selectsFrom m path b ps = .ok true ↔ b = true ∧ Keeps m path ps ∨ Takes m path b ps := by
  constructor
  · intro h
    -- the last pattern either leaves the path selected or takes it in
    induction ps using List.reverseRecOn with
    | nil => exact .inl ⟨Except.ok.inj h, fun _ hmem => nomatch hmem⟩
    | append_singleton ps p ih =>
      rw [selectsFrom_append] at h
      obtain ⟨selected, hps, hp⟩ := exists_of_bind_eq_ok h
      rw [selectsFrom_cons] at hp
      obtain ⟨_, hp, hend⟩ := exists_of_bind_eq_ok hp
      obtain rfl := Except.ok.inj hend
      cases selected with
      | true =>
        have hlast := keeps_singleton_iff.2 hp
        rcases ih hps with ⟨rfl, hkeeps⟩ | ⟨before, q, after, rfl, hbefore, hq, hhit, hafter⟩
        · exact .inl ⟨rfl, keeps_append_iff.2 ⟨hkeeps, hlast⟩⟩
        · exact .inr ⟨before, q, after ++ [p], by simp, hbefore, hq, hhit, keeps_append_iff.2 ⟨hafter, hlast⟩⟩
      | false =>
        by_cases hbang : p.head? = some bang
        · obtain ⟨p, rfl⟩ := List.head?_eq_some_iff.1 hbang
          cases hp
        · rw [verdict_of_head_ne hbang] at hp
          exact .inr ⟨ps, p, [], rfl, hps, hbang, hp, fun _ hmem => nomatch hmem⟩
  · rintro (⟨rfl, hkeeps⟩ | ⟨before, q, after, rfl, hbefore, hq, hhit, hafter⟩)
    · exact selectsFrom_of_keeps hkeeps
    · exact selectsFrom_of_hit hbefore hq hhit hafter

/-- **A path is selected** exactly if some pattern takes it in and no pattern behind that one takes it
out. -/
theorem selects_eq_true_iff : selects m path ps = .ok true ↔ Takes m path false ps := by
  rw [selects, selectsFrom_eq_true_iff]
  simp

/-! ### The last match -/

/-- The glob of a pattern, without the mark that takes paths out. -/
def bare : Text → Text
  | .char '!' :: p => p
  | p => p

theorem bare_bang (p : Text) : bare (bang :: p) = p := rfl

theorem bare_of_head_ne (h : p.head? ≠ some bang) : bare p = p := by
  unfold bare
  split
  · exact absurd rfl h
  · rfl

/-- Whether a pattern's glob matches a path, whatever the pattern makes of that. -/
def hits (m : Matcher) (path p : Text) : Bool := fits m path (bare p) = .ok true

theorem hits_iff : hits m path p ↔ fits m path (bare p) = .ok true := decide_eq_true_iff

/-- What the last pattern says that matches; `b` if there is none. -/
def lastWord (m : Matcher) (path : Text) (b : Bool) (ps : List Text) : Bool :=
  ((ps.filter (hits m path)).getLast?).elim b fun p => p.head? ≠ some bang

theorem lastWord_concat (m : Matcher) (path : Text) (b : Bool) (ps : List Text) (p : Text) :
    lastWord m path b (ps ++ [p]) = if hits m path p then decide (p.head? ≠ some bang) else lastWord m path b ps := by
  rw [lastWord, getLast?_filter_append, lastWord]
  by_cases h : hits m path p <;> simp [h]

theorem verdict_eq_ok (h : fits m path (bare p) = .ok hit) :
    verdict m path b p = .ok (if hits m path p then p.head? ≠ some bang else b) := by
  have hhits : hits m path p = hit := by
    unfold hits
    rw [h]
    cases hit <;> rfl
  rw [hhits]
  by_cases hbang : p.head? = some bang
  · obtain ⟨p, rfl⟩ := List.head?_eq_some_iff.1 hbang
    rw [bare_bang] at h
    rw [verdict_bang, h]
    cases b <;> cases hit <;> rfl
  · rw [bare_of_head_ne hbang] at h
    rw [verdict_of_head_ne hbang, h]
    cases b <;> cases hit <;> simp [hbang]

theorem selectsFrom_eq_ok (h : ∀ p ∈ ps, ∃ hit, fits m path (bare p) = .ok hit) (b : Bool) :
    selectsFrom m path b ps = .ok (lastWord m path b ps) := by
  induction ps using List.reverseRecOn with
  | nil => rfl
  | append_singleton ps p ih =>
    obtain ⟨hps, hp⟩ := List.forall_mem_append.1 h
    obtain ⟨hit, hhit⟩ := hp p (List.mem_singleton_self p)
    rw [selectsFrom_append, ih hps, lastWord_concat]
    change selectsFrom m path _ [p] = _
    rw [selectsFrom_cons, verdict_eq_ok hhit]
    rfl

/-- Some pattern takes the path in, and none behind it takes it out. -/
def TakenIn (m : Matcher) (path : Text) (ps : List Text) : Prop :=
  ∃ before q after, ps = before ++ q :: after ∧ q.head? ≠ some bang ∧ fits m path q = .ok true ∧
    ∀ p, bang :: p ∈ after → fits m path p ≠ .ok true

theorem lastWord_eq_true_iff : lastWord m path false ps = true ↔ TakenIn m path ps := by
  constructor
  · intro h
    cases hlast : (ps.filter (hits m path)).getLast? with
    | none =>
      rw [lastWord, hlast] at h
      cases h
    | some q =>
      rw [lastWord, hlast, Option.elim_some, decide_eq_true_eq] at h
      obtain ⟨before, after, hps, hq, hafter⟩ := getLast?_filter_eq_some_iff.1 hlast
      rw [hits_iff, bare_of_head_ne h] at hq
      refine ⟨before, q, after, hps, h, hq, ?_⟩
      intro p hp hhit
      rw [← bare_bang p, ← hits_iff] at hhit
      exact hafter _ hp hhit
  · rintro ⟨before, q, after, rfl, hq, hhit, hafter⟩
    have hq' : hits m path q := by
      rw [hits_iff, bare_of_head_ne hq]
      exact hhit
    rw [lastWord, getLast?_filter_append, List.filter_cons_of_pos hq', List.getLast?_cons]
    -- the last match is `q` or stands behind it, and takes the path in in either case
    cases hlast : (after.filter (hits m path)).getLast? with
    | none => simpa using hq
    | some x =>
      obtain ⟨hx, hxhits⟩ := List.mem_filter.1 (List.mem_of_getLast? hlast)
      have hbang : x.head? ≠ some bang := by
        intro hbang
        obtain ⟨p, rfl⟩ := List.head?_eq_some_iff.1 hbang
        rw [hits_iff, bare_bang] at hxhits
        exact hafter p hx hxhits
      simpa using hbang

/-- **The last match decides**: the loop finds what the last pattern says whose glob matches, and it finds a
path exactly if some pattern takes the path in and none behind that one takes it out. -/
theorem selects_eq_lastWord (h : ∀ p ∈ ps, ∃ hit, fits m path (bare p) = .ok hit) :
    selects m path ps = .ok (lastWord m path false ps) ∧ (selects m path ps = .ok true ↔ TakenIn m path ps) := by
  have hselects : selects m path ps = .ok (lastWord m path false ps) := selectsFrom_eq_ok h false
  refine ⟨hselects, ?_⟩
  rw [hselects, ← lastWord_eq_true_iff, Except.ok.injEq]

/-- Patterns that take some files out and one of them in again. -/
def keeping : List Text := ["src/**", "!src/*.md", "./src/keep.md", "!lib/**", "!"]

theorem selects_eq_lastWord_keeping :
    (∀ p ∈ keeping, ∃ hit, fits accepts "src/keep.md" (bare p) = .ok hit) ∧
      selects accepts "src/keep.md" keeping = .ok true ∧ TakenIn accepts "src/keep.md" keeping := by
  have htold : ∀ p ∈ keeping, ∃ hit, fits accepts "src/keep.md" (bare p) = .ok hit := by
    intro p hp
    have hall : ∀ p ∈ keeping, fits accepts "src/keep.md" (bare p) = .ok true ∨
        fits accepts "src/keep.md" (bare p) = .ok false := by
      decide
    rcases hall p hp with h | h
    · exact ⟨true, h⟩
    · exact ⟨false, h⟩
  obtain ⟨hselects, htaken⟩ := selects_eq_lastWord htold
  have hword : lastWord accepts "src/keep.md" false keeping = true := by decide
  rw [hword] at hselects
  exact ⟨htold, hselects, htaken.1 hselects⟩

end HtmlDeps.Glob
