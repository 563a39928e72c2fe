import Mathlib.Data.List.Induction
import HtmlDeps.Proofs.Split.Stream
import HtmlDeps.Proofs.Url.Literal

/-!
# URLs stay below the root

A URL is read as a walk that begins at the root of a project (`Url.walk`): each name leads down, each `..`
back up, and at the root there is no way up.  So the path of a URL is the root or lies below it, whatever
the root looks like, and the URL of that path spells where the walk has come to (`Path.contained_ofUrl`).

This is `path_from_url`, which anchors a URL so that “`..` segments can never climb above `root`”.
-/

namespace HtmlDeps

namespace Url

/-- Where segments lead, from a place that is given by the names down to it. -/
def walk (place : List Text) : List Text → List Text
  | [] => place
  | s :: rest =>
    if s = [] ∨ s = Path.dot then walk place rest
    else if s = Path.dotDot then walk place.dropLast rest
    else walk (place ++ [s]) rest

/-- The walk along a URL, from the root. -/
def walked (url : Text) : List Text := walk [] (Text.split (.char '/') (Percent.decode url))

end Url

namespace Path

open Url

variable {anchored : Bool} {root cwd p q : Path} {names ps qs st : List Text} {n url : Text}

/-! ### Walking is resolving -/

theorem push_dotDot {top : Text} (htop : top ≠ dotDot) : push anchored (top :: st) dotDot = st := by
  simp [push, climb, htop]

theorem foldl_push_eq_walk (hst : dotDot ∉ st) (ss : List Text) :
    (ss.filter fun s => s ≠ [] && s ≠ dot).foldl (push true) st = (walk st.reverse ss).reverse := by
  induction ss generalizing st with
  | nil => simp [walk]
  | cons s ss ih =>
    by_cases hskip : s = [] ∨ s = dot
    · rw [List.filter_cons_of_neg (by simpa [or_iff_not_imp_left] using hskip), walk, if_pos hskip]
      exact ih hst
    · have hkept : s ≠ [] ∧ s ≠ dot := not_or.1 hskip
      rw [List.filter_cons_of_pos (by simp [hkept]), List.foldl_cons, walk, if_neg hskip]
      by_cases hup : s = dotDot
      · subst hup
        rw [if_pos rfl]
        cases st with
        | nil =>
          have hnone : dotDot ∉ ([] : List Text) := List.not_mem_nil
          exact ih hnone
        | cons top st =>
          rw [List.mem_cons, not_or] at hst
          rw [push_dotDot (Ne.symm hst.1), ih hst.2, List.reverse_cons, List.dropLast_concat]
      · have hnext : dotDot ∉ s :: st := by
          rw [List.mem_cons, not_or]
          exact ⟨Ne.symm hup, hst⟩
        rw [if_neg hup, push, if_neg hup, ih hnext, List.reverse_cons]

theorem mem_of_mem_walk {ss : List Text} (h : n ∈ walk names ss) :
    n ∈ names ∨ n ∈ ss ∧ n ≠ [] ∧ n ≠ dot ∧ n ≠ dotDot := by
  induction ss generalizing names with
  | nil => exact .inl h
  | cons s ss ih =>
    have hlater : n ∈ ss ∧ n ≠ [] ∧ n ≠ dot ∧ n ≠ dotDot → n ∈ s :: ss ∧ n ≠ [] ∧ n ≠ dot ∧ n ≠ dotDot :=
      fun hn => ⟨List.mem_cons_of_mem s hn.1, hn.2⟩
    rw [walk] at h
    split at h
    · exact (ih h).imp_right hlater
    · rename_i hskip
      split at h
      · exact (ih h).imp (fun hn => (List.dropLast_sublist names).subset hn) hlater
      · rename_i hup
        rcases ih h with hn | hn
        · rcases List.mem_append.1 hn with hn | hn
          · exact .inl hn
          · rw [List.mem_singleton] at hn
            subst hn
            rw [not_or] at hskip
            exact .inr ⟨List.mem_cons_self, hskip.1, hskip.2, hup⟩
        · exact .inr (hlater hn)

/-- What a walk passes are names. -/
theorem name_of_mem_walked (h : n ∈ walked url) : Name n ∧ n ≠ dot := by
  rcases mem_of_mem_walk h with hn | ⟨hn, hnil, hdot, hup⟩
  · cases hn
  · exact ⟨⟨hnil, hup, Text.not_mem_of_mem_split hn⟩, hdot⟩

theorem segments_eq_walked (url : Text) : segments url = walked url := by
  have habsolute : (ofText (.char '/' :: Percent.decode url)).isAbsolute = true :=
    decide_eq_true (anchorOf_slash_ne _)
  rw [segments, normal, habsolute]
  dsimp only [ofText]
  rw [partsOf_slash, resolveParts, partsOf, foldl_push_eq_walk List.not_mem_nil, List.reverse_reverse]
  rfl

/-! ### Paths seen from a directory -/

/-- It makes no difference whether the parts of a relative path are resolved first. -/
theorem foldl_push_resolveParts (st qs : List Text) :
    (resolveParts false qs).foldl (push anchored) st = qs.foldl (push anchored) st := by
  unfold resolveParts
  induction qs using List.reverseRecOn with
  | nil => rfl
  | append_singleton qs q ih =>
    rw [List.foldl_append, List.foldl_append, ← ih]
    generalize qs.foldl (push false) [] = done
    by_cases hq : q = dotDot
    · cases done with
      | nil => simp [push, hq, climb]
      | cons top done =>
        by_cases htop : top = dotDot
        · simp [push, hq, htop, climb]
        · simp [push, hq, htop, climb]
    · simp [push, hq]

theorem resolveParts_append_resolveParts (ps qs : List Text) :
    resolveParts anchored (ps ++ resolveParts false qs) = resolveParts anchored (ps ++ qs) := by
  have hfold : (resolveParts false qs).foldl (push anchored) (ps.foldl (push anchored) []) =
      qs.foldl (push anchored) (ps.foldl (push anchored) []) := foldl_push_resolveParts _ _
  rw [← List.foldl_append, ← List.foldl_append] at hfold
  exact congrArg List.reverse hfold

theorem resolveParts_resolveParts (ps : List Text) :
    resolveParts anchored (resolveParts anchored ps) = resolveParts anchored ps := by
  cases anchored with
  | true => exact resolveParts_eq_self true (not_mem_resolveParts ps)
  | false => exact resolveParts_append_resolveParts [] ps

theorem normal_normal (p : Path) : p.normal.normal = p.normal :=
  congrArg (Path.mk p.anchor) (resolveParts_resolveParts p.parts)

/-- A path may be normalized before it is looked at from a directory. -/
theorem normal_join_normal (cwd p : Path) : (cwd.join p.normal).normal = (cwd.join p).normal := by
  have hsame : p.normal.isAbsolute = p.isAbsolute := rfl
  unfold join
  rw [hsame]
  split
  · exact normal_normal p
  · rename_i hrelative
    rw [Bool.not_eq_true] at hrelative
    simp only [normal, hrelative]
    exact congrArg (Path.mk cwd.anchor) (resolveParts_append_resolveParts cwd.parts p.parts)

theorem absolute_eq (p cwd : Path) : p.absolute cwd = (cwd.join p).normal := normal_join_normal cwd p

theorem join_extend (cwd p : Path) (names : List Text) : cwd.join (p.extend names) = (cwd.join p).extend names := by
  have hsame : (p.extend names).isAbsolute = p.isAbsolute := rfl
  unfold join
  rw [hsame]
  split
  · rfl
  · simp [extend]

theorem absolute_extend (h : ∀ n ∈ names, Name n) :
    (p.extend names).absolute cwd = (p.absolute cwd).extend names := by
  rw [absolute_eq, join_extend, normal_extend_names h, absolute_eq]

/-- The URL of a path below the root spells the names down to it. -/
theorem url_below (h : ∀ n ∈ names, Name n) :
    Url.ofPath cwd root (root.normal.extend names) = .ok (Text.join "/" names) := by
  have hroot : root.normal.absolute cwd = root.absolute cwd := by
    rw [absolute_eq, normal_join_normal, absolute_eq]
  have hparts : ((root.normal.extend names).absolute cwd).parts = (root.absolute cwd).parts ++ names := by
    rw [absolute_extend h, hroot]
    rfl
  rw [Url.ofPath, hparts, if_pos]
  · simp
  · simp

/-! ### The path of a URL -/

/-- **No URL leads out of the root.**  The path of a URL is the resolved root with the names that the walk along
the URL ends with, and its own URL spells these names. -/
theorem contained_ofUrl (cwd root : Path) (url : Text) :
    Path.ofUrl root url = root.normal.extend (walked url) ∧ (∀ n ∈ walked url, Name n ∧ n ≠ dot) ∧
      Url.ofPath cwd root (Path.ofUrl root url) = .ok (Text.join "/" (walked url)) := by
  have hnames : ∀ n ∈ walked url, Name n := fun _ hn => (name_of_mem_walked hn).1
  have hpath : Path.ofUrl root url = root.normal.extend (walked url) := by
    rw [Path.ofUrl, segments_eq_walked, normal_extend_names hnames]
  refine ⟨hpath, fun _ hn => name_of_mem_walked hn, ?_⟩
  rw [hpath]
  exact url_below hnames

-- a relative root, and a URL that climbs, with escapes
example : Path.ofUrl "app/../pages" "../%2e%2E/./a%2fb//../c" = "pages/a/c" := by decide

end Path
end HtmlDeps
