import HtmlDeps.Proofs.Url.Contained
import HtmlDeps.Proofs.Url.Relative

/-!
# A path seen from a directory

Seen from a directory, a relative path first leaves as many directories as it has `..` that it cannot resolve
itself, and then goes down along its names (`Path.parts_normal_join`).  It stays below the directory where it
started if the names lead back through the directories left (`Path.stays`, `Path.stays_iff`).
-/

namespace HtmlDeps
namespace Path

variable {ps qs names : List Text} {root q : Path} {n : Nat}

/-! ### Parts on top of others -/

theorem resolveParts_resolveParts_append (ps qs : List Text) :
    resolveParts true (resolveParts true ps ++ qs) = resolveParts true (ps ++ qs) := by
  have hfold : (resolveParts true ps).foldl (push true) [] = ps.foldl (push true) [] := by
    rw [foldl_push_of_not_mem true (not_mem_resolveParts ps), resolveParts, List.reverse_reverse, List.append_nil]
  have happend := congrArg (fun st => qs.foldl (push true) st) hfold
  rw [← List.foldl_append, ← List.foldl_append] at happend
  exact congrArg List.reverse happend

/-- Each `..` leaves one directory. -/
theorem resolveParts_append_climb (hps : dotDot ∉ ps) (hnames : dotDot ∉ names) (n : Nat) :
    resolveParts true (ps ++ (List.replicate n dotDot ++ names)) = ps.take (ps.length - n) ++ names := by
  induction n generalizing ps with
  | zero =>
    rw [List.replicate_zero, List.nil_append, Nat.sub_zero, List.take_length]
    refine resolveParts_eq_self true fun hmem => ?_
    exact (List.mem_append.1 hmem).elim hps hnames
  | succ n ih =>
    rcases List.eq_nil_or_concat ps with rfl | ⟨ps, p, rfl⟩
    · rw [List.nil_append, resolveParts_climb_root hnames, List.take_nil, List.nil_append]
    · rw [List.concat_eq_append, List.mem_append, not_or] at hps
      have hp : p ≠ dotDot := fun heq => hps.2 (heq ▸ List.mem_cons_self)
      have hback : resolveParts true (ps ++ [p] ++ (List.replicate (n + 1) dotDot ++ names)) =
          resolveParts true (ps ++ (List.replicate n dotDot ++ names)) := by
        rw [List.replicate_succ, resolveParts, resolveParts]
        simp [push, climb, hp]
      rw [List.concat_eq_append, hback, ih hps.1, List.length_append, List.length_singleton,
        Nat.add_sub_add_right, List.take_append_of_le_length (Nat.sub_le _ _)]

/-! ### Relative paths on top of a plain one -/

theorem parts_join (hroot : root.isAbsolute) (hq : q.isAbsolute = false) :
    (root.join q).normal.parts = resolveParts true (root.parts ++ q.parts) := by
  rw [join, hq, if_neg Bool.false_ne_true, normal]
  rw [show (Path.mk root.anchor (root.parts ++ q.parts)).isAbsolute = true from hroot]

/-- A relative path can be brought to normal form before it is seen from a directory. -/
theorem parts_normal_join (hroot : root.Plain) (hq : q.isAbsolute = false) :
    (root.join q).normal.parts = resolveParts true (root.parts ++ q.normal.parts) := by
  rw [← normal_join_normal, parts_join hroot.absolute (q := q.normal) hq]

/-- Whether a path does not lead out of a directory.  A relative one may leave directories, but only if it leads
back into them. -/
def stays (root q : Path) : Bool :=
  let ps := q.normal.parts
  if q.isAbsolute then root.parts.isPrefixOf ps
  else (root.parts.drop (root.parts.length - (ps.takeWhile (· = dotDot)).length)).isPrefixOf
    (ps.dropWhile (· = dotDot))

theorem takeWhile_climb (hnames : dotDot ∉ names) (n : Nat) :
    (List.replicate n dotDot ++ names).takeWhile (· = dotDot) = List.replicate n dotDot := by
  induction n with
  | zero =>
    cases names with
    | nil => rfl
    | cons m names =>
      refine List.takeWhile_cons_of_neg fun hm => hnames ?_
      exact of_decide_eq_true hm ▸ List.mem_cons_self
  | succ n ih =>
    rw [List.replicate_succ, List.cons_append, List.takeWhile_cons, ih]
    simp

theorem dropWhile_climb (hnames : dotDot ∉ names) (n : Nat) :
    (List.replicate n dotDot ++ names).dropWhile (· = dotDot) = names := by
  have happend := List.takeWhile_append_dropWhile (p := (· = dotDot)) (l := List.replicate n dotDot ++ names)
  rw [takeWhile_climb hnames] at happend
  exact List.append_cancel_left happend

theorem prefix_climb_iff (n : Nat) :
    ps <+: ps.take (ps.length - n) ++ names ↔ ps.drop (ps.length - n) <+: names := by
  have happend : ps.take (ps.length - n) ++ ps.drop (ps.length - n) <+: ps.take (ps.length - n) ++ names ↔
      ps.drop (ps.length - n) <+: names := List.prefix_append_right_inj _
  rwa [List.take_append_drop] at happend

/-- Such a path has its place below the directory. -/
theorem stays_iff (hroot : root.Plain) : root.stays q ↔ root.parts <+: (root.join q).normal.parts := by
  unfold stays
  cases hq : q.isAbsolute with
  | true => rw [if_pos rfl, List.isPrefixOf_iff_prefix, join, if_pos hq]
  | false =>
    obtain ⟨n, names, hparts, hnames⟩ : Settled false q.normal.parts := by
      rw [normal, hq]
      exact settled_resolveParts false _
    rw [if_neg Bool.false_ne_true, parts_normal_join hroot hq, hparts,
      resolveParts_append_climb hroot.settled hnames, prefix_climb_iff, takeWhile_climb hnames,
      dropWhile_climb hnames, List.length_replicate, List.isPrefixOf_iff_prefix]

end Path
end HtmlDeps
