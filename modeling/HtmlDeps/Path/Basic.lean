import HtmlDeps.Text.Case

/-!
# File paths

A path is an anchor and a list of parts.  `ofText` reads it from a text: empty parts and the part
`.` vanish, `..` stays, and exactly two leading slashes are an anchor of their own.  `normal` also
resolves `..`: each one removes the part before it, nothing at an anchor, and stays at the start of
a relative path.

Main statement: in what `resolveParts` gives no `..` is left that could be resolved
(`settled_resolveParts`).

These are the paths of the program, and `logical_path` (full specification, section Path/URL Mapper).
-/

namespace HtmlDeps

/-- Where a path starts. -/
inductive Anchor where
  | here        -- at the working directory
  | root        -- at the root, `/`
  | doubleRoot  -- at `//`, which stays apart from `/`
deriving DecidableEq, Repr, Inhabited

def Anchor.toText : Anchor → Text
  | .here => []
  | .root => "/"
  | .doubleRoot => "//"

/-- A file path. -/
structure Path where
  anchor : Anchor
  parts : List Text
deriving DecidableEq, Repr, Inhabited

namespace Path

def dot : Text := [.char '.']

def dotDot : Text := [.char '.', .char '.']

def anchorOf : Text → Anchor
  | .char '/' :: .char '/' :: .char '/' :: _ => .root
  | .char '/' :: .char '/' :: _ => .doubleRoot
  | .char '/' :: _ => .root
  | _ => .here

/-- The parts of a text between slashes, without the empty ones and `.`. -/
def partsOf (t : Text) : List Text :=
  (Text.split (.char '/') t).filter fun p => p ≠ [] && p ≠ dot

def ofText (t : Text) : Path := ⟨anchorOf t, partsOf t⟩

instance : Coe String Path := ⟨fun s => ofText (Text.ofString s)⟩

/-- Writes a path; the path without anchor and parts is `.`. -/
def toText (p : Path) : Text :=
  match p.anchor, p.parts with
  | .here, [] => dot
  | a, ps => a.toText ++ Text.join "/" ps

def isAbsolute (p : Path) : Bool := p.anchor ≠ .here

/-- The path `q` seen from `p`. -/
def join (p q : Path) : Path :=
  if q.isAbsolute then q else ⟨p.anchor, p.parts ++ q.parts⟩

def extend (p : Path) (ps : List Text) : Path := ⟨p.anchor, p.parts ++ ps⟩

def parent (p : Path) : Path := ⟨p.anchor, p.parts.dropLast⟩

/-- The last part of a path, empty if there is none. -/
def name (p : Path) : Text := p.parts.getLast?.getD []

/-- The glyph that the system takes in no path. -/
def nul : Glyph := .char (Char.ofNat 0)

/-- Whether a path is none for the system. -/
def hasNul (p : Path) : Bool := p.parts.any (·.contains nul)

/-- The path with another last part. -/
def withName (p : Path) (n : Text) : Path := ⟨p.anchor, p.parts.dropLast ++ [n]⟩

/-- The end of the name from its last dot on, if that dot is neither first nor last. -/
def suffix (p : Path) : Text :=
  match Text.cutLast? (· == .char '.') p.name with
  | some (_ :: _, x :: xs) => .char '.' :: x :: xs
  | _ => []

/-! ### Resolving `..` -/

/-- Lets `..` act on the parts already resolved, the last of them first. -/
def climb (anchored : Bool) : List Text → List Text
  | [] => if anchored then [] else [dotDot]
  | top :: rest => if top = dotDot then dotDot :: top :: rest else rest

/-- Puts one part on the parts already resolved, the last of them first.  `anchored` says whether
the path starts at a root. -/
def push (anchored : Bool) (st : List Text) (p : Text) : List Text :=
  if p = dotDot then climb anchored st else p :: st

/-- The parts with every `..` resolved that can be. -/
def resolveParts (anchored : Bool) (ps : List Text) : List Text :=
  (ps.foldl (push anchored) []).reverse

/-- The path with every `..` resolved that can be. -/
def normal (p : Path) : Path := ⟨p.anchor, resolveParts p.isAbsolute p.parts⟩

def normalText (t : Text) : Text := (ofText t).normal.toText

/-- The normal form of `p` as seen from the directory `cwd`. -/
def absolute (p cwd : Path) : Path := (cwd.join p.normal).normal

/-- The text of `p` in normal form, with backslashes read as slashes.  Two spellings of one path
that differ in their separators have the same logical form. -/
def logical (t : Text) : Text := normalText (t.replace (.char '\\') (.char '/'))

/-- What leads from `base` to `p`, if `p` starts with `base`. -/
def from? (base p : Path) : Option (List Text) :=
  if base.anchor = .here && base.parts.isEmpty then
    if p.isAbsolute then none else some p.parts
  else if base.anchor = p.anchor && base.parts.isPrefixOf p.parts then
    some (p.parts.drop base.parts.length)
  else none

def partsLe : List Text → List Text → Bool
  | [], _ => true
  | _ :: _, [] => false
  | p :: ps, q :: qs => if p = q then partsLe ps qs else Text.le p q

/-! ### What resolving leaves -/

/-- Parts in which no `..` can be resolved: at a root none is left, elsewhere they stand first. -/
def Settled (anchored : Bool) (ps : List Text) : Prop :=
  if anchored then dotDot ∉ ps
  else ∃ n qs, ps = List.replicate n dotDot ++ qs ∧ dotDot ∉ qs

theorem climb_settled {anchored : Bool} {st : List Text} (h : Settled anchored st.reverse) :
    Settled anchored (climb anchored st).reverse := by
  cases anchored with
  | true =>
    simp only [Settled, ↓reduceIte, List.mem_reverse] at h ⊢
    cases st with
    | nil => simp [climb]
    | cons top rest =>
      simp only [List.mem_cons, not_or] at h
      simp [climb, Ne.symm h.1, h.2]
  | false =>
    simp only [Settled, Bool.false_eq_true, ↓reduceIte] at h ⊢
    obtain ⟨n, qs, hst, hqs⟩ := h
    cases st with
    | nil => exact ⟨1, [], by simp [climb]⟩
    | cons top rest =>
      simp only [List.reverse_cons] at hst
      by_cases htop : top = dotDot
      · have hq : qs = [] := by
          rcases List.eq_nil_or_concat qs with rfl | ⟨qs', x, rfl⟩
          · rfl
          · rw [List.concat_eq_append, ← List.append_assoc] at hst
            have hx := List.append_inj_right' hst rfl
            simp only [List.cons.injEq, and_true] at hx
            simp [← hx, htop] at hqs
        refine ⟨n + 1, [], ?_, by simp⟩
        rw [hq, List.append_nil, htop] at hst
        rw [climb, if_pos htop, htop, List.reverse_cons, List.reverse_cons, hst, List.append_nil,
          List.replicate_succ']
      · rcases List.eq_nil_or_concat qs with rfl | ⟨qs', x, rfl⟩
        · exfalso
          cases n with
          | zero => simp at hst
          | succ n =>
            rw [List.append_nil, List.replicate_succ'] at hst
            have hx := List.append_inj_right' hst rfl
            simp only [List.cons.injEq, and_true] at hx
            exact htop hx
        · rw [List.concat_eq_append, ← List.append_assoc] at hst
          refine ⟨n, qs', ?_, ?_⟩
          · simpa [climb, htop] using List.append_inj_left' hst rfl
          · simp only [List.concat_eq_append, List.mem_append, not_or] at hqs
            exact hqs.1

theorem push_settled {anchored : Bool} {st : List Text} {p : Text}
    (h : Settled anchored st.reverse) : Settled anchored (push anchored st p).reverse := by
  by_cases hp : p = dotDot
  · simpa [push, hp] using climb_settled h
  · simp only [push, hp, ↓reduceIte, List.reverse_cons]
    cases anchored with
    | true =>
      simp only [Settled, ↓reduceIte, List.mem_append, List.mem_singleton, not_or] at h ⊢
      exact ⟨h, Ne.symm hp⟩
    | false =>
      simp only [Settled, Bool.false_eq_true, ↓reduceIte] at h ⊢
      obtain ⟨n, qs, hst, hqs⟩ := h
      refine ⟨n, qs ++ [p], by simp [hst], ?_⟩
      simp [hqs, Ne.symm hp]

theorem settled_resolveParts (anchored : Bool) (ps : List Text) :
    Settled anchored (resolveParts anchored ps) := by
  have key : ∀ st : List Text, Settled anchored st.reverse →
      Settled anchored (ps.foldl (push anchored) st).reverse := by
    induction ps with
    | nil => exact fun st h => h
    | cons p ps ih => exact fun st h => ih _ (push_settled h)
  refine key [] ?_
  cases anchored with
  | true => simp [Settled]
  | false => exact ⟨0, [], by simp⟩

end Path
end HtmlDeps
