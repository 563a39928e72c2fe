import HtmlDeps.Proofs.Path.Written
import Mathlib.Data.List.Basic

/-!
# The names of scripts do not meet

The key of a script ends with its number, and what stands in front of that tells the directory and the last
name of the document before anything of that name is resolved (`Path.normal_eq_of_tail`).  So the key of a
script tells the key of its document and the number, whatever the document is called, and it is never the
key of a document.

The names are made by `synthetic_path`, the keys by `logical_path`, and documents are what `is_html`
accepts.
-/

namespace HtmlDeps

namespace Text

theorem ofInt_injective {m n : Int} (h : ofInt m = ofInt n) : m = n := by
  have hminus : ∀ k r, ofNat k ≠ .char '-' :: r := by
    intro k r hk
    have hdigit := isDigit_of_mem_ofNat (hk ▸ List.mem_cons_self)
    exact absurd hdigit (by decide)
  cases m with
  | ofNat m =>
    cases n with
    | ofNat n => exact congrArg _ (ofNat_injective h)
    | negSucc n => exact absurd h (hminus m _)
  | negSucc m =>
    cases n with
    | ofNat n => exact absurd h.symm (hminus n _)
    | negSucc n =>
      have hsucc := ofNat_injective (List.cons.inj h).2
      omega

/-- A text is told apart at the last glyph of a kind. -/
theorem append_cons_inj {g : Glyph} {a a' b b' : Text} (h : a ++ g :: b = a' ++ g :: b') (hb : g ∉ b)
    (hb' : g ∉ b') : b = b' := by
  rcases List.append_eq_append_iff.1 h with ⟨z, -, hz⟩ | ⟨z, -, hz⟩
  · cases z with
    | nil => exact (List.cons.inj hz).2
    | cons x z =>
      refine absurd ?_ hb
      rw [(List.cons.inj hz).2]
      simp
  · cases z with
    | nil => exact ((List.cons.inj hz).2).symm
    | cons x z =>
      refine absurd ?_ hb'
      rw [(List.cons.inj hz).2]
      simp

end Text

namespace Path

variable {c d p q h : Path} {t u x y : Text} {i j : Int}

/-! ### The end of a script's name -/

theorem append_scriptTail_inj (heq : x ++ scriptTail i = y ++ scriptTail j) : x = y ∧ i = j := by
  -- a text that is left over between the two numbers would end with the `_` of an ending
  have overlap : ∀ {x y z : Text} {k : Int}, x ++ "_script_" = y ++ "_script_" ++ z →
      (∀ g ∈ z, g ∈ Text.ofInt k) → z = [] := by
    intro x y z k hxy hz
    by_contra hne
    have hlast := congrArg (·.getLast?) hxy
    have hend : (x ++ Text.ofString "_script_").getLast? = some (.char '_') := by
      rw [List.getLast?_append]
      rfl
    simp only [hend, List.getLast?_append_of_ne_nil _ hne] at hlast
    rcases Text.mem_ofInt (hz _ (List.mem_of_getLast? hlast.symm)) with hminus | hdigit
    · exact absurd hminus (by decide)
    · exact absurd hdigit (by decide)
  simp only [scriptTail, ← List.append_assoc] at heq
  rw [List.append_left_inj] at heq
  rcases List.append_eq_append_iff.1 heq with ⟨z, hy, hi⟩ | ⟨z, hx, hj⟩
  · obtain rfl := overlap hy (k := i) fun g hg => hi ▸ List.mem_append_left _ hg
    rw [List.append_nil, List.append_left_inj] at hy
    exact ⟨hy.symm, Text.ofInt_injective hi⟩
  · obtain rfl := overlap hx (k := j) fun g hg => hj ▸ List.mem_append_left _ hg
    rw [List.append_nil, List.append_left_inj] at hx
    exact ⟨hx, (Text.ofInt_injective hj).symm⟩

theorem append_scriptEnding_inj {m n : Nat} (heq : x ++ scriptEnding m = y ++ scriptEnding n) : x = y ∧ m = n :=
  (append_scriptTail_inj heq).imp_right Int.ofNat.inj

/-- With the end of a script a piece is a name, whatever it was before. -/
theorem proper_append_scriptTail (x : Text) (i : Int) :
    x ++ scriptTail i ≠ [] ∧ x ++ scriptTail i ≠ dot ∧ x ++ scriptTail i ≠ dotDot := by
  have hmem : Glyph.char '_' ∈ x ++ scriptTail i := by
    refine List.mem_append_right _ (List.mem_append_left _ (List.mem_append_left _ ?_))
    decide
  refine ⟨List.ne_nil_of_mem hmem, ?_, ?_⟩
  · intro heq
    rw [heq] at hmem
    exact absurd hmem (by decide)
  · intro heq
    rw [heq] at hmem
    exact absurd hmem (by decide)

/-! ### What resolving makes of it -/

/-- Whether a piece of a text is a part of a path. -/
def isKept (n : Text) : Bool := n ≠ [] && n ≠ dot

theorem resolveParts_kept_concat (anchored : Bool) (ps : List Text) (x : Text) :
    resolveParts anchored ((ps ++ [x]).filter isKept) =
      if isKept x then (push anchored (resolveParts anchored (ps.filter isKept)).reverse x).reverse
      else resolveParts anchored (ps.filter isKept) := by
  rw [List.filter_append]
  by_cases hx : isKept x
  · simp [resolveParts, hx]
  · simp [hx]

theorem split_append_scriptTail {ps : List Text} (hsplit : Text.split (.char '/') t = ps ++ [x]) (i : Int) :
    Text.split (.char '/') (t ++ scriptTail i) = ps ++ [x ++ scriptTail i] := by
  obtain ⟨qs, y, hsplit', happend⟩ := Text.split_append_of_not_mem (not_mem_scriptTail (.inl rfl) i) t
  rw [hsplit] at hsplit'
  obtain ⟨rfl, hx⟩ := List.append_inj' hsplit' rfl
  rw [happend, (List.cons.inj hx).1]

theorem exists_split (t : Text) : ∃ ps x, Text.split (.char '/') t = ps ++ [x] :=
  ⟨_, _, (List.dropLast_append_getLast (Text.split_ne_nil (.char '/') t)).symm⟩

/-- Resolving leaves the last name of a script alone. -/
theorem normal_append_scriptTail {ps : List Text} (hsplit : Text.split (.char '/') t = ps ++ [x]) (i : Int) :
    (ofText (t ++ scriptTail i)).normal =
      ⟨anchorOf t, resolveParts (anchorOf t ≠ .here) (ps.filter isKept) ++ [x ++ scriptTail i]⟩ := by
  obtain ⟨hne, hdot, hdots⟩ := proper_append_scriptTail x i
  have hanchor : anchorOf (t ++ scriptTail i) = anchorOf t := by
    refine anchorOf_append ?_ t
    rintro r hr
    exact not_mem_scriptTail (.inl rfl) i (hr ▸ List.mem_cons_self)
  have hkept : isKept (x ++ scriptTail i) := by simp [isKept, hne, hdot]
  have hparts : partsOf (t ++ scriptTail i) = ps.filter isKept ++ [x ++ scriptTail i] := by
    change (Text.split (.char '/') (t ++ scriptTail i)).filter isKept = _
    rw [split_append_scriptTail hsplit, List.filter_append, List.filter_cons_of_pos hkept, List.filter_nil]
  simp only [ofText, normal, isAbsolute, hanchor, hparts]
  rw [resolveParts_concat _ _ hdots]

/-- Where the texts of two scripts resolve to one path, those of their documents do. -/
theorem normal_eq_of_tail
    (heq : (ofText (t ++ scriptTail i)).normal = (ofText (u ++ scriptTail j)).normal) :
    (ofText t).normal = (ofText u).normal ∧ i = j := by
  obtain ⟨ps, x, ht⟩ := exists_split t
  obtain ⟨qs, y, hu⟩ := exists_split u
  rw [normal_append_scriptTail ht, normal_append_scriptTail hu, Path.mk.injEq] at heq
  obtain ⟨hanchor, hparts⟩ := heq
  obtain ⟨hdir, hname⟩ := List.append_inj' hparts rfl
  obtain ⟨rfl, rfl⟩ := append_scriptTail_inj (List.cons.inj hname).1
  refine ⟨?_, rfl⟩
  have hnormal : ∀ {v : Text} {rs : List Text}, Text.split (.char '/') v = rs ++ [x] →
      (ofText v).normal = ⟨anchorOf v, resolveParts (anchorOf v ≠ .here) ((rs ++ [x]).filter isKept)⟩ := by
    intro v rs hv
    rw [← hv]
    rfl
  rw [hnormal ht, hnormal hu, resolveParts_kept_concat, resolveParts_kept_concat, hdir, hanchor]

theorem written_normal (t : Text) : (ofText t).normal.Written :=
  fun n hn => written_ofText t n (mem_of_mem_resolveParts hn)

theorem key_script_inj (hp : c.script i = .ok p) (hq : d.script j = .ok q) (heq : p.key = q.key) :
    c.key = d.key ∧ i = j := by
  rw [key_eq_of_script hp, key_eq_of_script hq] at heq
  have hnormal := (written_normal _).eq_of_toText_eq (written_normal _) heq
  obtain ⟨hdocuments, hnumber⟩ := normal_eq_of_tail hnormal
  exact ⟨congrArg toText hdocuments, hnumber⟩

/-! ### Scripts and documents -/

/-- A script's text resolves to no document. -/
theorem key_script_ne (hp : c.script i = .ok p) (hh : h.isHtml) : p.key ≠ h.key := by
  intro heq
  rw [key_eq_of_script hp] at heq
  have hnormal := (written_normal _).eq_of_toText_eq (written_normal _) heq
  obtain ⟨ps, x, hsplit⟩ := exists_split (c.toText.replace (.char '\\') (.char '/'))
  obtain ⟨qs, y, ext, hpieces, hsuffix, hne, hdot⟩ := exists_split_of_isHtml hh
  obtain ⟨hy, hydot, hydots⟩ := proper_of_extension hne hdot y
  have hparts := congrArg Path.parts hnormal
  rw [normal_append_scriptTail hsplit] at hparts
  have hkept : isKept (y ++ .char '.' :: ext) := by simp [isKept, hydot]
  have hdocument : partsOf (h.toText.replace (.char '\\') (.char '/')) =
      qs.filter isKept ++ [y ++ .char '.' :: ext] := by
    change (Text.split (.char '/') _).filter isKept = _
    rw [hpieces, List.filter_append, List.filter_cons_of_pos hkept, List.filter_nil]
  simp only [ofText, normal, hdocument] at hparts
  rw [resolveParts_concat _ _ hydots] at hparts
  obtain ⟨-, hname⟩ := List.append_inj' hparts rfl
  have hends : (x ++ Text.ofString "_script_" ++ Text.ofInt i) ++ Glyph.char '.' :: Text.ofString "js" =
      y ++ .char '.' :: ext := by
    rw [← (List.cons.inj hname).1, scriptTail]
    simp only [List.append_assoc]
    rfl
  have hext : Text.ofString "js" = ext := Text.append_cons_inj hends (by decide) hdot
  rw [isHtml, hsuffix, ← hext] at hh
  exact absurd hh (by decide)

/-- **Keys of scripts are told apart.**  The key of a script tells the key of the document and the number,
and it is never that of a document. -/
theorem script_keys_apart (c p : Path) (i : Int) (hp : c.script i = .ok p) :
    (∀ (d q : Path) (j : Int), d.script j = .ok q → p.key = q.key → c.key = d.key ∧ i = j) ∧
      ∀ h : Path, h.isHtml → p.key ≠ h.key :=
  ⟨fun _ _ _ hq heq => key_script_inj hp hq heq, fun _ hh => key_script_ne hp hh⟩

/-- Two spellings of one document, and a document that is called like one of its scripts. -/
theorem script_keys_apart_spellings :
    (("a/b/../x.html" : Path).script (-1) = .ok ("a/b/../x.html_script_-1.js" : Path) ∧
      ("a\\x.html" : Path).script (-1) = .ok ("a\\x.html_script_-1.js" : Path) ∧
      ("a/b/../x.html_script_-1.js" : Path).key = ("a\\x.html_script_-1.js" : Path).key) ∧
    (("a/b/../x.html" : Path).key = ("a\\x.html" : Path).key ∧ (-1 : Int) = -1) ∧
    ("a/b/../x.html_script_-1.js" : Path).key ≠ ("a/x.html_script_-1.js.htm" : Path).key := by
  have hp : ("a/b/../x.html" : Path).script (-1) = .ok ("a/b/../x.html_script_-1.js" : Path) := by decide
  have hq : ("a\\x.html" : Path).script (-1) = .ok ("a\\x.html_script_-1.js" : Path) := by decide
  have hsame : ("a/b/../x.html_script_-1.js" : Path).key = ("a\\x.html_script_-1.js" : Path).key := by decide
  obtain ⟨hscripts, hdocuments⟩ := script_keys_apart _ _ _ hp
  exact ⟨⟨hp, hq, hsame⟩, hscripts _ _ _ hq hsame,
    hdocuments "a/x.html_script_-1.js.htm" (by decide)⟩

end Path
end HtmlDeps
