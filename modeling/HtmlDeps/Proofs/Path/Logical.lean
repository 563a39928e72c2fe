import Mathlib.Data.List.TakeWhile
import HtmlDeps.Split.Ledger

/-!
# The logical forms of a document and its scripts

The path of a script is the path of its document with more at the end.  Resolving leaves that end
alone (`Path.normalText_append`), so a script's key is the document's key with the same end
(`Path.key_script`).
-/

namespace HtmlDeps

namespace Text

theorem split_of_not_mem {g : Glyph} {t : Text} (h : g ∉ t) : split g t = [t] := by
  induction t with
  | nil => rfl
  | cons x r ih =>
    simp only [List.mem_cons, not_or] at h
    simp [split, Ne.symm h.1, ih h.2]

/-- A text without the separator only makes the last piece longer. -/
theorem split_append_of_not_mem {g : Glyph} {s : Text} (hs : g ∉ s) (t : Text) :
    ∃ ps x, split g t = ps ++ [x] ∧ split g (t ++ s) = ps ++ [x ++ s] := by
  induction t with
  | nil => exact ⟨[], [], rfl, by simp [split_of_not_mem hs]⟩
  | cons y r ih =>
    obtain ⟨ps, x, hr, hrs⟩ := ih
    by_cases hy : y = g
    · exact ⟨[] :: ps, x, by simp [split, hy, hr], by simp [split, hy, hrs]⟩
    · cases ps with
      | nil => exact ⟨[], y :: x, by simp [split, hy, hr], by simp [split, hy, hrs]⟩
      | cons p ps => exact ⟨(y :: p) :: ps, x, by simp [split, hy, hr], by simp [split, hy, hrs]⟩

theorem join_concat_append (sep : Text) (ps : List Text) (x s : Text) :
    join sep (ps ++ [x ++ s]) = join sep (ps ++ [x]) ++ s := by
  induction ps with
  | nil => simp [join, List.intercalate]
  | cons p ps ih =>
    cases ps with
    | nil => simp [join, List.intercalate]
    | cons q qs => simpa [join, List.intercalate] using ih

/-- A text is cut at the last glyph with the property. -/
theorem cutLast?_eq_some {p : Glyph → Bool} {t a b : Text} (h : cutLast? p t = some (a, b)) :
    ∃ g, p g ∧ t = a ++ g :: b ∧ ∀ x ∈ b, ¬ p x := by
  simp only [cutLast?] at h
  split at h
  · cases h
  · rename_i g before hdrop
    simp only [Option.some.injEq, Prod.mk.injEq] at h
    obtain ⟨rfl, rfl⟩ := h
    refine ⟨g, ?_, ?_, ?_⟩
    · have hg := List.head?_dropWhile_not (fun x => !p x) t.reverse
      rw [hdrop] at hg
      simpa using hg
    · have ht := List.takeWhile_append_dropWhile (p := fun x => !p x) (l := t.reverse)
      rw [hdrop] at ht
      have hrev := congrArg List.reverse ht
      rw [List.reverse_append, List.reverse_cons, List.reverse_reverse, List.append_assoc] at hrev
      exact hrev.symm
    · intro x hx
      rw [List.mem_reverse] at hx
      simpa using List.mem_takeWhile_imp hx

theorem isDigit_of_mem_ofNat {n : Nat} {g : Glyph} (h : g ∈ ofNat n) : g.isDigit := by
  simp only [ofNat, List.mem_map] at h
  obtain ⟨c, hc, rfl⟩ := h
  exact Nat.isDigit_of_mem_toDigits (by decide) (by decide) hc

theorem mem_ofInt {n : Int} {g : Glyph} (h : g ∈ ofInt n) : g = .char '-' ∨ g.isDigit := by
  cases n with
  | ofNat n => exact .inr (isDigit_of_mem_ofNat h)
  | negSucc n =>
    rcases List.mem_cons.1 h with h | h
    · exact .inl h
    · exact .inr (isDigit_of_mem_ofNat h)

theorem ofNat_injective {m n : Nat} (h : ofNat m = ofNat n) : m = n := by
  have hdigits : Nat.toDigits 10 m = Nat.toDigits 10 n :=
    (List.map_inj_right fun a b hab => Glyph.char.inj hab).1 h
  rw [← @Nat.ofDigitChars_ten_toDigits m, hdigits, Nat.ofDigitChars_ten_toDigits]

theorem replace_append (g h : Glyph) (s t : Text) :
    (s ++ t).replace g h = s.replace g h ++ t.replace g h := List.map_append

theorem replace_of_not_mem {g h : Glyph} {t : Text} (ht : g ∉ t) : t.replace g h = t := by
  have hmap : t.replace g h = t.map id := by
    refine List.map_congr_left fun x hx => if_neg ?_
    rintro rfl
    exact ht hx
  rw [hmap, List.map_id]

end Text

namespace Path

/-! ### Resolving leaves the end of a path alone -/

/-- The last piece of the text is the name of a file. -/
def Named (t : Text) : Prop :=
  ∃ ps x, Text.split (.char '/') t = ps ++ [x] ∧ x ≠ [] ∧ x ≠ dot ∧ x ≠ dotDot

theorem anchorOf_cons_of_ne {g : Glyph} (hg : g ≠ .char '/') (t : Text) :
    anchorOf (g :: t) = .here := by
  unfold anchorOf
  split <;> simp_all

theorem anchorOf_slash_of_ne {t : Text} (ht : ∀ r, t ≠ .char '/' :: r) :
    anchorOf (.char '/' :: t) = .root := by
  unfold anchorOf
  split <;> simp_all

theorem anchorOf_slash_slash_of_ne {t : Text} (ht : ∀ r, t ≠ .char '/' :: r) :
    anchorOf (.char '/' :: .char '/' :: t) = .doubleRoot := by
  unfold anchorOf
  split
  · simp_all
  · rfl
  · rename_i hne hcons
    exact absurd (List.cons.inj hcons).2.symm (hne _)
  · simp_all

/-- The anchor of a text is settled before something that is no slash. -/
theorem anchorOf_append {s : Text} (hs : ∀ r, s ≠ .char '/' :: r) (t : Text) :
    anchorOf (t ++ s) = anchorOf t := by
  have happend : ∀ t, (∀ r, t ≠ .char '/' :: r) → ∀ r, t ++ s ≠ .char '/' :: r := by
    intro t ht r h
    cases t with
    | nil => exact hs r h
    | cons x t => exact ht t (by rw [(List.cons.inj h).1])
  rcases Classical.em (∃ t₁, t = .char '/' :: t₁) with ⟨t₁, rfl⟩ | h₁
  · rcases Classical.em (∃ t₂, t₁ = .char '/' :: t₂) with ⟨t₂, rfl⟩ | h₂
    · rcases Classical.em (∃ t₃, t₂ = .char '/' :: t₃) with ⟨t₃, rfl⟩ | h₃
      · rfl
      · rw [not_exists] at h₃
        exact (anchorOf_slash_slash_of_ne (happend t₂ h₃)).trans
          (anchorOf_slash_slash_of_ne h₃).symm
    · rw [not_exists] at h₂
      exact (anchorOf_slash_of_ne (happend t₁ h₂)).trans (anchorOf_slash_of_ne h₂).symm
  · rw [not_exists] at h₁
    have hhere : ∀ u, (∀ r, u ≠ Glyph.char '/' :: r) → anchorOf u = .here := by
      intro u hu
      cases u with
      | nil => rfl
      | cons g u => exact anchorOf_cons_of_ne (fun h => hu u (by rw [h])) u
    exact (hhere _ (happend t h₁)).trans (hhere _ h₁).symm

/-- A name stays a name with more at its end. -/
theorem proper_append {x : Text} (hne : x ≠ []) (hdot : x ≠ dot) (hdots : x ≠ dotDot) (s : Text) :
    x ++ s ≠ [] ∧ x ++ s ≠ dot ∧ x ++ s ≠ dotDot := by
  refine ⟨?_, fun h => ?_, fun h => ?_⟩
  · simp [hne]
  · rcases List.append_eq_cons_iff.1 h with ⟨hx, -⟩ | ⟨y, rfl, hy⟩
    · exact hne hx
    · rw [eq_comm, List.append_eq_nil_iff] at hy
      exact hdot (by rw [hy.1]; rfl)
  · rcases List.append_eq_cons_iff.1 h with ⟨hx, -⟩ | ⟨y, rfl, hy⟩
    · exact hne hx
    · rcases List.append_eq_cons_iff.1 hy.symm with ⟨rfl, -⟩ | ⟨z, rfl, hz⟩
      · exact hdot rfl
      · rw [eq_comm, List.append_eq_nil_iff] at hz
        exact hdots (by rw [hz.1]; rfl)

theorem resolveParts_concat (anchored : Bool) (ps : List Text) {x : Text} (hx : x ≠ dotDot) :
    resolveParts anchored (ps ++ [x]) = resolveParts anchored ps ++ [x] := by
  simp [resolveParts, push, hx]

theorem toText_concat (a : Anchor) (ps : List Text) (x : Text) :
    toText ⟨a, ps ++ [x]⟩ = a.toText ++ Text.join "/" (ps ++ [x]) := by
  cases a <;> cases ps <;> rfl

/-- A name at the end of a text stays at the end. -/
theorem normalText_of_split {t x : Text} {ps : List Text}
    (hsplit : Text.split (.char '/') t = ps ++ [x]) (hne : x ≠ []) (hdot : x ≠ dot)
    (hdots : x ≠ dotDot) :
    normalText t = (anchorOf t).toText ++ Text.join "/"
      (resolveParts (anchorOf t ≠ .here) (ps.filter fun p => p ≠ [] && p ≠ dot) ++ [x]) := by
  have hparts : partsOf t = ps.filter (fun p => p ≠ [] && p ≠ dot) ++ [x] := by
    simp [partsOf, hsplit, hne, hdot]
  simp only [normalText, ofText, normal, hparts, isAbsolute]
  rw [resolveParts_concat _ _ hdots, toText_concat]

theorem normalText_append {t s : Text} (ht : Named t) (hs : .char '/' ∉ s) :
    normalText (t ++ s) = normalText t ++ s := by
  obtain ⟨ps, x, hsplit, hne, hdot, hdots⟩ := ht
  obtain ⟨ps', x', hsplit', happend⟩ := Text.split_append_of_not_mem hs t
  rw [hsplit] at hsplit'
  obtain ⟨rfl, hx⟩ := List.append_inj' hsplit' rfl
  obtain rfl := (List.cons.inj hx).1
  obtain ⟨hne', hdot', hdots'⟩ := proper_append hne hdot hdots s
  have hanchor : anchorOf (t ++ s) = anchorOf t := by
    refine anchorOf_append ?_ t
    rintro r rfl
    exact hs List.mem_cons_self
  rw [normalText_of_split happend hne' hdot' hdots',
    normalText_of_split hsplit hne hdot hdots, hanchor, Text.join_concat_append,
    List.append_assoc]

/-! ### Documents and their scripts -/

/-- What the path of a script has after the path of its document. -/
def scriptEnding (index : Nat) : Text := "_script_" ++ Text.ofNat index ++ ".js"

/-- The name of a document has an extension without slashes. -/
theorem extension_of_isHtml {p : Path} (h : p.isHtml) :
    ∃ a ext, p.suffix = .char '.' :: ext ∧ p.name = a ++ .char '.' :: ext ∧ ext ≠ [] ∧
      .char '.' ∉ ext ∧ .char '/' ∉ ext ∧ .char '\\' ∉ ext := by
  simp only [isHtml, suffix] at h
  split at h
  · rename_i a₀ a x ext hcut
    obtain ⟨g, hg, hname, hext⟩ := Text.cutLast?_eq_some hcut
    have hdot : g = .char '.' := by simpa using hg
    have hslash : ∀ c, c = '/' ∨ c = '\\' → Glyph.char c ∉ x :: ext := by
      intro c hc hmem
      have hascii : c.toNat < 128 ∧ c.toLower = c := by rcases hc with rfl | rfl <;> decide
      have hlower :=
        Text.mem_lowerFrom hascii.1 hascii.2 (List.mem_cons_of_mem (.char '.') hmem) []
      rw [Bool.or_eq_true, beq_iff_eq, beq_iff_eq] at h
      rw [← Text.lower] at hlower
      rcases h with h | h <;> rw [h] at hlower <;> rcases hc with rfl | rfl <;>
        exact absurd hlower (by decide)
    refine ⟨a₀ :: a, x :: ext, ?_, by rw [hname, hdot], by simp, ?_, hslash _ (.inl rfl),
      hslash _ (.inr rfl)⟩
    · rw [suffix, hcut]
    intro hmem
    exact hext _ hmem (by simp)
  · exact absurd h (by decide)

theorem parts_eq_of_name_ne_nil {p : Path} (h : p.name ≠ []) :
    p.parts = p.parts.dropLast ++ [p.name] := by
  cases hlast : p.parts.getLast? with
  | none => simp [name, hlast] at h
  | some x =>
    obtain ⟨ps, hps⟩ := List.getLast?_eq_some_iff.1 hlast
    simp [name, hps]

/-- The last piece of a document's text, backslashes read as slashes, ends with the extension. -/
theorem exists_split_of_isHtml {p : Path} (h : p.isHtml) :
    ∃ ps x ext, Text.split (.char '/') (p.toText.replace (.char '\\') (.char '/')) =
        ps ++ [x ++ .char '.' :: ext] ∧
      p.suffix = .char '.' :: ext ∧ ext ≠ [] ∧ .char '.' ∉ ext := by
  obtain ⟨a, ext, hsuffix, hname, hne, hdot, hslash, hback⟩ := extension_of_isHtml h
  have hparts := parts_eq_of_name_ne_nil (p := p) (by simp [hname])
  have htext : p.toText =
      (p.anchor.toText ++ Text.join "/" (p.parts.dropLast ++ [a])) ++ .char '.' :: ext := by
    rw [List.append_assoc, ← Text.join_concat_append, ← hname, ← toText_concat, ← hparts]
  have hreplace : Text.replace (.char '\\') (.char '/') (.char '.' :: ext) = .char '.' :: ext := by
    refine Text.replace_of_not_mem fun hmem => ?_
    rcases List.mem_cons.1 hmem with h | h
    · cases h
    · exact hback h
  have hend : Glyph.char '/' ∉ Glyph.char '.' :: ext := by
    intro hmem
    rcases List.mem_cons.1 hmem with h | h
    · cases h
    · exact hslash h
  rw [htext, Text.replace_append, hreplace]
  obtain ⟨ps, x, -, hsplit⟩ := Text.split_append_of_not_mem hend
    (Text.replace (.char '\\') (.char '/')
      (p.anchor.toText ++ Text.join "/" (p.parts.dropLast ++ [a])))
  exact ⟨ps, x, ext, hsplit, hsuffix, hne, hdot⟩

/-- A text that ends with an extension is neither `.` nor `..`. -/
theorem proper_of_extension {ext : Text} (hne : ext ≠ []) (hdot : .char '.' ∉ ext) (x : Text) :
    x ++ .char '.' :: ext ≠ [] ∧ x ++ .char '.' :: ext ≠ dot ∧ x ++ .char '.' :: ext ≠ dotDot := by
  refine ⟨by simp, fun h => ?_, fun h => ?_⟩
  · rcases List.append_eq_cons_iff.1 h with ⟨-, hx⟩ | ⟨y, -, hy⟩
    · exact hne (List.cons.inj hx).2
    · simp at hy
  · rcases List.append_eq_cons_iff.1 h with ⟨-, hx⟩ | ⟨y, -, hy⟩
    · exact hdot (by simp [(List.cons.inj hx).2])
    · rcases List.append_eq_cons_iff.1 hy.symm with ⟨-, hx⟩ | ⟨z, -, hz⟩
      · exact hne (List.cons.inj hx).2
      · simp at hz

theorem named_of_isHtml {p : Path} (h : p.isHtml) :
    Named (p.toText.replace (.char '\\') (.char '/')) := by
  obtain ⟨ps, x, ext, hsplit, -, hne, hdot⟩ := exists_split_of_isHtml h
  exact ⟨ps, _, hsplit, proper_of_extension hne hdot x⟩

/-- What the path of a script has after the path it stands beside, for any number. -/
def scriptTail (index : Int) : Text := "_script_" ++ Text.ofInt index ++ ".js"

theorem script_of_name_ne_nil {p : Path} (h : p.name ≠ []) (index : Int) :
    ∃ q, p.script index = .ok q ∧ q.toText = p.toText ++ scriptTail index := by
  refine ⟨p.withName (p.name ++ "_script_" ++ Text.ofInt index ++ ".js"), ?_, ?_⟩
  · rw [script, if_neg (by simpa using h)]
  · have hparts : p.toText = toText ⟨p.anchor, p.parts.dropLast ++ [p.name]⟩ :=
      congrArg (fun ps => toText ⟨p.anchor, ps⟩) (parts_eq_of_name_ne_nil h)
    have hending : p.name ++ "_script_" ++ Text.ofInt index ++ ".js" = p.name ++ scriptTail index := by
      rw [scriptTail, List.append_assoc, List.append_assoc, List.append_assoc]
    rw [withName, hending, toText_concat, Text.join_concat_append, hparts, toText_concat,
      List.append_assoc]

theorem name_ne_nil_of_script {p q : Path} {index : Int} (h : p.script index = .ok q) : p.name ≠ [] := by
  intro hname
  rw [script, hname] at h
  cases h

theorem toText_script {p q : Path} {index : Int} (h : p.script index = .ok q) :
    q.toText = p.toText ++ scriptTail index := by
  obtain ⟨q', hq', htext⟩ := script_of_name_ne_nil (name_ne_nil_of_script h) index
  obtain rfl : q' = q := Except.ok.inj (hq'.symm.trans h)
  exact htext

theorem script_of_isHtml {p : Path} (h : p.isHtml) (index : Nat) :
    ∃ q, p.script index = .ok q ∧ q.toText = p.toText ++ scriptEnding index := by
  obtain ⟨a, ext, -, hname, -⟩ := extension_of_isHtml h
  exact script_of_name_ne_nil (by simp [hname]) index

theorem not_mem_scriptTail {c : Char} (hc : c = '/' ∨ c = '\\') (index : Int) :
    Glyph.char c ∉ scriptTail index := by
  intro hmem
  rw [scriptTail, List.mem_append, List.mem_append] at hmem
  rcases hmem with (h | h) | h
  · rcases hc with rfl | rfl <;> exact absurd h (by decide)
  · rcases Text.mem_ofInt h with hminus | hdigit
    · rcases hc with rfl | rfl <;> exact absurd hminus (by decide)
    · rcases hc with rfl | rfl <;> exact absurd hdigit (by decide)
  · rcases hc with rfl | rfl <;> exact absurd h (by decide)

/-- The key of a script is read off its document's text with an end. -/
theorem key_eq_of_script {p q : Path} {index : Int} (h : p.script index = .ok q) :
    q.key = normalText (p.toText.replace (.char '\\') (.char '/') ++ scriptTail index) := by
  rw [key, logical, toText_script h, Text.replace_append,
    Text.replace_of_not_mem (not_mem_scriptTail (.inr rfl) index)]

theorem key_script {p q : Path} (hp : p.isHtml) {index : Nat} (hq : p.script index = .ok q) :
    q.key = p.key ++ scriptEnding index := by
  rw [key_eq_of_script hq]
  exact normalText_append (named_of_isHtml hp) (not_mem_scriptTail (.inl rfl) index)

/-- Scripts with different numbers have different endings. -/
theorem scriptEnding_injective {m n : Nat} (h : scriptEnding m = scriptEnding n) : m = n := by
  rw [scriptEnding, scriptEnding, List.append_left_inj, List.append_right_inj] at h
  exact Text.ofNat_injective h

end Path
end HtmlDeps
