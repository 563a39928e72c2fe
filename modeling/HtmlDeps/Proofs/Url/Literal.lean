import Mathlib.Algebra.GroupWithZero.Nat
import HtmlDeps.Proofs.Path.Written
import HtmlDeps.Proofs.Text.Faithful
import HtmlDeps.Url.Local

/-!
# URLs that stand for themselves

The URL of a file is the text of its path below the root, and is not escaped.  Read as a URL, it leads
back to that file exactly if there is nothing in it that a reader drops, cuts off or decodes
(`Url.Literal`, `Project.reads_back_iff`).

The one direction goes step by step through the reader.  The other is told by lengths: no step of the
reader makes a text longer, and each that changes it makes it shorter.
-/

namespace HtmlDeps

/-! ### Percent escapes -/

namespace Percent

variable {t : Text} {run bs : Bytes} {a b : Glyph}

/-- No `%` is followed by two hexadecimal digits. -/
def Unescaped (t : Text) : Prop :=
  ∀ a b : Glyph, [.char '%', a, b] <:+: t → a.hexValue? = none ∨ b.hexValue? = none

theorem Unescaped.tail {g : Glyph} (h : Unescaped (g :: t)) : Unescaped t := fun a b hinfix =>
  h a b (List.infix_cons hinfix)

theorem Unescaped.front (h : Unescaped (.char '%' :: a :: b :: t)) :
    a.hexValue? = none ∨ b.hexValue? = none := h a b ⟨[], t, rfl⟩

theorem unescaped_nil : Unescaped [] := fun a b hinfix => by
  have hlength := hinfix.length_le
  simp at hlength

/-- An escape stands in front or further behind. -/
theorem unescaped_cons {g : Glyph}
    (hfront : ∀ a b r, g :: t = .char '%' :: a :: b :: r → a.hexValue? = none ∨ b.hexValue? = none)
    (h : Unescaped t) : Unescaped (g :: t) := by
  intro a b hinfix
  rcases List.infix_cons_iff.1 hinfix with ⟨r, hrest⟩ | hinfix
  · exact hfront a b r hrest.symm
  · exact h a b hinfix

theorem length_decodeReplacingFrom_le (skip : Nat) (bs : Bytes) :
    (Text.decodeReplacingFrom skip bs).length ≤ bs.length := by
  induction bs generalizing skip with
  | nil => cases skip <;> exact Nat.le_refl 0
  | cons b bs ih =>
    cases skip with
    | succ skip => exact Nat.le_succ_of_le (ih skip)
    | zero =>
      unfold Text.decodeReplacingFrom
      split
      · exact Nat.succ_le_succ (ih _)
      · exact Nat.succ_le_succ (ih _)

theorem length_decodeReplacing_reverse_le (run : Bytes) :
    (Text.decodeReplacing run.reverse).length ≤ run.length := by
  have hlength := length_decodeReplacingFrom_le 0 run.reverse
  rwa [List.length_reverse] at hlength

/-- Bytes of ASCII are decoded one by one. -/
theorem decodeReplacing_ascii (h : ∀ b ∈ bs, b.toNat < 128) :
    Text.decodeReplacing bs = bs.map fun b => .char (Char.ofNat b.toNat) := by
  induction bs with
  | nil => rfl
  | cons b bs ih =>
    rw [List.forall_mem_cons] at h
    have hvalid : b.toNat.isValidChar := .inl (Nat.lt_trans h.1 (by decide))
    have hnat : (Char.ofNat b.toNat).toNat = b.toNat := by
      rw [Char.ofNat, dif_pos hvalid]
      rfl
    have hencode : String.utf8EncodeChar (Char.ofNat b.toNat) = [b] := by
      have hval : (Char.ofNat b.toNat).val.toNat = b.toNat := hnat
      simp only [String.utf8EncodeChar, hval]
      rw [if_pos (by omega), UInt8.ofNat_toNat]
    have hlead : Text.leadingChar? b bs = some (Char.ofNat b.toNat) :=
      Text.leadingChar?_eq_some.2 (hencode ▸ ⟨bs, rfl⟩)
    rw [Text.decodeReplacing, Text.decodeReplacingFrom, hlead]
    dsimp only
    rw [hencode, List.map_cons]
    exact congrArg _ (ih h.2)

/-! One lemma for each way in which the reader goes on. -/

theorem decodeFrom_escape {x y : Nat} {r : Text} (ha : a.hexValue? = some x)
    (hb : b.hexValue? = some y) : decodeFrom run (.char '%' :: a :: b :: r) =
      decodeFrom (UInt8.ofNat (16 * x + y) :: run) r := by
  rw [decodeFrom.eq_2, ha, hb]

theorem decodeFrom_percent {r : Text} (h : a.hexValue? = none ∨ b.hexValue? = none) :
    decodeFrom run (.char '%' :: a :: b :: r) =
      decodeFrom (UInt8.ofNat '%'.toNat :: run) (a :: b :: r) := by
  rw [decodeFrom.eq_2]
  rcases h with hnone | hnone
  · rw [hnone]
  · rw [hnone]
    cases a.hexValue? <;> rfl

/-- The bytes of ASCII read so far. -/
def asciiRun (run : Bytes) : Text := run.reverse.map fun b => .char (Char.ofNat b.toNat)

theorem asciiRun_cons {g : Glyph} (hcode : g.code < 128) (run : Bytes) :
    asciiRun (UInt8.ofNat g.code :: run) = asciiRun run ++ [g] := by
  have hg : Glyph.char (Char.ofNat (UInt8.ofNat g.code).toNat) = g := by
    rw [Text.toNat_ofNat_of_lt (by omega)]
    cases g with
    | char c => exact congrArg _ (Char.ofNat_toNat c)
    | stray b => exact absurd hcode (by simp only [Glyph.code]; omega)
  rw [asciiRun, List.reverse_cons, List.map_append, List.map_singleton, hg]
  rfl

/-- What is not escaped is left as it is. -/
theorem decodeFrom_of_unescaped (hrun : ∀ b ∈ run, b.toNat < 128) (h : Unescaped t) :
    decodeFrom run t = asciiRun run ++ t := by
  have hascii : ∀ run : Bytes, (∀ b ∈ run, b.toNat < 128) →
      Text.decodeReplacing run.reverse = asciiRun run :=
    fun run hrun => decodeReplacing_ascii fun b hb => hrun b (List.mem_reverse.1 hb)
  have hread : ∀ {g : Glyph} {run : Bytes}, g.code < 128 → (∀ b ∈ run, b.toNat < 128) →
      ∀ b ∈ UInt8.ofNat g.code :: run, b.toNat < 128 := fun hcode hrun =>
    List.forall_mem_cons.2 ⟨by rwa [Text.toNat_ofNat_of_lt (by omega)], hrun⟩
  induction run, t using decodeFrom.induct with
  | case1 run => rw [decodeFrom, hascii run hrun, List.append_nil]
  | case2 run a b r x y hb ha =>
    rcases h.front with hnone | hnone
    · cases ha.symm.trans hnone
    · cases hb.symm.trans hnone
  | case3 run a b r hnone ih =>
    have hcode : (Glyph.char '%').code < 128 := by decide
    rw [decodeFrom_percent h.front, ih (hread hcode hrun) h.tail]
    exact (congrArg (· ++ a :: b :: r) (asciiRun_cons hcode run)).trans (List.append_assoc _ _ _)
  | case4 run g r hshort hcode ih =>
    rw [decodeFrom.eq_3 run g r hshort, if_pos hcode, ih (hread hcode hrun) h.tail, asciiRun_cons hcode,
      List.append_assoc, List.singleton_append]
  | case5 run g r hshort hcode ih =>
    rw [decodeFrom.eq_3 run g r hshort, if_neg hcode, hascii run hrun,
      ih (List.forall_mem_nil _) h.tail]
    rfl

/-- Decoding makes nothing longer, and an escape shorter. -/
theorem length_decodeFrom (run : Bytes) (t : Text) :
    (decodeFrom run t).length ≤ run.length + t.length ∧
      (run.length + t.length ≤ (decodeFrom run t).length → Unescaped t) := by
  induction run, t using decodeFrom.induct with
  | case1 run =>
    rw [decodeFrom]
    exact ⟨length_decodeReplacing_reverse_le run, fun _ => unescaped_nil⟩
  | case2 run a b r x y hb ha ih =>  -- Three characters become one byte, so the text gets shorter.
    have hle := ih.1
    rw [decodeFrom_escape ha hb]
    simp only [List.length_cons] at hle ⊢
    exact ⟨by omega, fun hlong => absurd hlong (by omega)⟩
  | case3 run a b r hboth ih =>
    have hnone : a.hexValue? = none ∨ b.hexValue? = none := by
      cases ha : a.hexValue? with
      | none => exact .inl rfl
      | some x =>
        cases hb : b.hexValue? with
        | none => exact .inr rfl
        | some y => exact absurd hb (hboth x y ha)
    rw [decodeFrom_percent hnone]
    simp only [List.length_cons] at ih ⊢
    refine ⟨by omega, fun hlong => unescaped_cons (fun a' b' r' heq => ?_) (ih.2 (by omega))⟩
    simp only [List.cons.injEq] at heq
    obtain ⟨-, ha, hb, -⟩ := heq
    rwa [← ha, ← hb]
  | case4 run g r hshort hcode ih =>
    rw [decodeFrom.eq_3 run g r hshort, if_pos hcode]
    simp only [List.length_cons] at ih ⊢
    refine ⟨by omega, fun hlong => unescaped_cons (fun a b r' heq => ?_) (ih.2 (by omega))⟩
    obtain ⟨hg, hr⟩ := List.cons.inj heq
    exact absurd hr (hshort a b r' hg)
  | case5 run g r hshort hcode ih =>
    rw [decodeFrom.eq_3 run g r hshort, if_neg hcode]
    have hle := length_decodeReplacing_reverse_le run
    simp only [List.length_append, List.length_cons, List.length_nil] at ih ⊢
    refine ⟨by omega, fun hlong => unescaped_cons (fun a b r' heq => ?_) (ih.2 (by omega))⟩
    obtain ⟨hg, hr⟩ := List.cons.inj heq
    exact absurd hr (hshort a b r' hg)

theorem length_decode_le (t : Text) : (decode t).length ≤ t.length := by
  have hle := (length_decodeFrom [] t).1
  rwa [List.length_nil, Nat.zero_add] at hle

theorem unescaped_of_length (h : t.length ≤ (decode t).length) : Unescaped t := by
  refine (length_decodeFrom [] t).2 ?_
  rwa [List.length_nil, Nat.zero_add]

theorem decode_of_unescaped (h : Unescaped t) : decode t = t :=
  decodeFrom_of_unescaped (List.forall_mem_nil _) h

theorem decode_eq_self_iff : decode t = t ↔ Unescaped t :=
  ⟨fun h => unescaped_of_length (Nat.le_of_eq (congrArg List.length h).symm), decode_of_unescaped⟩

end Percent

/-! ### Reading a URL -/

namespace Url

variable {t r : Text} {v : Url}

/-- A URL in which nothing is dropped, cut off or decoded. -/
structure Literal (t : Text) : Prop where
  front : ∀ g ∈ t.head?, 32 < g.code
  glyphs : ∀ g ∈ t, g ∉ ([.char '\t', .char '\r', .char '\n', .char '?', .char '#'] : Text)
  scheme : cutScheme? t = none
  unescaped : Percent.Unescaped t

theorem cleaned_sublist (t : Text) : (cleaned t).Sublist t :=
  List.filter_sublist.trans (List.dropWhile_sublist _)

theorem cleaned_of_literal (h : Literal t) : cleaned t = t := by
  have hdrop : (t.dropWhile fun g => g.code ≤ 32) = t := by
    cases t with
    | nil => rfl
    | cons g r => exact List.dropWhile_cons_of_neg (by simpa using h.front g rfl)
  rw [cleaned, hdrop, List.filter_eq_self]
  intro g hg
  have hglyph := h.glyphs g hg
  simp only [List.mem_cons, not_or] at hglyph
  simp [hglyph]

/-- A text that is cleaned has no control in front, and no tab or line end anywhere. -/
theorem front_of_cleaned (h : cleaned t = t) : (∀ g ∈ t.head?, 32 < g.code) ∧
    ∀ g ∈ t, g ≠ .char '\t' ∧ g ≠ .char '\r' ∧ g ≠ .char '\n' := by
  refine ⟨fun g hg => ?_, fun g hg => ?_⟩
  · by_contra hcode
    obtain ⟨r, rfl⟩ : ∃ r, t = g :: r := ⟨t.tail, (List.cons_head?_tail hg).symm⟩
    have hlength := congrArg List.length h
    have hdropped : (cleaned (g :: r)).length ≤ r.length := by
      rw [cleaned, List.dropWhile_cons_of_pos (by simpa using hcode)]
      exact (List.filter_sublist.trans (List.dropWhile_sublist _)).length_le
    rw [List.length_cons] at hlength
    omega
  · rw [← h] at hg
    simpa [and_assoc] using (List.mem_filter.1 hg).2

theorem cutScheme?_suffix {s : Text} (h : cutScheme? t = some (s, r)) :
    r <:+ t ∧ r.length < t.length := by
  unfold cutScheme? at h
  split at h
  · rename_i g s' x r' hcut
    split at h
    · obtain ⟨-, rfl⟩ := Prod.mk.inj (Option.some.inj h)
      have hdrop : x :: r' = t.dropWhile fun x => !(x == Glyph.char ':') := (congrArg Prod.snd hcut).symm
      have hsuffix : x :: r' <:+ t := hdrop ▸ List.dropWhile_suffix _
      exact ⟨(List.suffix_cons x r').trans hsuffix, hsuffix.length_le⟩
    · cases h
  · cases h

theorem cutAuthority_suffix (t : Text) : (cutAuthority t).2 <:+ t := by
  unfold cutAuthority
  split
  · rename_i r
    exact (List.dropWhile_suffix _).trans ((List.suffix_cons _ _).trans (List.suffix_cons _ _))
  · exact List.suffix_rfl

/-- Where the path of a URL stands, and what it does not hold. -/
theorem path_of_parse (h : parse t = .ok v) : v.path <+: (cutAuthority
      ((cutScheme? (cleaned t)).getD ([], cleaned t)).2).2 ∧
    .char '?' ∉ v.path ∧ .char '#' ∉ v.path := by
  unfold parse at h
  dsimp only at h
  split at h
  · cases h
  · obtain rfl := Except.ok.inj h
    refine ⟨(List.takeWhile_prefix _).trans (List.takeWhile_prefix _), fun hmem => ?_, fun hmem => ?_⟩
    · simpa using List.mem_takeWhile_imp hmem
    · simpa using List.mem_takeWhile_imp ((List.takeWhile_prefix _).subset hmem)

/-- A URL whose path, decoded, is as long as all of it. -/
theorem literal_of_length (h : parse t = .ok v) (hlength : t.length ≤ (Percent.decode v.path).length) :
    Literal t := by
  obtain ⟨hfront, hquestion, hhash⟩ := path_of_parse h
  have hsublist := hfront.sublist.trans (cutAuthority_suffix _).sublist
  have hdecoded := Percent.length_decode_le v.path
  have hclean := cleaned_sublist t
  -- A scheme would have been cut off, and the path would be shorter than the text.
  cases hscheme : cutScheme? (cleaned t) with
  | some cut =>
    obtain ⟨s, r⟩ := cut
    rw [hscheme] at hsublist
    have hcut := (cutScheme?_suffix hscheme).2
    have hle := hsublist.length_le
    have hcleaned := hclean.length_le
    dsimp only [Option.getD_some] at hle
    omega
  | none =>
    rw [hscheme] at hsublist
    have hpath : v.path = t := by
      refine (hsublist.trans hclean).eq_of_length_le ?_
      exact Nat.le_trans hlength hdecoded
    have hcleaned : cleaned t = t := by
      have hlong := hsublist.length_le
      rw [hpath] at hlong
      exact hclean.eq_of_length_le hlong
    obtain ⟨hfront, hglyphs⟩ := front_of_cleaned hcleaned
    rw [hpath] at hquestion hhash hlength
    refine ⟨hfront, fun g hg hmem => ?_, hcleaned ▸ hscheme, Percent.unescaped_of_length hlength⟩
    have hkept := hglyphs g hg
    simp only [List.mem_cons, List.not_mem_nil, or_false] at hmem
    rcases hmem with rfl | rfl | rfl | rfl | rfl
    · exact hkept.1 rfl
    · exact hkept.2.1 rfl
    · exact hkept.2.2 rfl
    · exact hquestion hg
    · exact hhash hg

/-- Without a slash in front, such a URL is all path. -/
theorem parse_of_literal (h : Literal t) (hslash : ∀ r, t ≠ .char '/' :: r) :
    parse t = .ok ⟨[], [], t, [], []⟩ := by
  have hauthority : cutAuthority t = ([], t) := by
    unfold cutAuthority
    split
    · exact absurd rfl (hslash _)
    · rfl
  have hcut : ∀ g ∈ ([.char '?', .char '#'] : Text), Text.cutAt (· == g) t = (t, []) := by
    intro g hg
    have hne : ∀ x ∈ t, x ≠ g := fun x hx heq => h.glyphs x hx (heq ▸ by
      rcases List.mem_cons.1 hg with rfl | hg
      · simp
      · simp [List.mem_singleton.1 hg])
    rw [Text.cutAt, List.takeWhile_eq_self_iff.2 (by simpa using hne),
      List.dropWhile_eq_nil_iff.2 (by simpa using hne)]
  have hfault : authorityFault? [] = none := rfl
  unfold parse
  dsimp only
  rw [cleaned_of_literal h, h.scheme]
  dsimp only [Option.getD_none]
  rw [hauthority]
  dsimp only
  rw [hfault, hcut (.char '#') (by simp)]
  dsimp only
  rw [hcut (.char '?') (by simp)]
  rfl

theorem isExternal_of_literal (h : Literal t) (hslash : ∀ r, t ≠ .char '/' :: r) :
    isExternal t = .ok false := by
  have hstart : t.startsWith "//" = false := by
    cases t with
    | nil => rfl
    | cons g r =>
      have hg : g ≠ .char '/' := fun heq => hslash r (heq ▸ rfl)
      exact congrArg Option.isSome (if_neg hg.symm)
  rw [isExternal, if_neg (by simp [hstart]), parse_of_literal h hslash]
  rfl

end Url

/-! ### The way back to a path -/

namespace Path

/-- The length of parts, each with its slash. -/
def weight (ps : List Text) : Nat := (ps.map (·.length + 1)).sum

@[simp] theorem weight_nil : weight [] = 0 := rfl

@[simp] theorem weight_cons (p : Text) (ps : List Text) :
    weight (p :: ps) = p.length + 1 + weight ps := rfl

@[simp] theorem weight_append (ps qs : List Text) : weight (ps ++ qs) = weight ps + weight qs := by
  simp [weight]

@[simp] theorem weight_reverse (ps : List Text) : weight ps.reverse = weight ps := by
  simp [weight]

theorem weight_le_of_sublist {ps qs : List Text} (h : ps.Sublist qs) : weight ps ≤ weight qs := by
  induction h with
  | slnil => exact Nat.le_refl _
  | cons q _ ih => exact Nat.le_trans ih (Nat.le_add_left _ _)
  | cons_cons q _ ih => exact Nat.add_le_add_left ih _

theorem length_join (g : Glyph) (ps : List Text) : (Text.join [g] ps).length = weight ps - 1 := by
  cases ps with
  | nil => rfl
  | cons p ps =>
    induction ps generalizing p with
    | nil => simp [Text.join, List.intercalate]
    | cons q ps ih =>
      rw [Text.join_cons_cons, List.length_append, List.length_append, ih q, List.length_singleton]
      simp only [weight_cons]
      omega

theorem weight_partsOf_le (t : Text) : weight (partsOf t) ≤ t.length + 1 := by
  have hsplit := congrArg List.length (Text.join_split (.char '/') t)
  rw [length_join] at hsplit
  have hle : weight (partsOf t) ≤ weight (Text.split (.char '/') t) :=
    weight_le_of_sublist List.filter_sublist
  omega

theorem weight_push_le (st : List Text) (p : Text) :
    weight (push true st p) ≤ weight st + weight [p] := by
  unfold push
  split
  · cases st with
    | nil => exact Nat.zero_le _
    | cons top rest =>
      simp only [climb]
      split
      · rename_i hp _
        simp only [weight_cons, weight_nil, hp]
        omega
      · simp only [weight_cons]
        omega
  · simp only [weight_cons, weight_nil]
    omega

theorem weight_foldl_push_le (ps st : List Text) :
    weight (ps.foldl (push true) st) ≤ weight st + weight ps := by
  induction ps generalizing st with
  | nil => exact Nat.le_refl _
  | cons p ps ih =>
    have hpush := weight_push_le st p
    have hrest := ih (push true st p)
    simp only [weight_cons, weight_nil, List.foldl_cons] at hpush hrest ⊢
    omega

theorem weight_segments_le (t : Text) : weight (Url.segments t) ≤ (Percent.decode t).length + 1 := by
  have habsolute : (ofText (.char '/' :: Percent.decode t)).isAbsolute := by
    rw [isAbsolute, decide_eq_true_eq]
    exact anchorOf_slash_ne _
  have hparts := weight_foldl_push_le (partsOf (Percent.decode t)) []
  have hsegments : weight (Url.segments t) = weight ((partsOf (Percent.decode t)).foldl (push true) []) := by
    rw [Url.segments, normal, habsolute, resolveParts, weight_reverse]
    exact congrArg (fun ps => weight (ps.foldl (push true) [])) (partsOf_slash _)
  have hpieces := weight_partsOf_le (Percent.decode t)
  rw [weight_nil] at hparts
  omega

/-- Names that are not escaped are the segments of their URL. -/
theorem segments_join {names : List Text} (hnames : ∀ n ∈ names, Name n) (hparts : ∀ n ∈ names, Part n)
    (h : Percent.Unescaped (Text.join "/" names)) : Url.segments (Text.join "/" names) = names := by
  have hread : partsOf (.char '/' :: Text.join "/" names) = names := by
    rw [partsOf_slash, partsOf_join hparts]
  rw [Url.segments, Percent.decode_of_unescaped h, normal]
  dsimp only [ofText]
  rw [hread, resolveParts_eq_self _ (not_mem_of_names hnames)]

end Path

namespace Project

open HtmlDeps.Path

variable {p : Project} {q : Path} {t u : Text}

/-- The URL of the path of a URL is not longer than that URL, decoded. -/
theorem length_url_path_le (hp : p.Rooted) (hurl : p.url (p.path t) = .ok u) :
    u.length ≤ (Percent.decode t).length := by
  have hnames : ∀ n ∈ Url.segments t, Name n := fun _ hn => name_of_mem_segments hn
  have hpath : p.path t = p.root.normal.extend (Url.segments t) := normal_extend_names hnames
  rw [hpath, url_extend hp hnames] at hurl
  have hlength := length_join (.char '/') (Url.segments t)
  have hsegments := weight_segments_le t
  rw [← Except.ok.inj hurl]
  change (Text.join [.char '/'] (Url.segments t)).length ≤ _
  omega

/-- **The URL of a file leads back to the file** exactly if it stands for itself. -/
theorem reads_back_iff (hp : p.Rooted) (hinside : p.Inside q) (hwritten : q.Written)
    (hurl : p.url q = .ok u) :
    Url.Literal u ↔ ∃ v, Url.isExternal u = .ok false ∧ Url.parse u = .ok v ∧ p.path v.path = q := by
  constructor
  · intro hliteral
    obtain ⟨names, rfl, hnames⟩ := hinside
    rw [url_extend hp hnames] at hurl
    obtain rfl := Except.ok.inj hurl
    have hparts : ∀ n ∈ names, Path.Part n := fun n hn => hwritten n (List.mem_append_right _ hn)
    have hslash := join_ne_slash hparts
    refine ⟨_, Url.isExternal_of_literal hliteral hslash, Url.parse_of_literal hliteral hslash, ?_⟩
    rw [path, ofUrl, segments_join hnames hparts hliteral.unescaped, normal_extend_names hnames]
  · rintro ⟨v, -, hparse, rfl⟩
    exact Url.literal_of_length hparse (length_url_path_le hp hurl)

end Project
end HtmlDeps
