import HtmlDeps.Glob.Match
import HtmlDeps.Proofs.Document.References

/-!
# Patterns that stand for themselves

A path matches a pattern if the elements of the pattern, one after the other, spell it
(`Glob.matchesElements_iff`).  All glyphs but `*`, `?`, `[`, `\` and the opening brace stand for
themselves: they are read one by one (`Element.readFrom_append`) and spell themselves
(`spells_append_iff`).  A text of such glyphs selects itself (`accepts_self`).  In a list of patterns it does so
as long as no blank at one of its ends is dropped and no `!` in front makes it take paths out (`Ordinary`).
-/

namespace HtmlDeps.Glob

/-- The glyphs that may mean something else than themselves in a pattern. -/
def specials : Text := "*?[\\\x7b"

/-- A text all of whose glyphs stand for themselves in a pattern. -/
def Simple (t : Text) : Prop := ∀ g ∈ t, g ∉ specials

instance : DecidablePred Simple := fun t => inferInstanceAs (Decidable (∀ g ∈ t, g ∉ specials))

/-- A text in which no two slashes stand side by side. -/
def Tight (t : Text) : Prop := ¬ [slash, slash] <:+: t

theorem Tight.tail {g : Glyph} {t : Text} (h : Tight (g :: t)) : Tight t := fun htail =>
  h (htail.trans (List.suffix_cons g t).isInfix)

theorem Tight.head_ne {t : Text} (h : Tight (slash :: t)) : t.head? ≠ some slash := by
  intro hhead
  obtain ⟨t, rfl⟩ := List.head?_eq_some_iff.1 hhead
  exact h ⟨[], t, rfl⟩

namespace Brace

variable {acc t : Text} {g : Glyph}

theorem squash_singleton (x y : Text) : squash [x] [y] = [x ++ y] := rfl

/-- Without an opening brace nothing is multiplied. -/
theorem literals_of_not_mem (h : .char '\x7b' ∉ t) (total fuel : Nat) (hfuel : t.length < fuel)
    (acc : Text) (dollar : Bool) : literals total fuel 0 false [acc] dollar t = some ([acc ++ t], []) := by
  induction fuel generalizing t acc dollar with
  | zero => omega
  | succ fuel ih =>
    cases t with
    | nil => simp [literals]
    | cons g r =>
      rw [List.mem_cons, not_or] at h
      rw [List.length_cons] at hfuel
      have hone : acc ++ [g] ++ r = acc ++ g :: r := by simp
      rw [literals]
      split
      · rw [squash_singleton, ih h.2 (by omega), hone]
      · split
        · have hdrop : .char '\x7b' ∉ r.drop 1 := fun hmem => h.2 (List.mem_of_mem_drop hmem)
          rw [squash_singleton, ih hdrop (by rw [List.length_drop]; omega), List.append_assoc,
            List.cons_append, List.take_append_drop]
        · rw [if_neg (by simp [Ne.symm h.1]), if_neg (by simp), squash_singleton, ih h.2 (by omega), hone]

theorem expand?_of_not_mem (h : .char '\x7b' ∉ t) : expand? t = some [t] := by
  have hliterals := literals_of_not_mem h t.length (3 * t.length + 3) (by omega) [] false
  rw [List.nil_append] at hliterals
  rw [expand?, hliterals]
  cases t <;> rfl

end Brace

namespace Element

variable {t r : Text} {g : Glyph} {acc : List Element} {leading : Bool} {fuel : Nat}

/-- What a glyph that stands for itself is read as. -/
def plain (g : Glyph) : Element := if g = slash then .slashes else .glyph g

theorem readFrom_nil : readFrom fuel leading acc [] = acc := by
  cases fuel <;> rfl

theorem readFrom_cons (hg : g ∉ specials) (hr : g = slash → r.head? ≠ some slash) :
    readFrom (fuel + 1) leading acc (g :: r) = readFrom fuel (g == slash) (plain g :: acc) r := by
  have hne : g ≠ .char '*' ∧ g ≠ .char '?' ∧ g ≠ .char '[' ∧ g ≠ .char '\\' := by
    refine ⟨?_, ?_, ?_, ?_⟩ <;> rintro rfl <;> exact hg (by decide)
  by_cases hslash : g = slash
  · have hdrop : Text.dropLeading (.char '/') r = r := by
      cases r with
      | nil => rfl
      | cons h r =>
        have hh : h ≠ .char '/' := by simpa [slash] using hr hslash
        rw [Text.dropLeading, List.dropWhile_cons_of_neg (by simpa using hh)]
    conv_lhs => rw [readFrom.eq_def]
    subst hslash
    simp [slash, plain, hdrop]
  · have hslash' : g ≠ .char '/' := hslash
    conv_lhs => rw [readFrom.eq_def]
    simp [hne, hslash', plain, beq_eq_false_iff_ne.2 hslash, hslash]

/-- Glyphs that stand for themselves are read one by one. -/
theorem readFrom_append (fuel : Nat) (leading : Bool) (acc : List Element) (ht : Simple t) (htight : Tight (t ++ r)) :
    readFrom (fuel + t.length) leading acc (t ++ r) =
      readFrom fuel (t.getLast?.elim leading (· == slash)) ((t.map plain).reverse ++ acc) r := by
  induction t generalizing leading acc with
  | nil => rfl
  | cons g t ih =>
    rw [Simple, List.forall_mem_cons] at ht
    have hnext : g = slash → (t ++ r).head? ≠ some slash := by
      rintro rfl
      exact htight.head_ne
    rw [List.length_cons, ← Nat.add_assoc, List.cons_append, readFrom_cons ht.1 hnext, ih _ _ ht.2 htight.tail]
    cases t with
    | nil => rfl
    | cons h t => simp [List.getLast?_cons]

/-- A pattern of glyphs that stand for themselves. -/
theorem read_simple (ht : Simple t) (htight : Tight t) : read t = t.map plain := by
  have hread := readFrom_append 1 true [] ht ((List.append_nil t).symm ▸ htight)
  rw [List.append_nil, List.append_nil, readFrom_nil] at hread
  rw [read, Nat.add_comm, hread, List.reverse_reverse]

end Element

/-! ### Where a pattern leads -/

/-- Whether elements spell the rest of a path, up to slashes at its end; `first` says that the rest is the
whole path. -/
def Spells : List Element → Bool → Text → Prop
  | [], _, rest => ∀ g ∈ rest, g = slash
  | e :: es, first, rest => ∃ k ∈ e.sizes first rest, Spells es (first && k == 0) (rest.drop k)

variable {path pattern rest t r : Text} {es : List Element} {places : List Nat} {first : Bool}

theorem mem_advance_iff {e : Element} {m : Nat} :
    m ∈ advance path places e ↔ ∃ n ∈ places, ∃ k ∈ e.sizes (n == 0) (path.drop n), m = n + k := by
  rw [advance, List.mem_eraseDups, List.mem_flatMap]
  simp only [List.mem_map, eq_comm]

theorem exists_foldl_advance_iff (path : Text) (es : List Element) (places : List Nat) :
    (∃ m ∈ es.foldl (advance path) places, ∀ g ∈ path.drop m, g = slash) ↔
      ∃ n ∈ places, Spells es (n == 0) (path.drop n) := by
  induction es generalizing places with
  | nil => rfl
  | cons e es ih =>
    rw [List.foldl_cons, ih]
    have hstep : ∀ n k, Spells es (n + k == 0) (path.drop (n + k)) ↔
        Spells es (n == 0 && k == 0) ((path.drop n).drop k) := by
      intro n k
      have hzero : (n + k == 0) = (n == 0 && k == 0) := by
        cases n <;> cases k <;> rfl
      rw [hzero, List.drop_drop]
    constructor
    · rintro ⟨m, hm, hspells⟩
      obtain ⟨n, hn, k, hk, rfl⟩ := mem_advance_iff.1 hm
      exact ⟨n, hn, k, hk, (hstep n k).1 hspells⟩
    · rintro ⟨n, hn, k, hk, hspells⟩
      exact ⟨n + k, mem_advance_iff.2 ⟨n, hn, k, hk, rfl⟩, (hstep n k).2 hspells⟩

/-- A path matches if the elements of the pattern spell it. -/
theorem matchesElements_iff (h : pattern ≠ []) :
    matchesElements path pattern = true ↔ Spells (Element.read pattern) true path := by
  have hplaces := exists_foldl_advance_iff path (Element.read pattern) [0]
  rw [matchesElements, if_neg (by simpa using h), List.any_eq_true]
  simpa using hplaces

/-! ### Spelling -/

theorem spells_glyph_iff {g : Glyph} :
    Spells (.glyph g :: es) first rest ↔ ∃ r, rest = g :: r ∧ Spells es false r := by
  cases rest with
  | nil => simp [Spells, Element.sizes]
  | cons h r =>
    by_cases hg : h = g
    · simp [Spells, Element.sizes, hg]
    · simp [Spells, Element.sizes, hg]

theorem takeWhile_slash (h : rest.head? ≠ some slash) : rest.takeWhile (· == slash) = [] := by
  cases rest with
  | nil => rfl
  | cons g r =>
    have hg : g ≠ slash := by simpa using h
    simp [hg]

theorem spells_slashes_iff (h : Tight rest) :
    Spells (.slashes :: es) first rest ↔ ∃ r, rest = slash :: r ∧ Spells es false r := by
  cases rest with
  | nil => simp [Spells, Element.sizes, upTo]
  | cons g r =>
    by_cases hg : g = slash
    · subst hg
      simp [Spells, Element.sizes, takeWhile_slash h.head_ne, upTo, List.range_succ]
    · simp [Spells, Element.sizes, hg, upTo]

theorem spells_plain_iff {g : Glyph} (h : Tight rest) :
    Spells (.plain g :: es) first rest ↔ ∃ r, rest = g :: r ∧ Spells es false r := by
  unfold Element.plain
  split
  · rename_i hg
    rw [hg]
    exact spells_slashes_iff h
  · exact spells_glyph_iff

/-- Glyphs that stand for themselves spell themselves. -/
theorem spells_append_iff (h : Tight rest) :
    Spells (t.map .plain ++ es) first rest ↔ ∃ r, rest = t ++ r ∧ Spells es (first && t.isEmpty) r := by
  induction t generalizing first rest with
  | nil => simp
  | cons g t ih =>
    rw [List.map_cons, List.cons_append, spells_plain_iff h]
    constructor
    · rintro ⟨_, rfl, hspells⟩
      obtain ⟨r, rfl, hrest⟩ := (ih h.tail).1 hspells
      exact ⟨r, rfl, by simpa using hrest⟩
    · rintro ⟨r, rfl, hspells⟩
      refine ⟨t ++ r, rfl, (ih h.tail).2 ⟨r, rfl, ?_⟩⟩
      simpa using hspells

/-! ### Patterns that are cleaned and expanded before they are read -/

/-- A text that can open a pattern as it is: all of its glyphs stand for themselves, no `!` in front makes it
take paths out, and no blank in front is dropped. -/
structure Ordinary (t : Text) : Prop where
  simple : Simple t
  opening : ∀ g ∈ t.head?, g ≠ .char '!' ∧ g.isBlank = false

theorem Simple.brace (h : Simple t) : .char '\x7b' ∉ t := fun hmem => h _ hmem (by decide)

theorem strip_eq_self (hopening : ∀ g ∈ t.head?, g.isBlank = false) (hclosing : ∀ g ∈ t.getLast?, g.isBlank = false) :
    t.strip = t := by
  have hskip : t.skipBlanks = t := by
    cases t with
    | nil => rfl
    | cons g t => exact List.dropWhile_cons_of_neg (by simp [hopening g rfl])
  rw [Text.strip, hskip, Text.dropTrailing]
  rw [List.getLast?_eq_head?_reverse] at hclosing
  cases hreverse : t.reverse with
  | nil => exact (List.reverse_eq_nil_iff.1 hreverse).symm
  | cons g r =>
    rw [hreverse] at hclosing
    rw [List.dropWhile_cons_of_neg (by simp [hclosing g rfl]), ← hreverse, List.reverse_reverse]

theorem cleaned_eq_self (hstrip : t.strip = t) (hdot : Text.after? "./" t = none) : cleaned t = t := by
  rw [cleaned, hstrip, hdot, Option.getD_none]

theorem accepts_of_not_mem (hbrace : .char '\x7b' ∉ t) (path : Text) :
    accepts path t = .ok (matchesElements path t) := by
  rw [accepts, Brace.expand?_of_not_mem hbrace]
  simp

/-- **A text whose glyphs stand for themselves selects itself.** -/
theorem accepts_self (ht : Simple t) (htight : Tight t) : accepts t t = .ok true := by
  have hself : matchesElements t t = true := by
    by_cases hne : t = []
    · rw [hne]
      rfl
    · rw [matchesElements_iff hne, Element.read_simple ht htight, ← List.append_nil (t.map _)]
      exact (spells_append_iff htight).2 ⟨[], (List.append_nil t).symm, by simp [Spells]⟩
  rw [accepts_of_not_mem ht.brace, hself]

end HtmlDeps.Glob
