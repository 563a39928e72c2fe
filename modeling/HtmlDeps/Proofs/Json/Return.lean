import HtmlDeps.Json.Printer
import HtmlDeps.Json.Reader
import Mathlib.Tactic.SplitIfs

/-!
# JSON that is read back

A value of texts, lists and maps has a JSON form exactly if no text in it holds a stray byte, and from that
form it is read back (`Json.read?_print`).  This is said of each kind of value for itself (`returns_text`,
`returns_list`, `returns_record`), so that it can be put together for values of any shape.
-/

namespace HtmlDeps

/-- A text without stray bytes. -/
def Text.Clean (t : Text) : Prop := ∀ b, .stray b ∉ t

namespace Text

theorem chars?_eq_some {t : Text} {cs : List Char} : chars? t = some cs ↔ t = cs.map .char := by
  induction t generalizing cs with
  | nil => cases cs <;> simp [chars?]
  | cons g t ih =>
    cases g with
    | stray b => cases cs <;> simp [chars?]
    | char c =>
      rw [chars?, Option.map_eq_some_iff]
      cases cs with
      | nil => simp
      | cons c' cs =>
        constructor
        · rintro ⟨_, h, heq⟩
          obtain ⟨rfl, rfl⟩ := List.cons.inj heq
          rw [ih.1 h]
          rfl
        · intro h
          obtain ⟨hc, ht⟩ := List.cons.inj h
          exact ⟨cs, ih.2 ht, by rw [Glyph.char.inj hc]⟩

theorem clean_iff {t : Text} : t.Clean ↔ ∃ cs, chars? t = some cs := by
  simp only [chars?_eq_some]
  constructor
  · intro h
    induction t with
    | nil => exact ⟨[], rfl⟩
    | cons g t ih =>
      obtain ⟨cs, rfl⟩ := ih fun b hb => h b (List.mem_cons_of_mem g hb)
      cases g with
      | char c => exact ⟨c :: cs, rfl⟩
      | stray b => exact absurd List.mem_cons_self (h b)
  · rintro ⟨cs, rfl⟩ b hb
    simp at hb

theorem clean_ofString (s : String) : Clean (ofString s) := by
  intro b hb
  simp [ofString] at hb

end Text

namespace Json

variable {t r b : Text} {fuel d : Nat} {l : Layout} {v : Value} {vs : List Value}

/-! ### Strings -/

theorem hex4?_hexDigits {n : Nat} (hn : n < 32) (r : Text) : hex4? (Text.hexDigits 4 n ++ r) = some (n, r) := by
  have hdigits : ∀ n < 32, (Text.hexDigits 4 n).all Glyph.isHexDigit ∧ Text.inBase 16 (Text.hexDigits 4 n) = n := by
    decide
  obtain ⟨hhex, hvalue⟩ := hdigits n hn
  have hfour : ∀ a b c d : Glyph, hex4? ([a, b, c, d] ++ r) =
      if [a, b, c, d].all Glyph.isHexDigit then some (Text.inBase 16 [a, b, c, d], r) else none :=
    fun _ _ _ _ => rfl
  exact (hfour _ _ _ _).trans ((if_pos hhex).trans (congrArg (fun m => some (m, r)) hvalue))

theorem unicode_of_lt {n : Nat} (hn : n < 32) (r : Text) : unicode n r = (.char (Char.ofNat n), r) := by
  unfold unicode
  rw [if_neg (by omega), if_neg (by omega), if_neg (by omega)]

/-- The character that a letter behind a backslash stands for. -/
theorem stringFrom_short {c letter : Char} (h : (letter, c) ∈ [('"', '"'), ('\\', '\\'), ('n', '\n'), ('r', '\r'),
    ('t', '\t'), ('b', '\x08'), ('f', '\x0c')]) (fuel : Nat) (r : Text) :
    stringFrom (fuel + 1) (.char '\\' :: .char letter :: r) =
      (stringFrom fuel r).map fun x => (.char c :: x.1, x.2) := by
  simp only [List.mem_cons, Prod.mk.injEq, List.not_mem_nil, or_false] at h
  rcases h with ⟨rfl, rfl⟩ | ⟨rfl, rfl⟩ | ⟨rfl, rfl⟩ | ⟨rfl, rfl⟩ | ⟨rfl, rfl⟩ | ⟨rfl, rfl⟩ | ⟨rfl, rfl⟩ <;>
    cases h : stringFrom fuel r <;> simp [stringFrom, h]

theorem stringFrom_unicode {n : Nat} (hn : n < 32) (fuel : Nat) (r : Text) :
    stringFrom (fuel + 1) (.char '\\' :: .char 'u' :: (Text.hexDigits 4 n ++ r)) =
      (stringFrom fuel r).map fun x => (.char (Char.ofNat n) :: x.1, x.2) := by
  rw [stringFrom, hex4?_hexDigits hn]
  simp only [Option.bind_eq_bind, Option.bind_some, unicode_of_lt hn]
  cases stringFrom fuel r <;> rfl

theorem stringFrom_plain {c : Char} (hquote : c ≠ '"') (hbackslash : c ≠ '\\') (fuel : Nat) (r : Text) :
    stringFrom (fuel + 1) (.char c :: r) = (stringFrom fuel r).map fun x => (.char c :: x.1, x.2) := by
  rw [stringFrom]
  · cases stringFrom fuel r <;> rfl
  · simpa using hquote
  · intro r' h
    simp_all
  · intro r' h
    simp_all

/-- An escaped character is read as that character. -/
theorem stringFrom_escape (c : Char) (fuel : Nat) (r : Text) :
    stringFrom (fuel + 1) (escape c ++ r) = (stringFrom fuel r).map fun x => (.char c :: x.1, x.2) := by
  unfold escape
  split_ifs with hquote hbackslash hline hreturn htab hback hfeed hcontrol
  · exact hquote ▸ stringFrom_short (by decide) fuel r
  · exact hbackslash ▸ stringFrom_short (by decide) fuel r
  · exact hline ▸ stringFrom_short (by decide) fuel r
  · exact hreturn ▸ stringFrom_short (by decide) fuel r
  · exact htab ▸ stringFrom_short (by decide) fuel r
  · exact hback ▸ stringFrom_short (by decide) fuel r
  · exact hfeed ▸ stringFrom_short (by decide) fuel r
  · have hread := stringFrom_unicode hcontrol fuel r
    rwa [Char.ofNat_toNat] at hread
  · exact stringFrom_plain hquote hbackslash fuel r

theorem stringFrom_escapes (cs : List Char) (r : Text) (hfuel : cs.length < fuel) :
    stringFrom fuel (cs.flatMap escape ++ .char '"' :: r) = some (cs.map .char, r) := by
  induction cs generalizing fuel with
  | nil =>
    obtain ⟨fuel, rfl⟩ := Nat.exists_eq_add_of_lt hfuel
    rfl
  | cons c cs ih =>
    cases fuel with
    | zero => cases hfuel
    | succ fuel =>
      rw [List.flatMap_cons, List.append_assoc, stringFrom_escape, ih (by simpa using hfuel)]
      rfl

/-! ### Blanks -/

/-- A text of blanks. -/
def Blank (t : Text) : Prop := ∀ g ∈ t, g ∈ ([.char ' ', .char '\n', .char '\r', .char '\t'] : Text)

/-- A layout that puts nothing but blanks between items, and a colon behind a key. -/
structure Layout.Spaced (l : Layout) : Prop where
  item : ∀ d, Blank (l.item d)
  closing : ∀ d, Blank (l.closing d)
  colon : ∃ b, l.colon = .char ':' :: b ∧ Blank b

theorem spaced_indented : indented.Spaced := by
  have hline : ∀ n, Blank (.char '\n' :: List.replicate n (.char ' ')) := by
    intro n g hg
    rcases List.mem_cons.1 hg with rfl | hg
    · decide
    · rw [List.eq_of_mem_replicate hg]
      decide
  exact ⟨fun d => hline _, fun d => hline _, [.char ' '], rfl, by unfold Blank; decide⟩

theorem skip_append (h : Blank b) (t : Text) : skip (b ++ t) = skip t := by
  refine List.dropWhile_append_of_pos fun g hg => ?_
  have hg := h g hg
  simp only [List.mem_cons, List.not_mem_nil, or_false] at hg
  rcases hg with rfl | rfl | rfl | rfl <;> rfl

theorem valueFrom_append (h : Blank b) (fuel : Nat) (t : Text) : valueFrom fuel (b ++ t) = valueFrom fuel t := by
  cases fuel with
  | zero => rfl
  | succ fuel => rw [valueFrom, valueFrom, skip_append h]

/-- The glyphs that begin a text, a list or a map. -/
def openers : Text := "\"[\x7b"

theorem skip_of_opener {g : Glyph} (hg : g ∈ openers) (r : Text) : skip (g :: r) = g :: r := by
  have hblank : ∀ g ∈ openers, (g == .char ' ' || g == .char '\n' || g == .char '\r' || g == .char '\t') = false := by
    decide
  exact List.dropWhile_cons_of_neg (by simp [hblank g hg])

/-! ### Values -/

/-- How a value is written at any depth: if it is clean, in a form that is read back whatever follows it, and else
not at all. -/
def Returns (l : Layout) (v : Value) (clean : Prop) : Prop := ∀ d,
  ¬ clean ∧ write l d v = .error .strayByte ∨
    clean ∧ ∃ g ∈ openers, ∃ t, write l d v = .ok (g :: t) ∧
      ∀ fuel r, t.length < fuel → valueFrom fuel (g :: (t ++ r)) = some (v, r)

theorem escape_ne_nil (c : Char) : escape c ≠ [] := by
  unfold escape
  split_ifs <;> simp [Text.ofString]

theorem length_le_escapes (cs : List Char) : cs.length ≤ (cs.flatMap escape).length := by
  induction cs with
  | nil => exact Nat.le_refl 0
  | cons c cs ih =>
    have hpos := List.length_pos_iff.2 (escape_ne_nil c)
    rw [List.flatMap_cons, List.length_append, List.length_cons]
    omega

/-- A string is read back behind its opening quote. -/
theorem stringFrom_string {s : Text} (h : string t = .ok s) :
    ∃ body, s = .char '"' :: body ∧ ∀ r, stringFrom (body ++ r).length.succ (body ++ r) = some (t, r) := by
  unfold string at h
  cases hchars : Text.chars? t with
  | none =>
    rw [hchars] at h
    cases h
  | some cs =>
    rw [hchars] at h
    refine ⟨_, (Except.ok.inj h).symm, fun r => ?_⟩
    have hlength := length_le_escapes cs
    rw [Text.chars?_eq_some.1 hchars, List.append_assoc, List.singleton_append,
      stringFrom_escapes cs r (by rw [List.length_append]; omega)]

theorem string_eq (t : Text) :
    ¬ t.Clean ∧ string t = .error .strayByte ∨ t.Clean ∧ ∃ body, string t = .ok (.char '"' :: body) ∧
      ∀ r, stringFrom (body ++ r).length.succ (body ++ r) = some (t, r) := by
  rw [Text.clean_iff]
  cases hchars : Text.chars? t with
  | none => exact .inl ⟨by simp, by rw [string, hchars]⟩
  | some cs =>
    have hstring : string t = .ok (.char '"' :: (cs.flatMap escape ++ [.char '"'])) := by rw [string, hchars]
    obtain ⟨body, heq, hread⟩ := stringFrom_string hstring
    exact .inr ⟨⟨cs, rfl⟩, body, heq ▸ hstring, hread⟩

/-! ### How the reader goes on -/

theorem valueFrom_quote (fuel : Nat) (r : Text) : valueFrom (fuel + 1) (.char '"' :: r) =
    (stringFrom r.length.succ r).map fun x => (.text x.1, x.2) := by
  rw [valueFrom, skip_of_opener (by decide)]
  rfl

theorem valueFrom_list {g : Glyph} (hg : g ∈ openers) (fuel : Nat) (hb : Blank b) (r : Text) :
    valueFrom (fuel + 1) (.char '[' :: (b ++ g :: r)) =
      (itemsFrom fuel (g :: r)).map fun x => (.list x.1, x.2) := by
  have hclosing : ∀ g ∈ openers, g ≠ .char ']' := by decide
  have hopen : skip (.char '[' :: (b ++ g :: r)) = .char '[' :: (b ++ g :: r) := skip_of_opener (by decide) _
  have hskip : skip (b ++ g :: r) = g :: r := (skip_append hb _).trans (skip_of_opener hg r)
  simp only [valueFrom, hopen, hskip]
  split
  · rename_i heq
    exact absurd (List.cons.inj heq).1 (hclosing g hg)
  · rfl

theorem itemsFrom_append (h : Blank b) (fuel : Nat) (t : Text) : itemsFrom fuel (b ++ t) = itemsFrom fuel t := by
  cases fuel with
  | zero => rfl
  | succ fuel => rw [itemsFrom, itemsFrom, valueFrom_append h]

theorem itemsFrom_comma (hread : valueFrom fuel t = some (v, .char ',' :: r)) :
    itemsFrom (fuel + 1) t = (itemsFrom fuel r).map fun x => (v :: x.1, x.2) := by
  have hskip : skip (.char ',' :: r) = .char ',' :: r := List.dropWhile_cons_of_neg (by decide)
  rw [itemsFrom, hread]
  simp only [Option.bind_eq_bind, Option.bind_some, hskip]
  cases itemsFrom fuel r <;> rfl

theorem itemsFrom_closing (hread : valueFrom fuel t = some (v, b ++ .char ']' :: r)) (hb : Blank b) :
    itemsFrom (fuel + 1) t = some ([v], r) := by
  have hskip : skip (b ++ .char ']' :: r) = .char ']' :: r := by
    rw [skip_append hb]
    exact List.dropWhile_cons_of_neg (by decide)
  rw [itemsFrom, hread]
  simp only [Option.bind_eq_bind, Option.bind_some, hskip]
  rfl

theorem valueFrom_map (fuel : Nat) (hb : Blank b) (r : Text) :
    valueFrom (fuel + 1) (.char '\x7b' :: (b ++ .char '"' :: r)) =
      (entriesFrom fuel (.char '"' :: r)).map fun x => (.map x.1, x.2) := by
  have hopen : skip (.char '\x7b' :: (b ++ .char '"' :: r)) = .char '\x7b' :: (b ++ .char '"' :: r) :=
    skip_of_opener (by decide) _
  have hskip : skip (b ++ .char '"' :: r) = .char '"' :: r := (skip_append hb _).trans (skip_of_opener (by decide) r)
  simp only [valueFrom, hopen, hskip]
  rfl

theorem entriesFrom_append (h : Blank b) (fuel : Nat) (t : Text) : entriesFrom fuel (b ++ t) = entriesFrom fuel t := by
  cases fuel with
  | zero => rfl
  | succ fuel => rw [entriesFrom, entriesFrom, skip_append h]

section

variable {k body : Text} (hkey : stringFrom body.length.succ body = some (k, .char ':' :: t))

include hkey

theorem entriesFrom_comma (hread : valueFrom fuel t = some (v, .char ',' :: r)) :
    entriesFrom (fuel + 1) (.char '"' :: body) = (entriesFrom fuel r).map fun x => ((.text k, v) :: x.1, x.2) := by
  have hcolon : skip (.char ':' :: t) = .char ':' :: t := List.dropWhile_cons_of_neg (by decide)
  have hcomma : skip (.char ',' :: r) = .char ',' :: r := List.dropWhile_cons_of_neg (by decide)
  rw [entriesFrom, skip_of_opener (by decide)]
  simp only [hkey, Option.bind_eq_bind, Option.bind_some, hcolon, hread, hcomma]
  cases entriesFrom fuel r <;> rfl

theorem entriesFrom_closing (hread : valueFrom fuel t = some (v, b ++ .char '\x7d' :: r)) (hb : Blank b) :
    entriesFrom (fuel + 1) (.char '"' :: body) = some ([(.text k, v)], r) := by
  have hcolon : skip (.char ':' :: t) = .char ':' :: t := List.dropWhile_cons_of_neg (by decide)
  have hclosing : skip (b ++ .char '\x7d' :: r) = .char '\x7d' :: r := by
    rw [skip_append hb]
    exact List.dropWhile_cons_of_neg (by decide)
  rw [entriesFrom, skip_of_opener (by decide)]
  simp only [hkey, Option.bind_eq_bind, Option.bind_some, hcolon, hread, hclosing]
  rfl

end

/-! ### Texts, lists and maps -/

theorem returns_text (l : Layout) (t : Text) : Returns l (.text t) t.Clean := by
  intro d
  have hwrite : write l d (.text t) = string t := rfl
  rcases string_eq t with ⟨hclean, herror⟩ | ⟨hclean, body, hok, hread⟩
  · exact .inl ⟨hclean, hwrite.trans herror⟩
  · refine .inr ⟨hclean, .char '"', by decide, body, hwrite.trans hok, fun fuel r hfuel => ?_⟩
    cases fuel with
    | zero => cases hfuel
    | succ fuel =>
      rw [valueFrom_quote, hread]
      rfl

section

variable {α : Type} {value : α → Value} {clean : α → Prop} {xs : List α} (hl : l.Spaced)
  (hxs : ∀ x ∈ xs, Returns l (value x) (clean x))

include hl hxs

/-- The items of a list are read back up to the bracket at its end. -/
theorem returns_items (hne : xs ≠ []) (d : Nat) :
    ¬ (∀ x ∈ xs, clean x) ∧ writeItems l d (xs.map value) = .error .strayByte ∨
      (∀ x ∈ xs, clean x) ∧ ∃ g ∈ openers, ∃ t, writeItems l d (xs.map value) = .ok (l.item d ++ g :: t) ∧
        ∀ fuel b r, Blank b → t.length + 1 < fuel →
          itemsFrom fuel (g :: (t ++ (b ++ .char ']' :: r))) = some (xs.map value, r) := by
  -- The last item stands before the bracket, and the others before a comma: two cases of a list that
  -- is not empty.
  induction xs with
  | nil => exact absurd rfl hne
  | cons x xs ih =>
    rw [List.forall_mem_cons] at hxs ⊢
    rw [List.map_cons]
    rcases hxs.1 (d + 1) with ⟨hclean, hfirst⟩ | ⟨hclean, g, hg, first, hfirst, hread⟩
    · exact .inl ⟨fun h => hclean h.1, by rw [writeItems, hfirst]; rfl⟩
    · cases xs with
      | nil =>
        refine .inr ⟨⟨hclean, List.forall_mem_nil _⟩, g, hg, first, ?_, fun fuel b r hb hfuel => ?_⟩
        · rw [writeItems, hfirst, List.map_nil, writeItems]
          simp [bind, Except.bind, pure, Except.pure]
        · cases fuel with
          | zero => cases hfuel
          | succ fuel => exact itemsFrom_closing (hread fuel _ (by omega)) hb
      | cons x' xs =>
        rcases ih hxs.2 (List.cons_ne_nil x' xs) with ⟨hrest, hitems⟩ | ⟨hrest, g', hg', rest, hitems, hback⟩
        · exact .inl ⟨fun h => hrest h.2, by rw [writeItems, hfirst, hitems]; rfl⟩
        · refine .inr ⟨⟨hclean, hrest⟩, g, hg, first ++ .char ',' :: (l.item d ++ g' :: rest), ?_, ?_⟩
          · rw [writeItems, hfirst, hitems]
            simp [bind, Except.bind, pure, Except.pure]
          · intro fuel b r hb hfuel
            simp only [List.length_append, List.length_cons] at hfuel
            cases fuel with
            | zero => cases hfuel
            | succ fuel =>
              simp only [List.append_assoc, List.cons_append]
              rw [itemsFrom_comma (hread fuel _ (by omega)), itemsFrom_append (hl.item d),
                hback fuel b r hb (by omega)]
              rfl

/-- **A list** is clean if all of its items are. -/
theorem returns_list : Returns l (.list (xs.map value)) (∀ x ∈ xs, clean x) := by
  intro d
  cases xs with
  | nil =>
    refine .inr ⟨List.forall_mem_nil _, .char '[', by decide, [.char ']'], rfl, fun fuel r hfuel => ?_⟩
    cases fuel with
    | zero => cases hfuel
    | succ fuel =>
      rw [valueFrom, skip_of_opener (by decide)]
      rfl
  | cons x xs =>
    have hwrite : write l d (.list ((x :: xs).map value)) = writeItems l d ((x :: xs).map value) >>= fun items =>
        pure ("[" ++ items ++ l.closing d ++ "]") := rfl
    rcases returns_items hl hxs (List.cons_ne_nil x xs) d with ⟨hclean, hitems⟩ | ⟨hclean, g, hg, t, hitems, hread⟩
    · exact .inl ⟨hclean, by rw [hwrite, hitems]; rfl⟩
    · refine .inr ⟨hclean, .char '[', by decide, l.item d ++ g :: (t ++ (l.closing d ++ [.char ']'])), ?_, ?_⟩
      · rw [hwrite, hitems]
        simp [bind, Except.bind, pure, Except.pure, Text.ofString]
      · intro fuel r hfuel
        simp only [List.length_append, List.length_cons] at hfuel
        cases fuel with
        | zero => cases hfuel
        | succ fuel =>
          simp only [List.append_assoc, List.cons_append, List.nil_append]
          rw [valueFrom_list hg fuel (hl.item d), hread fuel _ r (hl.closing d) (by omega)]
          rfl

/-- The entries of a map are read back up to the bracket at its end. -/
theorem returns_entries (key : α → Text) (hne : xs ≠ []) (d : Nat) :
    ¬ (∀ x ∈ xs, (key x).Clean ∧ clean x) ∧
        writeEntries l d (xs.map fun x => (.text (key x), value x)) = .error .strayByte ∨
      (∀ x ∈ xs, (key x).Clean ∧ clean x) ∧
        ∃ t, writeEntries l d (xs.map fun x => (.text (key x), value x)) = .ok (l.item d ++ .char '"' :: t) ∧
        ∀ fuel b r, Blank b → t.length + 1 < fuel → entriesFrom fuel (.char '"' :: (t ++ (b ++ .char '\x7d' :: r))) =
          some (xs.map fun x => (.text (key x), value x), r) := by
  obtain ⟨colon, hcolon, hblank⟩ := hl.colon
  -- The last entry stands before the bracket, and the others before a comma: two cases of a list that
  -- is not empty.
  induction xs with
  | nil => exact absurd rfl hne
  | cons x xs ih =>
    rw [List.forall_mem_cons] at hxs ⊢
    rw [List.map_cons]
    rcases string_eq (key x) with ⟨hk, hkey⟩ | ⟨hk, body, hkey, hbody⟩
    · exact .inl ⟨fun h => hk h.1.1, by rw [writeEntries, hkey]; rfl⟩
    · rcases hxs.1 (d + 1) with ⟨hclean, hfirst⟩ | ⟨hclean, g, hg, first, hfirst, hread⟩
      · exact .inl ⟨fun h => hclean h.1.2, by rw [writeEntries, hkey, hfirst]; rfl⟩
      · cases xs with
        | nil =>
          refine .inr ⟨⟨⟨hk, hclean⟩, List.forall_mem_nil _⟩, body ++ .char ':' :: (colon ++ g :: first), ?_, ?_⟩
          · rw [writeEntries, hkey, hfirst, hcolon, List.map_nil, writeEntries]
            simp [bind, Except.bind, pure, Except.pure]
          · intro fuel b r hb hfuel
            simp only [List.length_append, List.length_cons] at hfuel
            cases fuel with
            | zero => cases hfuel
            | succ fuel =>
              simp only [List.append_assoc, List.cons_append]
              refine entriesFrom_closing (hbody _) ?_ hb
              rw [valueFrom_append hblank]
              exact hread fuel _ (by omega)
        | cons x' xs =>
          rcases ih hxs.2 (List.cons_ne_nil x' xs) with ⟨hrest, hentries⟩ | ⟨hrest, rest, hentries, hback⟩
          · exact .inl ⟨fun h => hrest h.2, by rw [writeEntries, hkey, hfirst, hentries]; rfl⟩
          · refine .inr ⟨⟨⟨hk, hclean⟩, hrest⟩,
              body ++ .char ':' :: (colon ++ g :: (first ++ .char ',' :: (l.item d ++ .char '"' :: rest))), ?_, ?_⟩
            · rw [writeEntries, hkey, hfirst, hentries, hcolon]
              simp [bind, Except.bind, pure, Except.pure]
            · intro fuel b r hb hfuel
              simp only [List.length_append, List.length_cons] at hfuel
              cases fuel with
              | zero => cases hfuel
              | succ fuel =>
                simp only [List.append_assoc, List.cons_append]
                rw [entriesFrom_comma (hbody _) (by rw [valueFrom_append hblank]; exact hread fuel _ (by omega)),
                  entriesFrom_append (hl.item d), hback fuel b r hb (by omega)]
                rfl

/-- **A map** with texts for keys is clean if all of its keys and values are. -/
theorem returns_record (key : α → Text) :
    Returns l (.record (xs.map fun x => (key x, value x))) (∀ x ∈ xs, (key x).Clean ∧ clean x) := by
  intro d
  have hrecord : Value.record (xs.map fun x => (key x, value x)) = .map (xs.map fun x => (.text (key x), value x)) := by
    simp [Value.record]
  rw [hrecord]
  cases xs with  -- An empty map is written without the blanks that stand around entries.
  | nil =>
    refine .inr ⟨List.forall_mem_nil _, .char '\x7b', by decide, [.char '\x7d'], rfl, fun fuel r hfuel => ?_⟩
    cases fuel with
    | zero => cases hfuel
    | succ fuel =>
      rw [valueFrom, skip_of_opener (by decide)]
      rfl
  | cons x xs =>
    have hwrite : write l d (.map ((x :: xs).map fun x => (.text (key x), value x))) =
        writeEntries l d ((x :: xs).map fun x => (.text (key x), value x)) >>= fun entries =>
          pure ("\x7b" ++ entries ++ l.closing d ++ "\x7d") := rfl
    rcases returns_entries hl hxs key (List.cons_ne_nil x xs) d with ⟨hclean, hentries⟩ | ⟨hclean, t, hentries, hread⟩
    · exact .inl ⟨hclean, by rw [hwrite, hentries]; rfl⟩
    · refine .inr ⟨hclean, .char '\x7b', by decide, l.item d ++ .char '"' :: (t ++ (l.closing d ++ [.char '\x7d'])), ?_, ?_⟩
      · rw [hwrite, hentries]
        simp [bind, Except.bind, pure, Except.pure, Text.ofString]
      · intro fuel r hfuel
        simp only [List.length_append, List.length_cons] at hfuel
        cases fuel with
        | zero => cases hfuel
        | succ fuel =>
          simp only [List.append_assoc, List.cons_append, List.nil_append]
          rw [valueFrom_map fuel (hl.item d), hread fuel _ r (hl.closing d) (by omega)]
          rfl

end

/-- A value of that kind is printed and read back, or a stray byte is in the way. -/
theorem read?_print {clean : Prop} (h : Returns indented v clean) :
    ¬ clean ∧ printIndented v = .error .strayByte ∨
      clean ∧ ∃ t, printIndented v = .ok t ∧ read? t = some v := by
  rcases h 0 with ⟨hclean, herror⟩ | ⟨hclean, g, -, t, hok, hread⟩
  · exact .inl ⟨hclean, herror⟩
  · refine .inr ⟨hclean, g :: t, hok, ?_⟩
    have hall := hread ((g :: t).length + 1) [] (by rw [List.length_cons]; omega)
    rw [List.append_nil] at hall
    rw [read?, hall]
    rfl

end Json
end HtmlDeps
