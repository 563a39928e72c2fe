import HtmlDeps.Proofs.Markup.Reads
import HtmlDeps.Proofs.Split.Pieces

/-!
# The tokens of the carrier

The carrier has the tokens of the document but for those in the bodies.  A token stays, since it
depends on its own text and on no glyph that only the bodies have; and the end of a region is read in
the carrier as it is in the document, since a body leaves the element of raw text open that its start
tag opened (`Region.Layout.exists_reads`).
-/

namespace HtmlDeps

open Text

namespace Region

variable {sel : Selector} {text : Text} {p : Position} {k : Token} {ts : List Token} {x : Opening}

/-! ### Tokens and the open region -/

/-- The event ends an open region. -/
def Completes (sel : Selector) (e : Event) : Prop :=
  e = .closed sel.tag ∨ ∃ tag, e = .opened tag ∧ tag.selfClosing = true ∧ tag.name = sel.tag

theorem ofTokens_completes (h : Completes sel k.event) :
    ofTokens sel text (some x) (Located.of p (k :: ts)) =
      ⟨x.1, p.offset, x.2, closingTag (text.drop p.offset)⟩ ::
        ofTokens sel text none (Located.of (p.advance k.source) ts) := by
  rcases h with h | ⟨tag, h, hself, hname⟩
  · simp only [Located.of, ofTokens, h, closed?, if_pos]
  · simp only [Located.of, ofTokens, h, opened, if_pos hself, closed?, if_pos hname]

theorem ofTokens_within (h : ¬ Completes sel k.event) :
    ofTokens sel text (some x) (Located.of p (k :: ts)) =
      ofTokens sel text (some x) (Located.of (p.advance k.source) ts) := by
  cases he : k.event with
  | content => simp only [Located.of, ofTokens, he]
  | closed name =>
    have hname : name ≠ sel.tag := by
      rintro rfl
      exact h (.inl he)
    simp only [Located.of, ofTokens, he, closed?, if_neg hname]
  | opened tag =>
    simp only [Located.of, ofTokens, he, opened]
    by_cases hself : tag.selfClosing = true
    · have hname : tag.name ≠ sel.tag := fun hname => h (.inr ⟨tag, he, hself, hname⟩)
      simp only [if_pos hself, closed?, if_neg hname]
    · simp only [if_neg hself]

theorem ofTokens_opens {tag : Tag} (he : k.event = .opened tag)
    (haccepts : sel.accepts tag.name tag.attributes = true) (hself : tag.selfClosing = false) :
    ofTokens sel text none (Located.of p (k :: ts)) =
      ofTokens sel text (some (p.offset + k.source.length, k.source))
        (Located.of (p.advance k.source) ts) := by
  simp only [Located.of, ofTokens, he, opened, if_pos haccepts, hself]
  rfl

theorem name_of_accepts {name : Text} {attributes : List (Text × Text)}
    (h : sel.accepts name attributes = true) : name = sel.tag := by
  simp only [Selector.accepts, Bool.and_eq_true, beq_iff_eq] at h
  exact h.1.1

theorem ofTokens_selfClosing (text : Text) (p : Position) (ts : List Token) {tag : Tag}
    (he : k.event = .opened tag)
    (haccepts : sel.accepts tag.name tag.attributes = true) (hself : tag.selfClosing = true) :
    ofTokens sel text none (Located.of p (k :: ts)) =
      ⟨p.offset + k.source.length, p.offset, k.source, closingTag (text.drop p.offset)⟩ ::
        ofTokens sel text none (Located.of (p.advance k.source) ts) := by
  simp only [Located.of, ofTokens, he, opened, if_pos haccepts, if_pos hself, closed?,
    if_pos (name_of_accepts haccepts)]

theorem ofTokens_passes
    (h : ∀ tag, k.event = .opened tag → ¬ sel.accepts tag.name tag.attributes = true) :
    ofTokens sel text none (Located.of p (k :: ts)) =
      ofTokens sel text none (Located.of (p.advance k.source) ts) := by
  cases he : k.event with
  | content => simp only [Located.of, ofTokens, he]
  | closed name => simp only [Located.of, ofTokens, he, closed?]
  | opened tag => simp [Located.of, ofTokens, he, opened, if_neg (h tag he), closed?]

/-- Whether tokens make a region depends on their events alone. -/
theorem ofTokens_eq_nil {o o' : Option Opening} {text' : Text} {p' : Position}
    (h : ofTokens sel text o (Located.of p ts) = []) (ho : o.isSome = o'.isSome) :
    ofTokens sel text' o' (Located.of p' ts) = [] := by
  induction ts generalizing o o' p p' with
  | nil => rfl
  | cons k ts ih =>
    cases o with
    | some x =>
      obtain ⟨x', rfl⟩ := Option.isSome_iff_exists.1 ho.symm
      by_cases hk : Completes sel k.event
      · rw [ofTokens_completes hk] at h
        cases h
      · rw [ofTokens_within hk] at h ⊢
        exact ih h rfl
    | none =>
      obtain rfl : o' = none := by simpa using ho.symm
      by_cases hk : ∃ tag, k.event = .opened tag ∧ sel.accepts tag.name tag.attributes = true
      · obtain ⟨tag, he, haccepts⟩ := hk
        by_cases hself : tag.selfClosing = true
        · rw [ofTokens_selfClosing text p ts he haccepts hself] at h
          cases h
        · have hself : tag.selfClosing = false := by simpa using hself
          rw [ofTokens_opens he haccepts hself] at h ⊢
          exact ih h rfl
      · have hpass : ∀ tag, k.event = .opened tag → ¬ sel.accepts tag.name tag.attributes = true :=
          fun tag he haccepts => hk ⟨tag, he, haccepts⟩
        rw [ofTokens_passes hpass] at h ⊢
        exact ih h rfl

/-! ### Raw text in a body -/

/-- The element of raw text that is open in the bodies of regions. -/
def bodyRaw (sel : Selector) : Option Text :=
  if Token.rawElements.contains sel.tag then some sel.tag else none

/-- The element of raw text that is open at a place in a body. -/
structure Inside (sel : Selector) (raw : Option Text) : Prop where
  element : ∀ r ∈ raw, r ∈ Token.rawElements
  own : sel.tag ∈ Token.rawElements → raw = some sel.tag

variable {raw raw' : Option Text} {e : Event}

theorem inside_bodyRaw (sel : Selector) : Inside sel (bodyRaw sel) := by
  by_cases hsel : sel.tag ∈ Token.rawElements
  · have hraw : bodyRaw sel = some sel.tag := by simp [bodyRaw, hsel]
    rw [hraw]
    constructor
    · intro r hr
      rwa [← Option.mem_some.1 hr]
    · intro _
      rfl
  · have hraw : bodyRaw sel = none := by simp [bodyRaw, hsel]
    rw [hraw]
    constructor
    · intro r hr
      cases hr
    · intro h
      exact absurd h hsel

theorem element_of_moves (h : Token.Moves raw e raw') (hraw : ∀ r ∈ raw, r ∈ Token.rawElements) :
    ∀ r ∈ raw', r ∈ Token.rawElements := by
  cases h with
  | content => exact hraw
  | closed =>
    intro r hr
    cases hr
  | opened tag =>
    intro r hr
    simp only [Token.rawOf, Option.mem_def] at hr
    split at hr
    · rename_i h
      simp only [Bool.and_eq_true, List.contains_iff_mem] at h
      rw [← Option.some.inj hr]
      exact h.2
    · cases hr

/-- A body is left by the event that ends the region, and by no other. -/
theorem Inside.step (h : Inside sel raw) (hmoves : Token.Moves raw e raw')
    (he : ¬ Completes sel e) : Inside sel raw' := by
  refine ⟨element_of_moves hmoves h.element, fun hsel => ?_⟩
  have hraw := h.own hsel
  cases hmoves with
  | content => exact hraw
  | closed hname =>
    have hown := hname sel.tag hraw
    exact absurd (.inl (congrArg Event.closed hown)) he
  | opened tag => cases hraw

theorem Inside.raw_eq (h : Inside sel raw) (hmoves : Token.Moves raw e raw')
    (he : Completes sel e) : raw = bodyRaw sel := by
  by_cases hsel : sel.tag ∈ Token.rawElements
  · rw [h.own hsel]
    simp [bodyRaw, hsel]
  · have hbody : bodyRaw sel = none := by simp [bodyRaw, hsel]
    rw [hbody]
    rcases he with rfl | ⟨tag, rfl, -⟩
    · cases hmoves with
      | closed hname =>
        cases raw with
        | none => rfl
        | some r =>
          have hr := hname r rfl
          subst hr
          exact absurd (h.element _ rfl) hsel
    · cases hmoves
      rfl

theorem rawOf_eq_bodyRaw {tag : Tag} (hname : tag.name = sel.tag)
    (hself : tag.selfClosing = false) : Token.rawOf tag = bodyRaw sel := by
  simp [Token.rawOf, bodyRaw, hname, hself]

theorem stop_not_mem_rawElements (h : ∀ r ∈ raw, r ∈ Token.rawElements) :
    ∀ name ∈ raw, Glyph.char '>' ∉ name := by
  have hall : ∀ name ∈ Token.rawElements, Glyph.char '>' ∉ name := by decide
  intro name hname
  exact hall name (h name hname)

/-! ### The carrier -/

theorem remainder_subset {t : Text} {lo cursor : Nat} {rs : List Region} (hchain : Chain t lo rs)
    (hforward : Forward rs) (hcursor : cursor ≤ lo) : remainder t cursor rs ⊆ t.drop cursor := by
  induction rs generalizing lo cursor with
  | nil => exact List.Subset.refl _
  | cons r rs ih =>
    have hstart : cursor ≤ r.start := Nat.le_trans hcursor (Nat.le_of_lt hchain.1.lt_start)
    have hr : r.start ≤ r.stop := hforward r List.mem_cons_self
    have hrest := ih hchain.2 (fun x hx => hforward x (List.mem_cons_of_mem _ hx))
      (Nat.le_max_right _ _)
    have hsplit : t.drop cursor =
        (t.take r.start).drop cursor ++ ((t.take r.stop).drop r.start ++ t.drop r.stop) := by
      rw [drop_take_append_drop hr, drop_take_append_drop hstart]
    rw [remainder, hsplit]
    intro g hg
    rcases List.mem_append.1 hg with hg | hg
    · exact List.mem_append_left _ hg
    · exact List.mem_append_right _ (List.mem_append_right _ (hrest hg))

theorem drop_drop_take (t : Text) (p : Position) (n : Nat) :
    (t.drop p.offset).drop n = t.drop (p.advance ((t.drop p.offset).take n)).offset := by
  rw [Position.offset_advance, ← List.drop_drop, List.length_take]
  rcases Nat.le_total n (t.drop p.offset).length with hn | hn
  · rw [Nat.min_eq_left hn]
  · rw [Nat.min_eq_right hn, List.drop_length, List.drop_of_length_le hn]

theorem offset_advance_take_le {t : Text} (hp : p.offset ≤ t.length) (n : Nat) :
    (p.advance ((t.drop p.offset).take n)).offset ≤ t.length := by
  rw [Position.offset_advance, List.length_take, List.length_drop]
  omega

/-- In front of a region stands the `>` of its start tag. -/
theorem exists_front {t : Text} {lo m : Nat} {r : Region} (h : r.Sits t lo) (hm : m < r.start) :
    ∃ v, (t.take r.start).drop m = v ++ [.char '>'] ∧ m + v.length + 1 = r.start := by
  obtain ⟨⟨hlen, w, hw⟩, -, -, -⟩ := h
  have hwlen : w.length + 1 = r.start := by
    have := congrArg List.length hw
    rw [List.length_take, Nat.min_eq_left hlen, List.length_append, List.length_singleton] at this
    exact this.symm
  refine ⟨w.drop m, ?_, ?_⟩
  · rw [hw, List.drop_append_of_le_length (by omega)]
  · rw [List.length_drop]
    omega

/-- What a token takes of a text tells its size. -/
theorem within_of_take {v y : Text} {n : Nat} {raw₁ : Option Text}
    (hnext : Token.next .kept raw false (v ++ .char '>' :: y) = .token e n raw₁)
    (h : ((v ++ .char '>' :: y).take n).length ≤ v.length ∨
      ((v ++ .char '>' :: y).take n).length = v.length + 1 ∧ ∃ tag, e = .opened tag) :
    Token.Within v e n := by
  rw [List.length_take, List.length_append, List.length_cons] at h
  rcases h with h | ⟨h, tag, rfl⟩
  · exact .inl (by omega)
  · obtain ⟨body, after, hbody, rfl⟩ := Token.next_opened hnext
    have hlen := congrArg List.length hbody
    simp only [List.length_append, List.length_cons] at hlen
    exact .inr ⟨by omega, tag, rfl⟩

/-- A token of the document is read off the carrier as well, if it ends before the bodies that are
left out. -/
theorem reads_remainder {t rest : Text} {lo n : Nat} {rs : List Region} {raw₁ : Option Text}
    {us : List Token} (hraw : ∀ r ∈ raw, r ∈ Token.rawElements)
    (hnext : Token.next .kept raw false (t.drop p.offset) = .token e n raw₁)
    (hchain : Chain t lo rs) (hforward : Forward rs)
    (hroom : ∀ r ∈ rs.head?, (p.advance ((t.drop p.offset).take n)).offset < r.start ∨
      (p.advance ((t.drop p.offset).take n)).offset = r.start ∧ ∃ tag, e = .opened tag)
    (more :
      Reads raw₁ (remainder t (p.advance ((t.drop p.offset).take n)).offset rs) us raw' rest) :
    Reads raw (remainder t p.offset rs) (⟨(t.drop p.offset).take n, e⟩ :: us) raw' rest := by
  cases rs with
  | nil =>
    rw [remainder, ← drop_drop_take] at more
    exact .token hnext more
  | cons r rs =>
    have hroom := hroom r rfl
    have hsource := Token.length_take_pos hnext
    rw [Position.offset_advance] at hroom more
    -- A region starts right behind a `>`, which is in the carrier as well: reading stops there in both.
    obtain ⟨v, hfront, hv⟩ := exists_front hchain.1 (m := p.offset) (by omega)
    have htext : t.drop p.offset = v ++ .char '>' :: t.drop r.start := by
      rw [← drop_take_append_drop (n := r.start) (by omega), hfront, List.append_assoc]
      rfl
    have hcarrier : remainder t p.offset (r :: rs) = v ++ .char '>' :: remainder t r.stop rs := by
      rw [remainder, hfront, List.append_assoc]
      rfl
    -- What comes behind it in the carrier is a part of what comes behind it in the document.
    have hsubset : remainder t r.stop rs ⊆ t.drop r.start := by
      have hlater := remainder_subset hchain.2 (fun x hx => hforward x (List.mem_cons_of_mem _ hx))
        (Nat.le_max_right _ _)
      rw [← drop_take_append_drop (hforward r List.mem_cons_self)]
      exact List.subset_append_of_subset_right _ hlater
    rw [htext] at hnext hroom more ⊢
    have hwithin : Token.Within v e n := by
      apply within_of_take hnext
      rcases hroom with hroom | ⟨hroom, htag⟩
      · exact .inl (by omega)
      · exact .inr ⟨by omega, htag⟩
    have hn : n ≤ (v ++ [Glyph.char '>']).length := by
      rw [List.length_append, List.length_singleton]
      exact hwithin.le_succ
    have hsplit (y : Text) : v ++ Glyph.char '>' :: y = (v ++ [.char '>']) ++ y := by simp
    have htake (y : Text) : (v ++ Glyph.char '>' :: y).take n = (v ++ [Glyph.char '>']).take n := by
      rw [hsplit, List.take_append_of_le_length hn]
    have hsize : ((v ++ [Glyph.char '>']).take n).length = n := by
      rw [List.length_take, Nat.min_eq_left hn]
    have hdrop : (remainder t p.offset (r :: rs)).drop n =
        remainder t (p.offset + n) (r :: rs) := by
      rw [hcarrier, hsplit, List.drop_append_of_le_length hn, ← hfront, List.drop_drop, remainder]
    rw [htake, hsize, ← hdrop, hcarrier] at more
    rw [hcarrier, htake, ← htake (remainder t r.stop rs)]
    exact .token (Token.next_local (stop_not_mem_rawElements hraw) hnext hwithin hsubset) more

/-- The regions in what is read from a place on lie behind it. -/
theorem chain_of_reads (sel : Selector) {t rest : Text} (hread : Reads raw (t.drop p.offset) ts raw' rest)
    (hp : p.offset ≤ t.length) : Chain t p.offset (ofTokens sel t none (Located.of p ts)) := by
  have ht : t = t.take p.offset ++ sources ts ++ rest := by
    rw [List.append_assoc, hread.sources_append_rest, List.take_append_drop]
  have hlen : p.offset = (t.take p.offset).length := by rw [List.length_take, Nat.min_eq_left hp]
  exact chain_ofTokens sel ts hread.closes ht hlen (Nat.le_refl _) (awaits_none _ _ _)

/-- From within a body, reading goes on to the token that ends the region, and behind it. -/
theorem exists_completes {t t₁ rest : Text} {more : List Token} {r : Region} {rs : List Region}
    (hread : Reads raw t₁ ts raw' rest) (hraw : Inside sel raw)
    (hrs : ofTokens sel t (some x) (Located.of p ts) = r :: rs)
    (hall : ofTokens sel t (some x) (Located.of p (ts ++ more)) = r :: rs) :
    ∃ body t₂ e n raw₂ us, t₁ = body ++ t₂ ∧
      Token.next .kept (bodyRaw sel) false t₂ = .token e n raw₂ ∧ Completes sel e ∧
      Reads raw₂ (t₂.drop n) us raw' rest ∧ us.length < ts.length ∧
      r.start = x.1 ∧ r.stop = p.offset + body.length ∧
      ofTokens sel t none (Located.of ((p.advance body).advance (t₂.take n)) us) = rs ∧
      ofTokens sel t none
        (Located.of ((p.advance body).advance (t₂.take n)) (us ++ more)) = rs := by
  -- By induction over the tokens of the body: the first that completes the region ends it.
  induction hread generalizing p with
  | done => cases hrs
  | @token raw raw₁ _ t₁ _ e n ts hnext hmore ih =>
    have hmoves := (Token.steps_next _ _ _ _ _ hnext).2
    by_cases he : Completes sel e
    · rw [List.cons_append, ofTokens_completes he] at hall
      rw [ofTokens_completes he] at hrs
      obtain ⟨hr, htail⟩ := List.cons.inj hrs
      obtain ⟨-, htailAll⟩ := List.cons.inj hall
      subst hr
      rw [hraw.raw_eq hmoves he] at hnext
      exact ⟨[], t₁, e, n, raw₁, ts, rfl, hnext, he, hmore, Nat.lt_succ_self _, rfl, rfl, htail,
        htailAll⟩
    · rw [List.cons_append, ofTokens_within he] at hall
      rw [ofTokens_within he] at hrs
      obtain ⟨body, t₂, e', n', raw₂, us, ht, hend, he', hus, hlen, hstart, hstop, hrs, hall⟩ :=
        ih (hraw.step hmoves he) hrs hall
      refine ⟨t₁.take n ++ body, t₂, e', n', raw₂, us, ?_, hend, he', hus, Nat.lt_succ_of_lt hlen,
        hstart, ?_, ?_, ?_⟩
      · rw [List.append_assoc, ← ht, List.take_append_drop]
      · rw [hstop, Position.offset_advance, List.length_append, Nat.add_assoc]
      · rw [Position.advance_append]
        exact hrs
      · rw [Position.advance_append]
        exact hall

theorem lt_of_mem_head? {t : Text} {lo : Nat} {rs : List Region} (h : Chain t lo rs) :
    ∀ r ∈ rs.head?, lo < r.start := by
  intro r hr
  cases rs with
  | nil => cases hr
  | cons r₁ rs =>
    obtain rfl := Option.some.inj hr
    exact h.1.lt_start

/-- The tags of a region follow each other in the carrier. -/
theorem reads_region {t rest : Text} {q : Position} {n n' : Nat} {tag : Tag} {r : Region}
    {rs : List Region} {raw₁ : Option Text} {us : List Token}
    (hraw : ∀ r ∈ raw, r ∈ Token.rawElements)
    (hopen : Token.next .kept raw false (t.drop p.offset) = .token (.opened tag) n (bodyRaw sel))
    (hclose : Token.next .kept (bodyRaw sel) false (t.drop q.offset) = .token e n' raw₁)
    (hstart : r.start = (p.advance ((t.drop p.offset).take n)).offset) (hstop : r.stop = q.offset)
    (hchain : Chain t p.offset (r :: rs))
    (hlater : Chain t (q.advance ((t.drop q.offset).take n')).offset rs)
    (hforward : Forward (r :: rs))
    (more :
      Reads raw₁ (remainder t (q.advance ((t.drop q.offset).take n')).offset rs) us raw' rest) :
    Reads raw (remainder t p.offset (r :: rs))
      (⟨(t.drop p.offset).take n, .opened tag⟩ :: ⟨(t.drop q.offset).take n', e⟩ :: us)
      raw' rest := by
  have hforward' : Forward rs := fun x hx => hforward x (List.mem_cons_of_mem _ hx)
  have hend : Reads (bodyRaw sel) (remainder t q.offset rs)
      (⟨(t.drop q.offset).take n', e⟩ :: us) raw' rest := by
    apply reads_remainder (inside_bodyRaw sel).element hclose hlater hforward' _ more
    intro r' hr'
    exact .inl (lt_of_mem_head? hlater r' hr')
  apply reads_remainder hraw hopen hchain hforward
  · intro r' hr'
    obtain rfl := Option.some.inj hr'
    exact .inr ⟨hstart.symm, tag, rfl⟩
  · rw [← hstart, remainder, List.drop_eq_nil_of_le (List.length_take_le _ _), List.nil_append,
      hstop]
    exact hend

theorem spans_region {tag : Tag} {s s' : Text} {us : List Token}
    (haccepts : sel.accepts tag.name tag.attributes = true) (hself : tag.selfClosing = false)
    (he : Completes sel e) :
    spans (ofTokens sel text none (Located.of p (⟨s, .opened tag⟩ :: ⟨s', e⟩ :: us))) =
      (p.offset + s.length, p.offset + s.length) ::
        spans (ofTokens sel text none (Located.of ((p.advance s).advance s') us)) := by
  rw [ofTokens_opens rfl haccepts hself, ofTokens_completes he]
  simp only [spans, List.map_cons, Position.offset_advance]

/-! ### Regions among the tokens -/

/-- How a document reads from a place on that no region holds: tokens that open no region, and
regions, each with its start tag and the token that ends it.  In the end come tokens that make no
region, together with those that may follow. -/
inductive Layout (sel : Selector) (t : Text) (more : List Token) (raw' : Option Text) (rest : Text) :
    Option Text → Position → List Region → Prop where
  | plain {raw : Option Text} {p : Position} {ts : List Token}
      (read : Reads raw (t.drop p.offset) ts raw' rest)
      (empty : ofTokens sel t none (Located.of p (ts ++ more)) = []) :
      Layout sel t more raw' rest raw p []
  | token {raw raw₁ : Option Text} {p : Position} {e : Event} {n : Nat} {rs : List Region}
      (next : Token.next .kept raw false (t.drop p.offset) = .token e n raw₁)
      (passes : ∀ tag, e = .opened tag → ¬ sel.accepts tag.name tag.attributes = true)
      (chain : Chain t (p.advance ((t.drop p.offset).take n)).offset rs)
      (tail : Layout sel t more raw' rest raw₁ (p.advance ((t.drop p.offset).take n)) rs) :
      Layout sel t more raw' rest raw p rs
  | region {raw raw₁ : Option Text} {p q : Position} {tag : Tag} {e : Event} {n n' : Nat}
      {r : Region} {rs : List Region}
      (opens : Token.next .kept raw false (t.drop p.offset) = .token (.opened tag) n (bodyRaw sel))
      (accepts : sel.accepts tag.name tag.attributes = true) (goesOn : tag.selfClosing = false)
      (closes : Token.next .kept (bodyRaw sel) false (t.drop q.offset) = .token e n' raw₁)
      (completes : Completes sel e)
      (start : r.start = (p.advance ((t.drop p.offset).take n)).offset) (stop : r.stop = q.offset)
      (chain : Chain t p.offset (r :: rs))
      (later : Chain t (q.advance ((t.drop q.offset).take n')).offset rs)
      (tail : Layout sel t more raw' rest raw₁ (q.advance ((t.drop q.offset).take n')) rs) :
      Layout sel t more raw' rest raw p (r :: rs)

/-- The regions of what is read are laid out among its tokens. -/
theorem layout_of_reads {t rest : Text} {more : List Token} {rs : List Region}
    (hread : Reads raw (t.drop p.offset) ts raw' rest) (hp : p.offset ≤ t.length)
    (hrs : ofTokens sel t none (Located.of p ts) = rs)
    (hall : ofTokens sel t none (Located.of p (ts ++ more)) = rs) (hforward : Forward rs) :
    Layout sel t more raw' rest raw p rs := by
  -- a region is passed in one go, so that the number of tokens shrinks by more than one
  induction hlen : ts.length using Nat.strong_induction_on generalizing raw ts p rs with
  | _ len ih =>
    cases rs with
    | nil => exact .plain hread hall
    | cons r rs =>
      have hchain := chain_of_reads sel hread hp
      rw [hrs] at hchain
      cases hread with
      | done => cases hrs
      | @token _ raw₁ _ _ _ e n ts hnext hmore =>
        have hp₁ := offset_advance_take_le hp n
        rw [drop_drop_take] at hmore
        by_cases hopens : ∃ tag, e = .opened tag ∧ sel.accepts tag.name tag.attributes = true
        · obtain ⟨tag, rfl, haccepts⟩ := hopens
          have hself : tag.selfClosing = false := by
            refine Bool.eq_false_iff.2 fun hself => ?_
            -- the region would stop before it starts
            rw [ofTokens_selfClosing t p ts rfl haccepts hself] at hrs
            obtain ⟨rfl, -⟩ := List.cons.inj hrs
            exact absurd hchain.1.lt_start (Nat.not_lt.2 (hforward _ List.mem_cons_self))
          obtain rfl : raw₁ = bodyRaw sel := by
            cases (Token.steps_next _ _ _ _ _ hnext).2
            exact rawOf_eq_bodyRaw (name_of_accepts haccepts) hself
          rw [ofTokens_opens rfl haccepts hself] at hrs
          rw [List.cons_append, ofTokens_opens rfl haccepts hself] at hall
          obtain ⟨body, t₂, e', n', raw₂, us, htext, hclose, he', hus, hshort, hstart, hstop, hrest,
            hrestAll⟩ := exists_completes hmore (inside_bodyRaw sel) hrs hall
          rw [← Position.offset_advance] at hstart hstop
          set q := (p.advance ((t.drop p.offset).take n)).advance body with hq
          obtain rfl : t₂ = t.drop q.offset := by
            rw [hq, Position.offset_advance, ← List.drop_drop, htext, List.drop_left]
          have hp₂ := offset_advance_take_le (hstop ▸ hchain.1.stop_le) n'
          rw [drop_drop_take] at hus
          have hlater := chain_of_reads sel hus hp₂
          rw [hrest] at hlater
          have htail := ih us.length (hlen ▸ Nat.lt_succ_of_lt hshort) hus hp₂ hrest hrestAll
            (fun x hx => hforward x (List.mem_cons_of_mem _ hx)) rfl
          exact .region hnext haccepts hself hclose he' hstart hstop hchain hlater htail
        · have hpass : ∀ tag, e = .opened tag → ¬ sel.accepts tag.name tag.attributes = true :=
            fun tag he haccepts => hopens ⟨tag, he, haccepts⟩
          rw [ofTokens_passes hpass] at hrs
          rw [List.cons_append, ofTokens_passes hpass] at hall
          have hlater := chain_of_reads sel hmore hp₁
          rw [hrs] at hlater
          exact .token hnext hpass hlater
            (ih ts.length (hlen ▸ Nat.lt_succ_self _) hmore hp₁ hrs hall hforward rfl)

/-- **The tokens of the carrier.**  What a document has from a place on can be read off the carrier,
with the same left to follow, and the regions are there where the scripts belong. -/
theorem Layout.exists_reads {path : Path} {t rest : Text} {more : List Token} {rs : List Region}
    {ps : List (Part × Text)} {index removed : Nat}
    (h : Layout sel t more raw' rest raw p rs) (hraw : ∀ r ∈ raw, r ∈ Token.rawElements)
    (hforward : Forward rs) (hparts : partsOf path t index removed rs = .ok ps) :
    ∃ us, Reads raw (remainder t p.offset rs) us raw' rest ∧
      ∀ t' p', p'.offset + removed = p.offset →
        spans (ofTokens sel t' none (Located.of p' (us ++ more))) = seams ps := by
  induction h generalizing ps index removed with
  | @plain raw p ts hread hempty =>
    obtain rfl := Except.ok.inj hparts  -- nothing is left out
    refine ⟨ts, hread, fun t' p' _ => ?_⟩
    rw [ofTokens_eq_nil hempty rfl]
    rfl
  | token hnext hpass hchain _ ih =>
    have hmoves := (Token.steps_next _ _ _ _ _ hnext).2
    obtain ⟨us, hus, hspans⟩ := ih (element_of_moves hmoves hraw) hforward hparts
    refine ⟨_, reads_remainder hraw hnext hchain hforward ?_ hus, fun t' p' hp' => ?_⟩
    · intro r hr
      exact .inl (lt_of_mem_head? hchain r hr)
    · rw [List.cons_append, ofTokens_passes hpass]
      apply hspans
      rw [Position.offset_advance, Nat.add_right_comm, hp', Position.offset_advance]
  | @region raw raw₁ p q tag e n n' r rs hopen haccepts hself hclose he hstart hstop hchain hlater _
      ih =>
    obtain ⟨path', ps, -, hscripts, rfl⟩ := partsOf_cons hparts
    have hmoves := (Token.steps_next _ _ _ _ _ hclose).2
    obtain ⟨us, hus, hspans⟩ := ih (element_of_moves hmoves (inside_bodyRaw sel).element)
      (fun x hx => hforward x (List.mem_cons_of_mem _ hx)) hscripts
    refine ⟨_, reads_region hraw hopen hclose hstart hstop hchain hlater hforward hus, ?_⟩
    intro t' p' hp'
    have hr : r.start ≤ r.stop := hforward r List.mem_cons_self
    have hlength := length_body hchain.1.stop_le
    rw [Position.offset_advance] at hstart
    have hseam : p'.offset + ((t.drop p.offset).take n).length = r.start - removed := by omega
    have hbehind : ((p'.advance ((t.drop p.offset).take n)).advance
        ((t.drop q.offset).take n')).offset + (removed + (r.body t).length) =
          (q.advance ((t.drop q.offset).take n')).offset := by
      simp only [Position.offset_advance]
      omega
    rw [List.cons_append, List.cons_append, spans_region haccepts hself he, hspans _ _ hbehind,
      hseam]
    rfl

end Region
end HtmlDeps
