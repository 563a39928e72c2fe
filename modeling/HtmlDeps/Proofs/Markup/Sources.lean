import Mathlib.Data.List.TakeWhile
import HtmlDeps.Markup.Scanner

/-!
# The sources of tokens

A scan loses nothing of a document: the sources of its tokens, one after the other, are a prefix of
the text, and each token stands where its position says (`Scanner.scan_covers`).  The source of a
start tag ends with `>`.
-/

namespace HtmlDeps

namespace Tag

/-! ### Start tags are their parts one after the other -/

theorem cutGap_append (t : Text) : (cutGap t).1 ++ (cutGap t).2 = t := by
  fun_induction cutGap t with
  | case1 => rfl
  | case2 => rfl
  | case3 g r _ _ gap rest hcut ih =>
    rw [hcut] at ih
    simpa using ih
  | case4 => rfl

theorem append_of_cutAt {p : Glyph → Bool} {t a b : Text} (h : Text.cutAt p t = (a, b)) :
    a ++ b = t := by
  have := Text.cutAt_append p t
  rwa [h] at this

theorem cutBare_append (t : Text) : (cutBare t).1 ++ (cutBare t).2 = t := Text.cutAt_append _ t

theorem append_of_cutGap {t a b : Text} (h : cutGap t = (a, b)) : a ++ b = t := by
  have := cutGap_append t
  rwa [h] at this

/-- A run of equals signs ends with one. -/
theorem dropLast_equals {t equals rest : Text}
    (h : Text.cutAt (fun g => g != .char '=') t = (equals, rest)) (hne : equals ≠ []) :
    equals.dropLast ++ [.char '='] = equals := by
  have hall : ∀ g ∈ equals, g = .char '=' := by
    intro g hg
    have hpart : equals = t.takeWhile fun g => !(g != .char '=') := (congrArg Prod.fst h).symm
    rw [hpart] at hg
    simpa using List.mem_takeWhile_imp hg
  rw [← hall _ (List.getLast_mem hne), List.dropLast_concat_getLast hne]

/-- An assignment and what is left make up the text. -/
theorem source_append_rest {t : Text} {a : Assignment} (h : assignment? t = some a) :
    a.source ++ a.rest = t := by
  rcases hlead : Text.cutAt (fun g => !g.isBlank) t with ⟨lead, t₁⟩
  rcases hequals : Text.cutAt (fun g => g != .char '=') t₁ with ⟨equals, t₂⟩
  rcases hgap : Text.cutAt (fun g => !g.isBlank) t₂ with ⟨gap, t₃⟩
  simp only [assignment?, hlead, hequals, hgap] at h
  have ht : lead ++ (equals ++ (gap ++ t₃)) = t := by
    rw [append_of_cutAt hgap, append_of_cutAt hequals, append_of_cutAt hlead]
  by_cases hempty : equals.isEmpty = true
  · simp [hempty] at h
  have hne : equals ≠ [] := by simpa using hempty
  rw [if_neg hempty] at h
  cases t₃ with
  | nil =>
    obtain rfl := Option.some.inj h
    simpa using ht
  | cons q r =>
    simp only at h
    by_cases hq : isQuote q = true
    · rw [if_pos hq] at h
      split at h
      · rename_i v close rest hquoted
        obtain rfl := Option.some.inj h
        rw [← ht, ← append_of_cutAt hquoted]
        simp
      · -- the quote is never closed
        split at h
        · rename_i g hlast
          obtain rfl := Option.some.inj h
          obtain ⟨before, rfl⟩ := List.getLast?_eq_some_iff.1 hlast
          rw [← ht]
          simp
        · rename_i hlast
          split at h
          · cases h
          · obtain rfl := Option.some.inj h
            rw [List.getLast?_eq_none_iff.1 hlast] at ht
            rw [← ht, List.append_assoc, cutBare_append]
            calc lead ++ equals.dropLast ++ .char '=' :: q :: r
                = lead ++ ((equals.dropLast ++ [.char '=']) ++ ([] ++ q :: r)) := by simp
              _ = lead ++ (equals ++ ([] ++ q :: r)) := by rw [dropLast_equals hequals hne]
    · rw [if_neg hq] at h
      obtain rfl := Option.some.inj h
      rw [← ht, List.append_assoc, cutBare_append]
      simp

theorem append_of_attribute? {g : Glyph} {t source rest : Text} {a : RawAttribute}
    (h : attribute? g t = some (a, source, rest)) : source ++ rest = t := by
  cases t with
  | nil => simp [attribute?] at h
  | cons x r =>
    simp only [attribute?] at h
    split at h
    · cases h
    · rcases hname : Text.cutAt
        (fun g => g.isBlank || g == .char '/' || g == .char '=' || g == .char '>') r with ⟨more, t₁⟩
      simp only [hname] at h
      rw [← append_of_cutAt hname]
      split at h
      · rename_i b hassign
        simp only [Option.some.injEq, Prod.mk.injEq] at h
        obtain ⟨-, rfl, rfl⟩ := h
        rw [← source_append_rest hassign, List.append_assoc, cutGap_append]
        simp
      · simp only [Option.some.injEq, Prod.mk.injEq] at h
        obtain ⟨-, rfl, rfl⟩ := h
        rw [List.append_assoc, cutGap_append]
        simp

theorem append_of_attributesFrom {fuel : Nat} {g : Glyph} {t source rest : Text}
    {as : List RawAttribute} (h : attributesFrom fuel g t = (as, source, rest)) :
    source ++ rest = t := by
  induction fuel generalizing g t source rest as with
  | zero =>
    simp only [attributesFrom, Prod.mk.injEq] at h
    simp [← h.2.1, ← h.2.2]
  | succ fuel ih =>
    simp only [attributesFrom] at h
    split at h
    · simp only [Prod.mk.injEq] at h
      simp [← h.2.1, ← h.2.2]
    · rename_i a first mid hfirst
      rcases hmore : attributesFrom fuel (first.getLast?.getD g) mid with ⟨bs, more, last⟩
      simp only [hmore, Prod.mk.injEq] at h
      rw [← h.2.1, ← h.2.2, List.append_assoc, ih hmore, append_of_attribute? hfirst]

/-- A tag that was read whole ends with `>`; its size counts the `<` in front as well. -/
theorem read_whole {t : Text} {tag : Tag} {n : Nat} (h : read t = .ok (.whole tag n)) :
    ∃ body rest, t = body ++ .char '>' :: rest ∧ n = body.length + 2 := by
  rcases hname : Text.cutAt endsName t with ⟨name, t₁⟩
  rcases hgap : cutGap t₁ with ⟨gap, t₂⟩
  rcases hattrs : attributesFrom t₂.length ((name ++ gap).getLast?.getD (.char '<')) t₂ with
    ⟨raw, source, rest⟩
  have ht : name ++ (gap ++ (source ++ rest)) = t := by
    rw [append_of_attributesFrom hattrs, append_of_cutGap hgap, append_of_cutAt hname]
  simp only [read, hname, hgap, hattrs] at h  -- A whole tag ends with `>`, with or without a slash in front.
  split at h
  · cases h
  · rename_i after
    cases hres : resolveAttributes raw with
    | error e => simp [hres, bind, Except.bind] at h
    | ok attrs =>
      simp [hres, bind, Except.bind, pure, Except.pure] at h
      refine ⟨name ++ gap ++ source, after, by simp [← ht], ?_⟩
      simp [← h.2]
      omega
  · rename_i after
    cases hres : resolveAttributes raw with
    | error e => simp [hres, bind, Except.bind] at h
    | ok attrs =>
      simp [hres, bind, Except.bind, pure, Except.pure] at h
      refine ⟨name ++ gap ++ source ++ [.char '/'], after, by simp [← ht], ?_⟩
      simp [← h.2]
      omega
  · split at h
    · cases h
    · cases hres : resolveAttributes raw with
      | error e => simp [hres, bind, Except.bind] at h
      | ok attrs => simp [hres, bind, Except.bind, pure, Except.pure] at h

end Tag

/-! ### What a start tag's token takes -/

namespace Token

/-- Not a start tag. -/
def Plain (x : Next) : Prop := ∀ tag n raw, x ≠ .token (.opened tag) n raw

theorem plain_nextEnd (raw : Option Text) (t : Text) : Plain (nextEnd raw t) := by
  intro tag n raw' h
  simp only [nextEnd] at h
  repeat' split at h
  all_goals simp at h

theorem plain_contentOrWait (raw : Option Text) (n : Option Nat) : Plain (contentOrWait raw n) := by
  intro tag m raw' h
  cases n <;> simp [contentOrWait] at h

theorem plain_nextSection (t : Text) : Plain (nextSection t) := by
  intro tag n raw' h
  simp only [nextSection] at h
  repeat' split at h
  all_goals first | exact plain_contentOrWait _ _ _ _ _ h | simp at h

theorem plain_nextReference (t : Text) : Plain (nextReference t) := by
  intro tag n raw' h
  simp only [nextReference] at h
  repeat' split at h
  all_goals simp at h

theorem plain_nextRun (refs : References) (size : Nat) (t : Text) : Plain (nextRun refs size t) := by
  intro tag n raw' h
  simp only [nextRun] at h
  repeat' split at h
  all_goals simp at h

/-- The token takes a piece of the text that ends with `>`. -/
def EndsTag (t : Text) (n : Nat) : Prop := ∃ body rest, t = body ++ .char '>' :: rest ∧ n = body.length + 1

theorem nextStart_opened {t : Text} {tag : Tag} {n : Nat} {raw : Option Text}
    (ht : ∃ r, t = .char '<' :: r) (h : nextStart t = .token (.opened tag) n raw) : EndsTag t n := by
  obtain ⟨r, rfl⟩ := ht
  simp only [nextStart, List.drop_succ_cons, List.drop_zero] at h
  split at h
  · cases h
  · cases h
  · cases h
  · rename_i tag' m hread
    simp only [Next.token.injEq] at h
    obtain ⟨body, rest, rfl, hm⟩ := Tag.read_whole hread
    exact ⟨.char '<' :: body, rest, rfl, by simp [← h.2.1, hm]⟩

theorem nextConstruct_opened {t : Text} {tag : Tag} {n : Nat} {raw : Option Text}
    (h : nextConstruct t = .token (.opened tag) n raw) : EndsTag t n := by
  simp only [nextConstruct] at h
  split at h
  · exact absurd h (plain_nextEnd _ _ _ _ _)
  · exact absurd h (plain_contentOrWait _ _ _ _ _)
  · exact absurd h (plain_nextSection _ _ _ _)
  · exact absurd h (plain_contentOrWait _ _ _ _ _)
  · exact absurd h (plain_contentOrWait _ _ _ _ _)
  · split at h
    · exact nextStart_opened ⟨_, rfl⟩ h
    · cases h
  · cases h

theorem next_opened {refs : References} {raw raw' : Option Text} {final : Bool} {t : Text}
    {tag : Tag} {n : Nat} (h : next refs raw final t = .token (.opened tag) n raw') :
    EndsTag t n := by
  cases raw with
  | some name =>
    simp only [next] at h
    split at h
    · cases h
    · exact absurd h (plain_nextEnd _ _ _ _ _)
    · cases h
  | none =>
    simp only [next] at h
    split at h
    · split at h
      · cases h
      · exact absurd h (plain_nextRun _ _ _ _ _ _)
    · split at h
      · exact absurd h (plain_nextReference _ _ _ _)
      · cases h
      · -- a construct, which counts as text if it waits at the end of the document
        cases hx : nextConstruct t with
        | token e m r => rw [hx] at h; exact nextConstruct_opened (hx.trans h)
        | tokenThenWait m => rw [hx] at h; cases h
        | wait =>
          simp only [hx, settle] at h
          split at h
          · exact absurd h (plain_nextRun _ _ _ _ _ _)
          · cases h
        | fault f => rw [hx] at h; cases h

end Token

/-! ### A scan covers the document -/

/-- The sources of tokens, one after the other. -/
def sources (ts : List Token) : Text := ts.flatMap Token.source

@[simp] theorem sources_nil : sources [] = [] := rfl

@[simp] theorem sources_cons (t : Token) (ts : List Token) :
    sources (t :: ts) = t.source ++ sources ts := rfl

@[simp] theorem sources_append (ts us : List Token) :
    sources (ts ++ us) = sources ts ++ sources us := List.flatMap_append

/-- The source of a start tag ends with `>`. -/
def Token.Closes (t : Token) : Prop :=
  ∀ tag, t.event = .opened tag → ∃ body, t.source = body ++ [.char '>']

theorem Token.closes_content (t : Text) : Token.Closes ⟨t, .content⟩ := by
  intro tag h
  cases h

theorem Located.of_append (p : Position) (ts us : List Token) :
    Located.of p (ts ++ us) = Located.of p ts ++ Located.of (p.advance (sources ts)) us := by
  induction ts generalizing p with
  | nil => rfl
  | cons t ts ih => simp [Located.of, ih]

namespace Scanner

theorem passFrom_covers {refs : References} {final : Bool} {fuel : Nat} {raw raw' : Option Text}
    {t rest : Text} (h : (passFrom refs final fuel raw t).stop = .ok (raw', rest)) :
    sources (passFrom refs final fuel raw t).tokens ++ rest = t ∧
      ∀ k ∈ (passFrom refs final fuel raw t).tokens, k.Closes := by
  induction fuel generalizing raw t with
  | zero =>
    simp only [passFrom, Except.ok.injEq, Prod.mk.injEq] at h
    simp [passFrom, h.2]
  | succ fuel ih =>
    cases t with
    | nil =>
      simp only [passFrom, Except.ok.injEq, Prod.mk.injEq] at h
      simp [passFrom, h.2]
    | cons g r =>
      simp only [passFrom] at h ⊢
      split at h
      · rename_i event size raw₁ hnext
        -- A token takes its source off the text, and the rest is covered by those behind it.
        obtain ⟨hcover, hcloses⟩ := ih h
        refine ⟨?_, ?_⟩
        · simp [hcover]
        · intro k hk
          rcases List.mem_cons.1 hk with rfl | hk
          · intro tag htag
            simp only at htag
            subst htag
            obtain ⟨body, rest, ht, hsize⟩ := Token.next_opened hnext
            exact ⟨body, by simp [ht, hsize, List.take_append, List.take_of_length_le]⟩
          · exact hcloses k hk
      · simp only [Except.ok.injEq, Prod.mk.injEq] at h
        simp [← h.2, Token.closes_content]
      · simp only [Except.ok.injEq, Prod.mk.injEq] at h
        simp [h.2]
      · cases h

theorem finalPass_covers {refs : References} {raw raw' : Option Text} {t rest : Text}
    (h : (finalPass refs raw t).stop = .ok (raw', rest)) :
    sources (finalPass refs raw t).tokens ++ rest = t ∧
      ∀ k ∈ (finalPass refs raw t).tokens, k.Closes := by
  simp only [finalPass] at h ⊢
  split at h
  · rename_i g r hstop
    obtain ⟨hcover, hcloses⟩ := passFrom_covers hstop
    split at h
    · cases h
    · -- what is left over becomes one more piece of text
      simp only [Except.ok.injEq, Prod.mk.injEq] at h
      refine ⟨?_, ?_⟩
      · simpa [← h.2, pass] using hcover
      · intro k hk
        rcases List.mem_append.1 hk with hk | hk
        · exact hcloses k hk
        · rw [List.mem_singleton.1 hk]
          exact Token.closes_content _
  · exact passFrom_covers h

/-- A scan is a pass over the document and a final one over what it leaves. -/
theorem scan_eq_ok {refs : References} {t : Text} {s : Scanner} (h : (scan refs t).outcome = .ok s) :
    ∃ raw rest raw' rest', (pass refs false none t).stop = .ok (raw, rest) ∧
      (finalPass refs raw rest).stop = .ok (raw', rest') ∧
      (scan refs t).tokens =
        Located.of .start ((pass refs false none t).tokens ++ (finalPass refs raw rest).tokens) := by
  simp only [scan, feedAll] at h ⊢
  split at h
  · cases h
  · rename_i s₁ hfeed
    simp only [feed, resume, close, start, List.nil_append] at h hfeed ⊢
    cases hpass : (pass refs false none t).stop with
    | error f => simp [hpass, Except.map] at hfeed
    | ok p =>
      obtain ⟨raw, rest⟩ := p
      simp only [hpass, Except.map, Except.ok.injEq] at hfeed
      subst hfeed
      cases hfinal : (finalPass refs raw rest).stop with
      | error f => simp [hfinal, Except.map] at h
      | ok p =>
        obtain ⟨raw', rest'⟩ := p
        refine ⟨raw, rest, raw', rest', rfl, hfinal, ?_⟩
        rw [Located.of_append]
        rfl

/-- The tokens of a scan that meets no fault: each where its position says, their sources a prefix
of the document, and every start tag up to its `>`. -/
theorem scan_covers {refs : References} {t : Text} {s : Scanner}
    (h : (scan refs t).outcome = .ok s) :
    ∃ ts rest, (scan refs t).tokens = Located.of .start ts ∧ sources ts ++ rest = t ∧
      ∀ k ∈ ts, k.Closes := by
  obtain ⟨raw, rest, raw', rest', hpass, hfinal, htokens⟩ := scan_eq_ok h
  obtain ⟨hcover, hcloses⟩ := passFrom_covers hpass
  obtain ⟨hcover', hcloses'⟩ := finalPass_covers hfinal
  refine ⟨_, rest', htokens, ?_, fun k hk => (List.mem_append.1 hk).elim (hcloses k) (hcloses' k)⟩
  rw [sources_append, List.append_assoc, hcover']
  exact hcover

end Scanner
end HtmlDeps
