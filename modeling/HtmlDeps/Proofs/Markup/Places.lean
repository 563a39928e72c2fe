import Mathlib.Data.List.Induction
import HtmlDeps.Proofs.Markup.Reads

/-!
# Where tokens stand

The tokens of a scan stand in the document where their positions say (`Scanner.stands_of_mem_scan`).  The offset
of a position follows from its line and column, by a table of where the lines start (`Position.exists_lineStart`).
A token that is more than text begins with `<` (`Token.angle_of_next`).
-/

namespace HtmlDeps

/-! ### Lines and columns -/

namespace Position

/-- Where lines start in a text that has `n` glyphs in front of it, but for the first line. -/
def lineStartsFrom (n : Nat) : Text → List Nat
  | [] => []
  | g :: r => if g = .char '\n' then (n + 1) :: lineStartsFrom (n + 1) r else lineStartsFrom (n + 1) r

/-- Where the lines of a text start. -/
def lineStarts (t : Text) : List Nat := 0 :: lineStartsFrom 0 t

theorem lineStartsFrom_append (n : Nat) (s t : Text) :
    lineStartsFrom n (s ++ t) = lineStartsFrom n s ++ lineStartsFrom (n + s.length) t := by
  induction s generalizing n with
  | nil => rfl
  | cons g s ih =>
    rw [List.cons_append, lineStartsFrom, lineStartsFrom, ih, List.length_cons, Nat.add_right_comm, ← Nat.add_assoc]
    split
    · rfl
    · rfl

/-- The last line of a text starts its column before the end. -/
theorem exists_lastLine (s : Text) : ∃ above k, lineStarts s = above ++ [k] ∧
    (start.advance s).line = above.length + 1 ∧ k + (start.advance s).column = s.length := by
  induction s using List.reverseRecOn with
  | nil => exact ⟨[], 0, rfl, rfl, rfl⟩
  | append_singleton s g ih =>
    obtain ⟨above, k, hstarts, hline, hcolumn⟩ := ih
    have hnext : lineStarts (s ++ [g]) = above ++ [k] ++ lineStartsFrom s.length [g] := by
      rw [← hstarts, lineStarts, lineStartsFrom_append, Nat.zero_add]
      rfl
    have hstep : start.advance (s ++ [g]) = (start.advance s).step g := advance_append _ _ _
    rw [hnext, hstep, step, List.length_append, List.length_singleton]
    by_cases hg : g = .char '\n'
    · rw [if_pos hg]
      exact ⟨above ++ [k], s.length + 1, by simp [lineStartsFrom, hg], by simp [hline], rfl⟩
    · rw [if_neg hg]
      exact ⟨above, k, by simp [lineStartsFrom, hg], hline, by simp only; omega⟩

/-- The offset is where the line starts and the column more. -/
theorem exists_lineStart (s rest : Text) : ∃ k, (lineStarts (s ++ rest))[(start.advance s).line - 1]? = some k ∧
    k + (start.advance s).column = (start.advance s).offset := by
  obtain ⟨above, k, hstarts, hline, hcolumn⟩ := exists_lastLine s
  have hall : lineStarts (s ++ rest) = above ++ k :: lineStartsFrom s.length rest := by
    rw [List.append_cons, ← hstarts, lineStarts, lineStartsFrom_append, Nat.zero_add]
    rfl
  refine ⟨k, ?_, ?_⟩
  · rw [hall, hline, Nat.add_sub_cancel, List.getElem?_append_right (Nat.le_refl _), Nat.sub_self]
    rfl
  · rw [hcolumn, offset_advance]
    exact (Nat.zero_add _).symm

end Position

/-! ### What tokens begin with -/

namespace Token

variable {refs : References} {final : Bool} {raw raw' : Option Text} {t : Text} {e : Event} {n : Nat}

theorem angle_of_nextConstruct (h : nextConstruct t = .token e n raw) : t.head? = some (.char '<') := by
  unfold nextConstruct at h
  split at h
  · rfl
  · rfl
  · rfl
  · rfl
  · rfl
  · rfl
  · cases h

theorem content_of_nextRun {size : Nat} (h : nextRun refs size t = .token e n raw) : e = .content := by
  unfold nextRun at h
  split at h
  · exact (Next.token.inj h).1.symm
  · split at h
    · exact (Next.token.inj h).1.symm
    · cases h

theorem content_of_nextReference (h : nextReference t = .token e n raw) : e = .content := by
  unfold nextReference at h
  split at h
  · split at h
    · exact (Next.token.inj h).1.symm
    · split at h
      · cases h
      · cases h
  · split at h
    · exact (Next.token.inj h).1.symm
    · split at h
      · cases h
      · exact (Next.token.inj h).1.symm
  · cases h

/-- What is more than text begins with `<`. -/
theorem angle_of_next (h : next refs raw final t = .token e n raw') (he : e ≠ .content) :
    t.head? = some (.char '<') := by
  cases raw with
  | some name =>
    simp only [next] at h
    split at h  -- Running text and references give nothing but content.
    · cases h
    · rename_i hfirst
      obtain ⟨r, rfl⟩ := exists_of_startsEndOf (startOfFirst?_eq_zero hfirst)
      rfl
    · exact absurd (Next.token.inj h).1.symm he
  | none =>
    simp only [next] at h
    split at h
    · split at h
      · cases h
      · exact absurd (content_of_nextRun h) he
    · split at h
      · exact absurd (content_of_nextReference h) he
      · cases h
      · cases hx : nextConstruct t with
        | token e' m r => exact angle_of_nextConstruct hx
        | wait =>
          rw [hx, settle] at h
          split at h
          · exact absurd (content_of_nextRun h) he
          · cases h
        | tokenThenWait m =>
          rw [hx] at h
          cases h
        | fault f =>
          rw [hx] at h
          cases h

end Token

/-! ### The tokens of a scan -/

namespace Scanner

variable {refs : References} {final : Bool} {raw : Option Text} {t : Text} {k : Token}

theorem angle_of_mem_passFrom {fuel : Nat} (hk : k ∈ (passFrom refs final fuel raw t).tokens)
    (he : k.event ≠ .content) : k.source.head? = some (.char '<') := by
  induction fuel generalizing raw t with
  | zero => cases hk
  | succ fuel ih =>
    cases t with
    | nil => cases hk
    | cons g r =>
      simp only [passFrom] at hk
      split at hk
      · rename_i e n raw' hnext
        rcases List.mem_cons.1 hk with rfl | hk
        · rw [List.head?_take, if_neg (Nat.ne_of_gt (Token.steps_next _ _ _ _ _ hnext).1)]
          exact Token.angle_of_next hnext he
        · exact ih hk
      · rw [List.mem_singleton.1 hk] at he
        exact absurd rfl he
      · cases hk
      · cases hk

theorem angle_of_mem_finalPass (hk : k ∈ (finalPass refs raw t).tokens) (he : k.event ≠ .content) :
    k.source.head? = some (.char '<') := by
  unfold finalPass at hk
  dsimp only at hk
  split at hk
  · split at hk
    · exact angle_of_mem_passFrom hk he
    · rcases List.mem_append.1 hk with hk | hk
      · exact angle_of_mem_passFrom hk he
      · rw [List.mem_singleton.1 hk] at he
        exact absurd rfl he
  · exact angle_of_mem_passFrom hk he

end Scanner

namespace Located

variable {x : Located} {p : Position} {ts : List Token}

theorem exists_of_mem (h : x ∈ of p ts) :
    ∃ us vs, ts = us ++ x.token :: vs ∧ x.position = p.advance (sources us) := by
  induction ts generalizing p with
  | nil => cases h
  | cons k ts ih =>
    rcases List.mem_cons.1 h with rfl | h
    · exact ⟨[], ts, rfl, rfl⟩
    · obtain ⟨us, vs, rfl, hposition⟩ := ih h
      refine ⟨k :: us, vs, rfl, ?_⟩
      rw [hposition, sources_cons, Position.advance_append]

theorem map_token_of (p : Position) (ts : List Token) : (of p ts).map Located.token = ts := by
  induction ts generalizing p with
  | nil => rfl
  | cons k ts ih => rw [of, List.map_cons, ih]

theorem of_injective {us : List Token} (h : of p ts = of p us) : ts = us := by
  rw [← map_token_of p ts, h, map_token_of]

/-- A token that stands in a text where its position says. -/
structure Stands (t : Text) (x : Located) : Prop where
  position : x.position = Position.start.advance (t.take x.position.offset)
  source : x.token.source <+: t.drop x.position.offset
  angle : x.token.event ≠ .content → x.token.source.head? = some (.char '<')
  closes : x.token.Closes

end Located

theorem Scanner.angle_of_mem_scan {refs : References} {t : Text} {s : Scanner} (h : (scan refs t).outcome = .ok s)
    {ts : List Token} (hts : (scan refs t).tokens = Located.of .start ts) {k : Token} (hk : k ∈ ts)
    (he : k.event ≠ .content) : k.source.head? = some (.char '<') := by
  obtain ⟨raw, rest, raw', rest', -, -, htokens⟩ := scan_eq_ok h
  rw [hts] at htokens
  obtain rfl := Located.of_injective htokens
  rcases List.mem_append.1 hk with hk | hk
  · exact angle_of_mem_passFrom hk he
  · exact angle_of_mem_finalPass hk he

/-- Where the tokens of a scan stand. -/
theorem Scanner.stands_of_mem_scan {refs : References} {t : Text} {s : Scanner} (h : (scan refs t).outcome = .ok s)
    {x : Located} (hx : x ∈ (scan refs t).tokens) : x.Stands t := by
  obtain ⟨ts, rest, htokens, hcover, hcloses⟩ := scan_covers h
  have hmem := hx
  rw [htokens] at hmem
  obtain ⟨us, vs, rfl, hposition⟩ := Located.exists_of_mem hmem
  rw [sources_append, sources_cons, List.append_assoc, List.append_assoc] at hcover
  have hoffset : x.position.offset = (sources us).length := by
    rw [hposition, Position.offset_advance]
    exact Nat.zero_add _
  refine ⟨?_, ?_, fun he => angle_of_mem_scan h htokens (by simp) he, hcloses _ (by simp)⟩
  · rw [hoffset, ← hcover, List.take_left, hposition]
  · rw [hoffset, ← hcover, List.drop_left]
    exact List.prefix_append _ _

end HtmlDeps
