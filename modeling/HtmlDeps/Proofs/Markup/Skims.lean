import HtmlDeps.Proofs.Markup.Places

/-!
# Skimming a document

Running text makes no difference to what a scan finds, wherever it is cut.  `Skims` reads a document in any such
way, at whose end no more text comes.  All ways meet: what one has read, another has too, up to the cuts
(`Skims.exists_rest`), and where there is no way to go on, they have found the same marks (`Skims.unique`).
-/

namespace HtmlDeps

/-- Reading that may cut running text anywhere. -/
inductive Skims : Option Text → Text → List Token → Option Text → Text → Prop where
  | done (raw : Option Text) (t : Text) : Skims raw t [] raw t
  | text {a t rest : Text} {ts : List Token} {raw : Option Text} (ha : a ≠ []) (hrun : .char '<' ∉ a)
      (more : Skims none t ts raw rest) : Skims none (a ++ t) (⟨a, .content⟩ :: ts) raw rest
  | token {raw raw' raw'' : Option Text} {t rest : Text} {e : Event} {n : Nat} {ts : List Token}
      (front : raw = none → t.head? = some (.char '<')) (h : Token.next .kept raw true t = .token e n raw')
      (more : Skims raw' (t.drop n) ts raw'' rest) : Skims raw t (⟨t.take n, e⟩ :: ts) raw'' rest

/-- There is no way to go on. -/
def Halts (raw : Option Text) (t : Text) : Prop :=
  t = [] ∨ (raw = none → t.head? = some (.char '<')) ∧
    ∀ e n raw', Token.next .kept raw true t ≠ .token e n raw'

/-- The tokens that are more than text, with their offsets; the first token begins at `n`. -/
def marks (n : Nat) : List Token → List (Nat × Token)
  | [] => []
  | k :: ts =>
    if k.event = .content then marks (n + k.source.length) ts else (n, k) :: marks (n + k.source.length) ts

variable {raw raw' raw'' : Option Text} {t a rest last : Text} {ts us : List Token} {n : Nat}

theorem marks_content (n : Nat) (a : Text) (ts : List Token) :
    marks n (⟨a, .content⟩ :: ts) = marks (n + a.length) ts := if_pos rfl

theorem marks_append (n : Nat) (ts us : List Token) :
    marks n (ts ++ us) = marks n ts ++ marks (n + (sources ts).length) us := by
  induction ts generalizing n with
  | nil => rfl
  | cons k ts ih =>
    rw [List.cons_append, marks, marks, ih, sources_cons, List.length_append, Nat.add_assoc]
    split
    · rfl
    · rfl

theorem le_of_mem_marks {x : Nat × Token} (h : x ∈ marks n ts) : n ≤ x.1 := by
  induction ts generalizing n with
  | nil => cases h
  | cons k ts ih =>
    rw [marks] at h
    split at h
    · exact Nat.le_trans (Nat.le_add_right _ _) (ih h)
    · rcases List.mem_cons.1 h with rfl | h
      · exact Nat.le_refl _
      · exact Nat.le_trans (Nat.le_add_right _ _) (ih h)

theorem lt_of_mem_marks {x : Nat × Token} (h : x ∈ marks n ts) (hsource : ∀ k ∈ ts, k.source ≠ []) :
    x.1 < n + (sources ts).length := by
  induction ts generalizing n with
  | nil => cases h
  | cons k ts ih =>
    rw [List.forall_mem_cons] at hsource
    rw [marks] at h
    rw [sources_cons, List.length_append, ← Nat.add_assoc]
    split at h
    · exact ih h hsource.2
    · rcases List.mem_cons.1 h with rfl | h
      · have hpos := List.length_pos_iff.2 hsource.1
        omega
      · exact ih h hsource.2

theorem mem_of_head?_append {g : Glyph} (ha : a ≠ []) (h : (a ++ t).head? = some g) : g ∈ a := by
  obtain ⟨x, a, rfl⟩ := List.exists_cons_of_ne_nil ha
  obtain rfl := Option.some.inj h
  exact List.mem_cons_self

namespace Skims

theorem append (h : Skims raw t ts raw' rest) (h' : Skims raw' rest us raw'' last) :
    Skims raw t (ts ++ us) raw'' last := by
  induction h with
  | done => exact h'
  | text ha hrun _ ih => exact .text ha hrun (ih h')
  | token front hnext _ ih => exact .token front hnext (ih h')

/-- The tokens that are read and what is left make up the text. -/
theorem sources_append_rest (h : Skims raw t ts raw' rest) : sources ts ++ rest = t := by
  induction h with
  | done => rfl
  | text _ _ _ ih => rw [sources_cons, List.append_assoc, ih]
  | token _ _ _ ih => rw [sources_cons, List.append_assoc, ih, List.take_append_drop]

theorem suffix (h : Skims raw t ts raw' rest) : rest <:+ t := ⟨sources ts, h.sources_append_rest⟩

theorem next_nil_ne (hfront : raw = none → ([] : Text).head? = some (.char '<')) {e : Event} :
    Token.next .kept raw true [] ≠ .token e n raw' := by
  cases raw with
  | none => exact absurd (hfront rfl) nofun
  | some name => exact nofun

theorem source_ne_nil (h : Skims raw t ts raw' rest) : ∀ k ∈ ts, k.source ≠ [] := by
  induction h with
  | done => exact List.forall_mem_nil _
  | text ha _ _ ih => exact List.forall_mem_cons.2 ⟨ha, ih⟩
  | @token raw _ _ t _ e n _ front hnext _ ih =>
    refine List.forall_mem_cons.2 ⟨fun hnil => ?_, ih⟩
    rcases List.take_eq_nil_iff.1 hnil with rfl | rfl
    · exact absurd (Token.steps_next _ _ _ _ _ hnext).1 (Nat.lt_irrefl 0)
    · exact next_nil_ne front hnext

/-- Where there is no way to go on, nobody goes on. -/
theorem eq_of_halts (h : Skims raw t ts raw' rest) (hhalts : Halts raw t) : ts = [] ∧ raw' = raw ∧ rest = t := by
  cases h with
  | done => exact ⟨rfl, rfl, rfl⟩
  | text ha hrun _ =>
    rcases hhalts with hnil | ⟨hfront, -⟩
    · exact absurd (List.append_eq_nil_iff.1 hnil).1 ha
    · exact absurd (mem_of_head?_append ha (hfront rfl)) hrun
  | token front hnext _ =>
    rcases hhalts with rfl | ⟨-, hstop⟩
    · exact absurd hnext (next_nil_ne front)
    · exact absurd hnext (hstop _ _ _)

/-- Text in front can be passed in one go. -/
theorem exists_behind (h : Skims none (a ++ t) us raw last) (hrun : .char '<' ∉ a) (hhalts : Halts raw last) :
    ∃ vs, Skims none t vs raw last ∧ ∀ n, marks n us = marks (n + a.length) vs := by
  generalize hfirst : (none : Option Text) = first at h
  generalize hall : a ++ t = all at h
  -- Which token comes first does not matter: text in front belongs to it or is taken off it.
  induction h generalizing a with
  | done raw last =>
    subst hfirst hall
    rcases List.eq_nil_or_concat a with rfl | ⟨_, _, rfl⟩
    · exact ⟨[], .done none t, fun n => rfl⟩
    · exfalso
      rcases hhalts with hnil | ⟨hfront, -⟩
      · simp at hnil
      · exact hrun (mem_of_head?_append (by simp) (hfront rfl))
  | @text b t' _ ts _ hb hrun' more ih =>
    rcases List.append_eq_append_iff.1 hall with ⟨c, rfl, rfl⟩ | ⟨c, rfl, rfl⟩
    · rcases List.eq_nil_or_concat c with rfl | ⟨c', x, hc⟩
      · refine ⟨ts, more, fun n => ?_⟩
        rw [marks_content, List.append_nil]
      · have hangle : .char '<' ∉ c := fun hmem => hrun' (List.mem_append_right a hmem)
        refine ⟨⟨c, .content⟩ :: ts, .text (by simp [hc]) hangle more, fun n => ?_⟩
        rw [marks_content, marks_content, List.length_append, Nat.add_assoc]
    · obtain ⟨vs, hvs, hmarks⟩ := ih (fun hmem => hrun (List.mem_append_right b hmem)) hhalts rfl rfl
      refine ⟨vs, hvs, fun n => ?_⟩
      rw [marks_content, hmarks, List.length_append, Nat.add_assoc]
  | @token first _ _ T _ e n ts front hnext more ih =>
    subst hfirst hall
    cases a with
    | nil => exact ⟨_, .token front hnext more, fun n => rfl⟩
    | cons g a =>
      obtain rfl := Option.some.inj (front rfl)
      exact absurd List.mem_cons_self hrun

/-- **All ways of reading meet.**  What was read in one way is part of what is read in another to its end. -/
theorem exists_rest (h : Skims raw t ts raw' rest) (hs : Skims raw t us raw'' last) (hhalts : Halts raw'' last) :
    ∃ vs, Skims raw' rest vs raw'' last ∧
      ∀ n, marks n us = marks n ts ++ marks (n + (sources ts).length) vs := by
  induction h generalizing us with
  | done => exact ⟨us, hs, fun n => rfl⟩
  | text ha hrun _ ih =>
    obtain ⟨vs', hs, hbehind⟩ := hs.exists_behind hrun hhalts
    obtain ⟨vs, hvs, hmarks⟩ := ih hs
    refine ⟨vs, hvs, fun n => ?_⟩
    rw [hbehind, hmarks, marks_content, sources_cons, List.length_append, Nat.add_assoc]
  | token front hnext _ ih =>
    cases hs with
    | done =>
      have hstep := Skims.token front hnext (.done _ _)
      exact absurd (hstep.eq_of_halts hhalts).1 (List.cons_ne_nil _ _)
    | text ha hrun _ =>
      exact absurd (mem_of_head?_append ha (front rfl)) hrun
    | token front' hnext' more' =>
      obtain ⟨rfl, rfl, rfl⟩ := Next.token.inj (hnext.symm.trans hnext')
      obtain ⟨vs, hvs, hmarks⟩ := ih more'
      refine ⟨vs, hvs, fun n => ?_⟩
      rw [marks, marks, hmarks, sources_cons, List.length_append, Nat.add_assoc]
      split
      · rfl
      · rfl

/-- Ways of reading to the end find the same. -/
theorem unique (h : Skims raw t ts raw' rest) (hhalts : Halts raw' rest) (hs : Skims raw t us raw'' last)
    (hhalts' : Halts raw'' last) : raw' = raw'' ∧ rest = last ∧ ∀ n, marks n ts = marks n us := by
  obtain ⟨vs, hvs, hmarks⟩ := h.exists_rest hs hhalts'
  obtain ⟨rfl, rfl, rfl⟩ := hvs.eq_of_halts hhalts
  exact ⟨rfl, rfl, fun n => (hmarks n).symm ▸ (List.append_nil _).symm⟩

end Skims
end HtmlDeps
