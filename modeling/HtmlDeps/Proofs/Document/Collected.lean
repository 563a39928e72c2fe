import HtmlDeps.Document.Survey
import HtmlDeps.Proofs.Markup.Obstacles

/-!
# Which documents can be surveyed

A survey ends with a fault exactly where the document has an obstacle or a start tag whose target is not read as
a URL, whichever comes first (`Survey.Stumbles`); the URL of the document plays no part.  Without `<![`, without
numbers that are too long and with targets that can all be read there is no fault, whatever else the markup is.

The survey is that of `ReferenceCollector`; the faults come from the base class and from `is_external_url`
and `resolve_reference`, which nobody guards.
-/

namespace HtmlDeps

theorem Url.resolve_eq_error {base href : Text} {f : Url.Fault} :
    Url.resolve base href = .error f ↔ Url.isExternal href.strip = .error f := by
  unfold Url.resolve
  dsimp only
  cases hexternal : Url.isExternal href.strip with
  | error f' => simp [bind, Except.bind]
  | ok external =>
    refine iff_of_false ?_ nofun
    cases external with
    | true => exact nofun
    | false =>
      unfold Url.isExternal at hexternal
      cases hparse : Url.parse href.strip with
      | error f' =>
        rw [hparse] at hexternal
        split at hexternal
        · cases hexternal
        · cases hexternal
      | ok url =>
        simp only [bind, Except.bind, Bool.false_eq_true, if_false, pure, Except.pure]
        split <;> exact nofun

/-- What a start tag refers to, as written. -/
def Tag.target? (tag : Tag) : Option Text :=
  if tag.name = "link" then
    let rel := Text.words ((Tag.get? tag.attributes "rel").getD []).lower
    if rel.contains "import" || rel.contains "stylesheet" then Tag.get? tag.attributes "href" else none
  else if tag.name = "script" then Tag.get? tag.attributes "src"
  else none

/-- What a start tag refers to; nothing else refers to anything. -/
def Event.target? : Event → Option Text
  | .opened tag => tag.target?
  | _ => none

namespace Survey

variable {s : Survey} {p : Position} {raw raw' : Option Text} {t : Text} {e : Event} {n : Nat} {F : DocumentFault}

/-- All that a document refers to, as written. -/
def targets (contents : Text) : List Text :=
  (Scanner.scan .resolved contents).tokens.filterMap (·.token.event.target?)

/-- The target of a start tag is not read as a URL. -/
def Misread (e : Event) (f : Url.Fault) : Prop :=
  ∃ href, e.target? = some href ∧ Url.isExternal href.strip = .error f

/-- What a survey stumbles over, from the place on where `raw` is open and the text `t` is left. -/
inductive Stumbles : Option Text → Text → DocumentFault → Prop
  | obstacle {t : Text} {f : MarkupFault} : Token.Obstacle t f → Stumbles none t (.markup f)
  | misread {raw raw' : Option Text} {t : Text} {e : Event} {n : Nat} {f : Url.Fault} :
      Token.next .resolved raw true t = .token e n raw' → Misread e f → Stumbles raw t (.url f)
  | later {raw raw' : Option Text} {t : Text} {e : Event} {n : Nat} {F : DocumentFault} :
      Token.next .resolved raw true t = .token e n raw' → (∀ f, ¬ Misread e f) → Stumbles raw' (t.drop n) F →
      Stumbles raw t F

/-! ### One token -/

theorem note_eq_error {href : Option Text} {kind : Kind} {code message : Text} :
    s.note p href kind code message = .error F ↔
      ∃ f, Url.isExternal (href.getD []).strip = .error f ∧ F = .url f := by
  have hblank : Url.isExternal [] = .ok false := rfl
  unfold note
  dsimp only
  split
  · rename_i hempty
    rw [List.isEmpty_iff.1 hempty, hblank]
    simp
  · cases hresolve : Url.resolve s.document (href.getD []) with
    | error f =>
      rw [Url.resolve_eq_error.1 hresolve]
      simp [eq_comm]
    | ok url? =>
      have hread : ∀ f, Url.isExternal (href.getD []).strip ≠ .error f := by
        intro f herror
        rw [Url.resolve_eq_error.2 herror] at hresolve
        cases hresolve
      refine iff_of_false ?_ ?_
      · cases url? <;> exact nofun
      · rintro ⟨f, herror, -⟩
        exact hread f herror

/-- Noting a target that may be missing. -/
theorem note_target_eq_error {href : Option Text} {kind : Kind} {code message : Text} :
    s.note p href kind code message = .error F ↔
      ∃ f, (∃ target, href = some target ∧ Url.isExternal target.strip = .error f) ∧ F = .url f := by
  rw [note_eq_error]
  cases href with
  | none => exact iff_of_false nofun nofun
  | some target => simp

theorem opened_eq_error {tag : Tag} : s.opened p tag = .error F ↔ ∃ f, Misread (.opened tag) f ∧ F = .url f := by
  have hnone : tag.target? = none → ¬ ∃ f, Misread (.opened tag) f ∧ F = .url f := by
    rintro htarget ⟨f, hmisread, -⟩
    obtain ⟨href, hhref, -⟩ := hmisread
    cases htarget.symm.trans hhref
  -- Links, then scripts, then all else; what is read in each case is the target of the tag.
  simp only [Misread, Event.target?] at hnone ⊢
  unfold opened
  dsimp only
  split
  · rename_i hlink
    split
    · rename_i himport
      have htarget : tag.target? = Tag.get? tag.attributes "href" := by
        simp only [Tag.target?, if_pos hlink, himport, Bool.true_or, if_true]
      rw [note_target_eq_error, htarget]
    · split
      · rename_i hstyle
        have htarget : tag.target? = Tag.get? tag.attributes "href" := by
          simp only [Tag.target?, if_pos hlink, hstyle, Bool.or_true, if_true]
        rw [note_target_eq_error, htarget]
      · rename_i himport hstyle
        refine iff_of_false nofun (hnone ?_)
        simp only [Tag.target?, if_pos hlink, himport, hstyle, Bool.or_false, Bool.false_eq_true, if_false]
  · rename_i hlink
    split
    · rename_i hscript
      have htarget : tag.target? = Tag.get? tag.attributes "src" := by
        simp only [Tag.target?, if_neg hlink, if_pos hscript]
      split
      · rename_i src hsrc
        rw [note_target_eq_error, htarget, hsrc]
      · rename_i hsrc
        exact iff_of_false nofun (hnone (htarget.trans hsrc))
    · rename_i hscript
      refine iff_of_false nofun (hnone ?_)
      simp only [Tag.target?, if_neg hlink, if_neg hscript]

theorem step_eq_error {k : Located} : s.step k = .error F ↔ ∃ f, Misread k.token.event f ∧ F = .url f := by
  have hnone : k.token.event.target? = none → ¬ ∃ f, Misread k.token.event f ∧ F = .url f := by
    rintro htarget ⟨f, ⟨href, hhref, -⟩, -⟩
    cases htarget.symm.trans hhref
  unfold step
  cases hevent : k.token.event with
  | opened tag => exact opened_eq_error
  | closed name =>
    rw [hevent] at hnone
    exact iff_of_false nofun (hnone rfl)
  | content =>
    rw [hevent] at hnone
    exact iff_of_false nofun (hnone rfl)

/-! ### A pass -/

/-- The fault that a survey meets in a pass. -/
def faultIn (s : Survey) (p : Position) (q : Scanner.Pass) : Option DocumentFault :=
  match (s.run (Located.of p q.tokens)).2 with
  | some F => some F
  | none =>
    match q.stop with
    | .error f => some (.markup f)
    | .ok _ => none

theorem faultIn_cons (s : Survey) (p : Position) (k : Token) (q : Scanner.Pass) :
    faultIn s p ⟨k :: q.tokens, q.stop⟩ =
      match s.step ⟨p, k⟩ with
      | .error F => some F
      | .ok s' => faultIn s' (p.advance k.source) q := by
  simp only [faultIn, Located.of, run]
  cases s.step ⟨p, k⟩ <;> rfl

theorem of_eq_faultIn (document contents : Text) :
    (Survey.of document contents).2 =
      faultIn (start document) .start (Scanner.finalPass .resolved none contents) := by
  obtain ⟨htokens, houtcome⟩ := Scanner.scan_eq_finalPass contents
  have hscan : (Scanner.start .resolved).feedAll [contents] = Scanner.scan .resolved contents := rfl
  unfold Survey.of ofPieces faultIn
  rw [hscan]
  dsimp only
  rw [htokens]
  rcases (start document).run (Located.of .start (Scanner.finalPass .resolved none contents).tokens) with ⟨s, F | -⟩
  · cases hscan : (Scanner.scan .resolved contents).outcome with
    | error f => rw [(houtcome f).1 hscan]
    | ok s' =>
      cases hstop : (Scanner.finalPass .resolved none contents).stop with
      | error f => cases hscan.symm.trans ((houtcome f).2 hstop)
      | ok left => rfl
  · rfl

/-! ### What a survey stumbles over -/

theorem Stumbles.ne_nil (h : Stumbles raw t F) : t ≠ [] := by
  induction h with
  | obstacle h =>
    rintro rfl
    cases h with
    | text _ e hdecode => cases hdecode
  | @misread raw raw' t e n f hnext hmisread =>
    rintro rfl
    obtain ⟨href, hhref, -⟩ := hmisread
    cases raw <;> cases hnext
    cases hhref
  | later hnext hread h ih =>
    rintro rfl
    exact ih List.drop_nil

theorem stumbles_token (hnext : Token.next .resolved raw true t = .token e n raw') :
    Stumbles raw t F ↔ (∃ f, Misread e f ∧ F = .url f) ∨ (∀ f, ¬ Misread e f) ∧ Stumbles raw' (t.drop n) F := by
  constructor
  · intro h
    have ht := h.ne_nil
    cases h with
    | obstacle h =>
      rw [Token.obstacle_iff ht, hnext] at h
      rcases h with h | ⟨h, -⟩ <;> cases h
    | misread hnext' hmisread =>
      cases hnext.symm.trans hnext'
      exact .inl ⟨_, hmisread, rfl⟩
    | later hnext' hread h =>
      cases hnext.symm.trans hnext'
      exact .inr ⟨hread, h⟩
  · rintro (⟨f, hmisread, rfl⟩ | ⟨hread, h⟩)
    · exact .misread hnext hmisread
    · exact .later hnext hread h

theorem stumbles_obstacle (hnext : ∀ e n raw', Token.next .resolved raw true t ≠ .token e n raw') :
    Stumbles raw t F ↔ raw = none ∧ ∃ f, Token.Obstacle t f ∧ F = .markup f := by
  constructor
  · intro h
    cases h with
    | obstacle h => exact ⟨rfl, _, h, rfl⟩
    | misread h => exact absurd h (hnext _ _ _)
    | later h => exact absurd h (hnext _ _ _)
  · rintro ⟨rfl, f, h, rfl⟩
    exact .obstacle h

/-- A token whose target cannot be read is where the survey ends; behind any other it goes on. -/
theorem faultIn_token (ht : t ≠ []) (hnext : Token.next .resolved raw true t = .token e n raw')
    (hmore : ∀ s p, faultIn s p (Scanner.finalPass .resolved raw' (t.drop n)) = some F ↔
      Stumbles raw' (t.drop n) F) (s : Survey) (p : Position) :
    faultIn s p (Scanner.finalPass .resolved raw t) = some F ↔ Stumbles raw t F := by
  rw [Scanner.finalPass_token ht hnext, faultIn_cons, stumbles_token hnext]
  cases hstep : s.step ⟨p, ⟨t.take n, e⟩⟩ with
  | error F' =>
    obtain ⟨f, hmisread, -⟩ := step_eq_error.1 hstep
    have hstep' : F' = F ↔ s.step ⟨p, ⟨t.take n, e⟩⟩ = .error F := by
      rw [hstep, Except.error.injEq]
    rw [Option.some.injEq, hstep', step_eq_error]
    refine (or_iff_left ?_).symm
    rintro ⟨hread, -⟩
    exact hread f hmisread
  | ok s' =>
    have hread : ∀ f, ¬ Misread e f := by
      intro f hmisread
      cases hstep.symm.trans (step_eq_error.2 ⟨f, hmisread, rfl⟩)
    have hnone : ¬ ∃ f, Misread e f ∧ F = .url f := by
      rintro ⟨f, hmisread, -⟩
      exact hread f hmisread
    rw [or_iff_right hnone, and_iff_right hread]
    exact hmore s' _

/-- Where no token comes any more, only an obstacle ends the survey with a fault. -/
theorem faultIn_halt (ht : t ≠ []) (hnext : ∀ e n raw', Token.next .resolved raw true t ≠ .token e n raw')
    (s : Survey) (p : Position) :
    faultIn s p (Scanner.finalPass .resolved raw t) = some F ↔ Stumbles raw t F := by
  rw [stumbles_obstacle hnext]
  cases hhalt : Token.next .resolved raw true t with
  | token e n raw' => exact absurd hhalt (hnext e n raw')
  | tokenThenWait n => exact absurd hhalt (Token.next_ne_tokenThenWait ht true)
  | fault f =>
    rw [Scanner.finalPass_fault ht hhalt]
    cases raw with
    | some name => exact absurd hhalt Token.next_raw_ne_fault
    | none => simp [Token.obstacle_iff ht, hhalt, faultIn, Located.of, run, eq_comm]
  | wait =>
    cases raw with
    | some name =>
      rw [Scanner.finalPass_raw hhalt]
      apply iff_of_false
      · intro h
        cases h
      · rintro ⟨h, -⟩
        cases h
    | none =>
      -- A scan that waits for more is taken up again at the end, as running text.
      have hobstacle : ∀ f, Token.Obstacle t f ↔ Token.nextRun .resolved t.length t = .fault f := by
        intro f
        rw [Token.obstacle_iff ht, hhalt]
        simp
      rw [Scanner.finalPass_wait ht hhalt]
      cases hrun : Token.nextRun .resolved t.length t with
      | fault f => simp [hobstacle, hrun, faultIn, Located.of, run, eq_comm]
      | token e n raw' => simp [hobstacle, hrun, faultIn, Located.of, run, step]
      | tokenThenWait n => simp [hobstacle, hrun, faultIn, Located.of, run, step]
      | wait => simp [hobstacle, hrun, faultIn, Located.of, run, step]

/-- What a survey meets in a final pass is what it stumbles over, wherever it stands and whatever it has noted. -/
theorem faultIn_finalPass (s : Survey) (p : Position) (raw : Option Text) (t : Text) :
    faultIn s p (Scanner.finalPass .resolved raw t) = some F ↔ Stumbles raw t F := by
  induction hlen : t.length using Nat.strong_induction_on generalizing s p raw t with
  | _ len ih =>
    by_cases ht : t = []
    · subst ht
      rw [Scanner.finalPass_nil]
      apply iff_of_false
      · intro h
        cases h
      · intro h
        exact h.ne_nil rfl
    by_cases hmore : ∃ e n raw', Token.next .resolved raw true t = .token e n raw'
    · obtain ⟨e, n, raw', hnext⟩ := hmore
      have hshort := Scanner.length_drop_lt ht hnext
      rw [hlen] at hshort
      apply faultIn_token ht hnext
      intro s' p'
      exact ih _ hshort s' p' raw' (t.drop n) rfl
    · apply faultIn_halt ht
      intro e n raw' hnext
      exact hmore ⟨e, n, raw', hnext⟩

/-! ### Documents without a fault -/

theorem Stumbles.marked_or_long (h : Stumbles raw t F) {f : MarkupFault} (hF : F = .markup f) :
    Token.marked [] <:+: t ∨ Entity.LongNumber t := by
  induction h with
  | obstacle h => exact h.marked_or_long.imp_left List.IsPrefix.isInfix
  | misread => cases hF
  | @later _ _ t _ n _ _ _ _ ih =>
    have hdrop : t.drop n <:+: t := (List.drop_suffix n t).isInfix
    exact (ih hF).imp (fun h => h.trans hdrop) (fun h => h.mono hdrop)

theorem Stumbles.exists_misread (h : Stumbles raw t F) {f : Url.Fault} (hF : F = .url f) :
    ∃ k ∈ (Scanner.finalPass .resolved raw t).tokens, Misread k.event f := by
  have ht := h.ne_nil
  induction h with
  | obstacle => cases hF
  | misread hnext hmisread =>
    cases hF
    rw [Scanner.finalPass_token ht hnext]
    exact ⟨_, List.mem_cons_self, hmisread⟩
  | later hnext _ hmore ih =>
    rw [Scanner.finalPass_token ht hnext]
    obtain ⟨k, hk, hmisread⟩ := ih hF hmore.ne_nil
    exact ⟨k, List.mem_cons_of_mem _ hk, hmisread⟩

/-- **What ends a survey**, for every document and every URL of it: what the survey stumbles over, and nothing
else.  Without `<![`, without numbers that are too long and with targets that can all be read, nothing does. -/
theorem fault_iff_stumbles (document contents : Text) :
    (∀ F, (Survey.of document contents).2 = some F ↔ Stumbles none contents F) ∧
      (¬ Token.marked [] <:+: contents → ¬ Entity.LongNumber contents →
        (∀ href ∈ targets contents, ∀ f, Url.isExternal href.strip ≠ .error f) →
        (Survey.of document contents).2 = none) := by
  have hiff : ∀ F, (Survey.of document contents).2 = some F ↔ Stumbles none contents F := by
    intro F
    rw [of_eq_faultIn]
    exact faultIn_finalPass _ _ _ _
  refine ⟨hiff, ?_⟩
  intro hmarked hlong hread
  rw [Option.eq_none_iff_forall_ne_some]
  intro F hF
  have hstumbles := (hiff F).1 hF
  cases F with
  | markup f => exact (hstumbles.marked_or_long rfl).elim hmarked hlong
  | url f =>
    obtain ⟨k, hk, href, hhref, hmisread⟩ := hstumbles.exists_misread rfl
    rw [← Located.map_token_of .start (Scanner.finalPass .resolved none contents).tokens,
      ← (Scanner.scan_eq_finalPass contents).1] at hk
    obtain ⟨l, hl, rfl⟩ := List.mem_map.1 hk
    exact hread href (List.mem_filterMap.2 ⟨l, hl, hhref⟩) f hmisread

/-- A comment, an import, a number and an end tag that never ends. -/
def calmPage : Text := "<!-- [ --><link rel=import href=a.html>&#65;</p"

/-- The page has one target, which can be read, and is surveyed without a fault. -/
theorem fault_iff_stumbles_calmPage :
    targets calmPage = [("a.html" : Text)] ∧ (Survey.of "index.html" calmPage).2 = none := by
  have htargets : targets calmPage = [("a.html" : Text)] := by
    unfold calmPage
    repeat rw [Text.ofString_ofList]
    decide
  refine ⟨htargets, (fault_iff_stumbles "index.html" calmPage).2 ?_ ?_ ?_⟩
  · unfold calmPage
    repeat rw [Text.ofString_ofList]
    decide
  · rintro ⟨ds, hlength, -, hds⟩
    have hshort : calmPage.length ≤ Entity.maxDigits := by
      unfold calmPage
      repeat rw [Text.ofString_ofList]
      decide
    have hle := hds.length_le
    simp only [List.length_cons] at hle
    omega
  · intro href hhref f herror
    rw [htargets, List.mem_singleton] at hhref
    subst hhref
    have hread : Url.isExternal (Text.strip "a.html") = .ok false := by
      repeat rw [Text.ofString_ofList]
      decide
    cases hread.symm.trans herror

theorem of_digits (document : Text) {ds : Text} (hlength : Entity.maxDigits < ds.length)
    (hdigits : ∀ g ∈ ds, g.isDigit) :
    (Survey.of document (.char '&' :: .char '#' :: ds)).2 = some (.markup (.tooLong ⟨ds.length⟩)) := by
  have hangle : ∀ g ∈ Glyph.char '&' :: .char '#' :: ds, (g != .char '<') = true := by
    intro g hg
    rcases List.mem_cons.1 hg with rfl | hg
    · decide
    · rcases List.mem_cons.1 hg with rfl | hg
      · decide
      · rw [bne_iff_ne]
        rintro rfl
        exact absurd (hdigits _ hg) (by decide)
  rw [of_eq_faultIn, faultIn_finalPass]
  refine .obstacle (.text _ _ ?_)
  rw [List.takeWhile_eq_self_iff.2 hangle, Entity.decode_digits hlength hdigits]

/-- A marked section of an unknown name, a URL with a bracket that nothing closes and a number of 4301 digits end
a survey. -/
theorem faults_of_malformed :
    (Survey.of "index.html" "<![x]>").2 = some (.markup (.unknownSection "x")) ∧
    (Survey.of "index.html" "<link rel=\"import\" href=\"http://[x\">").2 = some (.url (.host .brackets)) ∧
    (Survey.of "index.html" (.char '&' :: .char '#' :: List.replicate 4301 (.char '1'))).2 =
      some (.markup (.tooLong ⟨4301⟩)) := by
  refine ⟨?_, ?_, ?_⟩
  · repeat rw [Text.ofString_ofList]
    decide
  · repeat rw [Text.ofString_ofList]
    decide
  · have hlength : (List.replicate 4301 (Glyph.char '1')).length = 4301 := List.length_replicate
    have hlong : Entity.maxDigits < (List.replicate 4301 (Glyph.char '1')).length := by
      rw [hlength]
      decide
    rw [of_digits "index.html" hlong, hlength]
    intro g hg
    rw [List.eq_of_mem_replicate hg]
    decide

end Survey
end HtmlDeps
