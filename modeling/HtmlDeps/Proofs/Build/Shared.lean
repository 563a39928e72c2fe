import HtmlDeps.Proofs.Build.Honest
import HtmlDeps.Proofs.Build.Outside

/-!
# Waiting together

All who ask for one path wait for one ticket.  The ticket is given out when the path is asked for first,
which is also the only time that the file is asked for; it stays until the file is registered, and then
everybody who still waits gets its text (`Runs.waits_together`).  Whoever leaves does so alone: it makes no
difference whether he leaves before the answer or after it.

These are `StreamLoader.load` and `_wait_for` over one `DeferredLoadTable`.
-/

namespace HtmlDeps.Build

variable {C : Crawler} {s : Setup} {b b' : Build C} {ds es : List Deed} {past : List (Build C)} {f : File}
  {p : Path} {n : Nat} {t u : Text}

/-! ### A file is asked for once -/

/-- The path that the loader asks to be pushed. -/
def pushed? : Deed → Option Path
  | .push p => some p
  | _ => none

/-- The paths that the loader asks to be pushed. -/
def pushes (ds : List Deed) : List Path := ds.filterMap pushed?

/-- What was asked for is waited for, or it is there. -/
structure Fetches (s : Setup) (ds : List Deed) (b : Build C) : Prop where
  nodup : (pushes ds).Nodup
  here : ∀ p ∈ pushes ds, ∃ u, s.project.url p = .ok u ∧ (p ∈ b.waitlist.keys ∨ u ∈ b.files.keys)
  tickets : b.waitlist.tickets.length = (pushes ds).length

theorem fetches_initial (s : Setup) : Fetches s [] (initial C s.project) := ⟨.nil, nofun, rfl⟩

theorem pushes_append (ds es : List Deed) : pushes (ds ++ es) = pushes ds ++ pushes es :=
  List.filterMap_append

/-- Nothing is asked for, and nothing gets lost. -/
theorem Fetches.keep (h : Fetches s ds b) (hes : pushes es = [])
    (hkept : ∀ p u, s.project.url p = .ok u → p ∈ b.waitlist.keys ∨ u ∈ b.files.keys →
      p ∈ b'.waitlist.keys ∨ u ∈ b'.files.keys)
    (htickets : b'.waitlist.tickets.length = b.waitlist.tickets.length) : Fetches s (ds ++ es) b' := by
  have hpushes : pushes (ds ++ es) = pushes ds := by rw [pushes_append, hes, List.append_nil]
  refine ⟨hpushes ▸ h.nodup, ?_, htickets.trans (hpushes ▸ h.tickets)⟩
  rw [hpushes]
  intro p hp
  obtain ⟨u, hu, hhere⟩ := h.here p hp
  exact ⟨u, hu, hkept p u hu hhere⟩

theorem tickets_register (b : Build C) (f : File) :
    (b.register s f).1.waitlist.tickets.length = b.waitlist.tickets.length := by
  rcases registered_cases s b f with ⟨e, -, heq⟩ | ⟨u, -, ⟨-, heq⟩ | ⟨n, -, heq⟩⟩ <;> rw [heq]
  · rfl
  · exact List.length_modify ..

/-- A file that is registered is there in place of being waited for. -/
theorem Fetches.register (h : Fetches s ds b) (f : File) :
    Fetches s (ds ++ [.register f]) (b.register s f).1 := by
  obtain ⟨hfiles, hkeys⟩ := register_recorded (s := s) b f
  refine h.keep rfl (fun p u hu hhere => ?_) (tickets_register b f)
  simp only [Setup.filesAfter, Setup.pendingAfter] at hfiles hkeys
  cases hurl : s.project.url f.path.normal with
  | error e =>
    rw [hurl] at hfiles hkeys
    rw [hfiles, hkeys]
    exact hhere
  | ok v =>
    rw [hurl] at hfiles hkeys
    rw [hfiles, hkeys, Table.mem_keys_put, List.mem_filter, decide_eq_true_eq]
    by_cases hp : p = f.path.normal
    · subst hp
      exact .inr (.inl (Except.ok.inj (hu.symm.trans hurl)))
    · exact hhere.imp (⟨·, hp⟩) .inr

theorem tickets_release (b : Build C) (p : Path) :
    (b.release s p).waitlist.tickets.length = b.waitlist.tickets.length := by
  rcases release_cases s b p with ⟨-, heq⟩ | ⟨n, -, heq⟩ <;> rw [heq]
  exact List.length_modify ..

/-- What is asked for has not been asked for before. -/
theorem Fetches.create (hproject : s.project.Rooted) (h : Fetches s ds b)
    (hurl : s.project.url (s.project.path t) = .ok u) (hcurrent : b.waitlist.current? (s.project.path t) = none)
    (hfile : b.fileAt s (s.project.path t) = .ok none) :
    Fetches s (ds ++ [.seek (s.project.path t), .push (s.project.path t)])
      { b with waitlist := (b.waitlist.create (s.project.path t)).1 } := by
  have hkeys := (Deal.create hurl hcurrent hfile).recorded.2
  have hpushes : pushes (ds ++ [.seek (s.project.path t), .push (s.project.path t)]) =
      pushes ds ++ [s.project.path t] := pushes_append _ _
  have hnew : s.project.path t ∉ pushes ds := by
    intro hmem
    obtain ⟨v, hv, hkey | hkey⟩ := h.here _ hmem
    · exact mem_keys_iff.1 hkey hcurrent
    · obtain rfl : u = v := Except.ok.inj (hurl.symm.trans hv)
      exact not_mem_keys_of_fileAt hproject hurl hfile hkey
  refine ⟨?_, ?_, ?_⟩
  · rw [hpushes]
    exact (List.perm_append_singleton _ _).nodup_iff.2 (List.nodup_cons.2 ⟨hnew, h.nodup⟩)
  · rw [hpushes, hkeys]
    intro p hp
    rcases List.mem_append.1 hp with hp | hp
    · obtain ⟨v, hv, hhere⟩ := h.here p hp
      exact ⟨v, hv, hhere.imp_left (List.mem_append_left _)⟩
    · obtain rfl := List.mem_singleton.1 hp
      exact ⟨u, hurl, .inl (List.mem_append_right _ List.mem_cons_self)⟩
  · rw [hpushes, List.length_append, ← h.tickets]
    exact List.length_append

theorem Deal.fetches (hproject : s.project.Rooted) (h : Deal s b es b') (hb : Fetches s ds b) :
    Fetches s (ds ++ es) b' := by
  obtain ⟨hfiles, hkeys⟩ := h.recorded
  have hsame : pushes es = [] → es.foldl s.filesAfter b.files = b.files →
      es.foldl s.pendingAfter b.waitlist.keys = b.waitlist.keys →
      b'.waitlist.tickets.length = b.waitlist.tickets.length → Fetches s (ds ++ es) b' := by
    intro hes hf hk htickets
    refine hb.keep hes (fun p u _ hhere => ?_) htickets
    rw [hfiles, hkeys, hf, hk]
    exact hhere
  have hspares : ∀ {m}, Spares m b b' → b'.waitlist.tickets.length = b.waitlist.tickets.length :=
    fun h => by rw [h.waitlist]
  cases h with
  | create hurl h hfile => exact hb.create hproject hurl h hfile
  | register => exact hb.register _
  | keep h => exact hsame rfl rfl rfl (hspares h.spares)
  | seek => exact hsame rfl rfl rfl rfl
  | await h c => exact hsame rfl rfl rfl (by rw [waitlist_await]; rfl)
  | release => exact hsame rfl rfl rfl (tickets_release b _)
  | fail _ h => exact hsame rfl rfl rfl (hspares h.spares)
  | succeed i h => exact hsame rfl rfl rfl (hspares h)
  | settle | ask => exact hsame rfl rfl rfl rfl
  | abandon h => exact hsame rfl rfl rfl (hspares h)

theorem Runs.fetches (hproject : s.project.Rooted) (h : Runs s (initial C s.project) ds (b :: past)) :
    Fetches s ds b := by
  refine h.preserve (P := fun ds b => Fetches s ds b) (fun hb hdeal => hdeal.fetches hproject hb) ?_
    (fetches_initial s)
  intro ds b b' hb h
  have hspares := h.fails.spares
  have hkept : Fetches s (ds ++ []) b' := by
    refine hb.keep rfl (fun _ _ _ hhere => ?_) (by rw [hspares.waitlist])
    rw [hspares.waitlist, hspares.files]
    exact hhere
  rwa [List.append_nil] at hkept

/-! ### A ticket stays -/

theorem current?_register (h : f.path.normal ≠ p) :
    (b.register s f).1.waitlist.current? p = b.waitlist.current? p := by
  rcases registered_cases s b f with ⟨e, -, heq⟩ | ⟨u, -, ⟨-, heq⟩ | ⟨n, -, heq⟩⟩ <;> rw [heq]
  · rfl
  · exact (Table.get?_erase _ _ _).trans (if_neg h)

/-- A ticket stays with its path until the file is registered. -/
theorem Deal.current? (h : Deal s b es b') (hp : b.waitlist.current? p = some n) :
    b'.waitlist.current? p = some n ∨ ∃ f, .register f ∈ es ∧ f.path.normal = p := by
  have hsame : b'.waitlist = b.waitlist → b'.waitlist.current? p = some n := fun h => h ▸ hp
  cases h with
  | keep h => exact .inl (hsame h.spares.waitlist)
  | create _ h =>
    left
    change (b.waitlist.create _).1.current? p = some n
    rw [Waitlist.current?_create, if_neg]
    · exact hp
    · rintro rfl
      rw [hp] at h
      cases h
  | await h c => exact .inl (hsame (waitlist_await _ _ _ c))
  | release => exact .inl ((current?_release b _ p).trans hp)
  | @register _ f =>
    by_cases heq : f.path.normal = p
    · exact .inr ⟨f, List.mem_cons_self, heq⟩
    · exact .inl ((current?_register heq).trans hp)
  | fail _ h => exact .inl (hsame h.spares.waitlist)
  | succeed i h => exact .inl (hsame h.waitlist)
  | seek | settle | ask => exact .inl hp
  | abandon h => exact .inl (hsame h.waitlist)

theorem Deals.current? (h : Deals s b es b') (hp : b.waitlist.current? p = some n) :
    b'.waitlist.current? p = some n ∨ ∃ f, .register f ∈ es ∧ f.path.normal = p := by
  induction h with
  | refl => exact .inl hp
  | tail _ hdeal ih =>
    rcases ih with hp | ⟨f, hf, heq⟩
    · exact (hdeal.current? hp).imp_right fun ⟨f, hf, heq⟩ => ⟨f, List.mem_append_right _ hf, heq⟩
    · exact .inr ⟨f, List.mem_append_left _ hf, heq⟩

/-- No act replaces a ticket: it stays, or its file is registered and then nobody waits for the path. -/
theorem Acts.current? (hproject : s.project.Rooted) (hb : Ticketed s b) (h : Acts s b es b')
    (hp : b.waitlist.current? p = some n) : b'.waitlist.current? p = some n ∨
      b'.waitlist.current? p = none ∧ ∃ f, es = [.register f] ∧ f.path.normal = p := by
  rcases h.deals with hdeals | ⟨-, hreports⟩
  · refine (hdeals.current? hp).imp_right ?_
    rintro ⟨f, hf, rfl⟩
    obtain rfl := h.eq_of_register hf
    refine ⟨?_, f, rfl, rfl⟩
    obtain ⟨u, hu⟩ := hb.exists_url hproject hp
    have hkeys := h.recorded.2
    simp only [List.foldl_cons, List.foldl_nil, Setup.pendingAfter, hu] at hkeys
    by_contra hcurrent
    rw [← ne_eq, ← mem_keys_iff, hkeys, List.mem_filter] at hcurrent
    simp at hcurrent
  · exact .inl (hreports.fails.spares.waitlist ▸ hp)

/-! ### Everybody gets the text -/

/-- Everybody who waits for a file goes on with its text when it is registered. -/
theorem register_wakes (hproject : s.project.Rooted) (hb : Ticketed s b) {w : Waiter C} (hw : w ∈ b.waiting)
    (hpath : w.path = f.path.normal) :
    (answerRounds s, w.caller.resume (.ok f.text)) ∈ (b.register s f).1.ready := by
  have hcurrent := (hb.waiting w hw).1
  obtain ⟨u, hu⟩ := hb.exists_url hproject hcurrent
  rw [hpath] at hcurrent hu
  rw [register_of_some hu hcurrent, answered_eq]
  exact List.mem_append_right _ (List.mem_map.2 ⟨w, List.mem_filter.2 ⟨hw, decide_eq_true rfl⟩, rfl⟩)

theorem deliverDeeds_eq_register (h : deliverDeeds s p = [.register f]) :
    ∃ contents, s.read p = .ok contents ∧ f = ⟨p, contents⟩ := by
  unfold deliverDeeds at h
  cases hread : s.read p with
  | error e => simp [hread] at h
  | ok contents =>
    simp only [hread, List.cons.injEq, Deed.register.injEq, and_true] at h
    exact ⟨contents, rfl, h.symm⟩

theorem loadDeeds_ne_register (url : Text) : b.loadDeeds s url ≠ [.register f] := by
  intro h
  unfold loadDeeds at h
  split at h
  · cases h
  · split at h <;> cases h

theorem pumpSourcesDeeds_eq_register (h : b.pumpSourcesDeeds = [.register f]) :
    b.status ≠ .failed ∧ ∃ rest, b.incoming = .file f :: rest := by
  unfold pumpSourcesDeeds at h
  split at h
  · rename_i f' rest hincoming
    split at h
    · cases h
    · simp only [List.cons.injEq, Deed.register.injEq, and_true] at h
      subst h
      exact ⟨‹_›, rest, hincoming⟩
  · cases h

/-- The jobs that register a file. -/
theorem deeds_eq_register {j : Job C} (h : b.deeds s j = [.register f]) :
    (j = .pumpSources ∧ b.status ≠ .failed ∧ ∃ rest, b.incoming = .file f :: rest) ∨
    ∃ p contents, s.read p = .ok contents ∧ f = ⟨p, contents⟩ ∧
      (j = .deliver p ∨ j = .pumpDependencies ∧ s.gated = false ∧ ∃ rest, b.queue = some p :: rest) := by
  cases j with  -- Only the pumps register files: one a source, the other a dependency that it has read.
  | pumpSources =>
    obtain ⟨hstatus, hincoming⟩ := pumpSourcesDeeds_eq_register h
    exact .inl ⟨rfl, hstatus, hincoming⟩
  | pumpDependencies =>
    change b.pumpDependenciesDeeds s = _ at h
    unfold pumpDependenciesDeeds at h
    split at h
    · rename_i p rest hqueue
      split at h
      · cases h
      · obtain ⟨contents, hread, rfl⟩ := deliverDeeds_eq_register h
        exact .inr ⟨p, contents, hread, rfl, .inr ⟨rfl, Bool.eq_false_iff.2 ‹_›, rest, hqueue⟩⟩
    · cases h
  | deliver p =>
    obtain ⟨contents, hread, rfl⟩ := deliverDeeds_eq_register h
    exact .inr ⟨p, contents, hread, rfl, .inl rfl⟩
  | turn a t =>
    change b.turnDeeds s a t = _ at h
    unfold turnDeeds at h
    split at h
    · cases h
    · split at h
      · cases h
      · split at h
        · exact absurd h (loadDeeds_ne_register _)
        · cases h
  | load k url => exact absurd h (loadDeeds_ne_register url)
  | closeSources | begin | loaded | expire => cases h

theorem pumpDependencies_some {rest : List (Option Path)} (hqueue : b.queue = some p :: rest)
    (hgated : s.gated = false) :
    ∃ url, b.pumpDependencies s = (b.fetched rest ⟨url, p, .delivered⟩).deliver s p := by
  simp only [pumpDependencies, hqueue, hgated, Bool.false_eq_true, if_false]
  exact ⟨_, rfl⟩

/-- What happens before a file is registered does not concern those who wait, and what happens afterwards
has no deeds. -/
theorem Acts.registers (h : Acts s b es b') (hes : es = [.register f]) : ∃ b₁, Steady b b₁ ∧
    b₁.waiting = b.waiting ∧ Deals s (b₁.register s f).1 [] b' := by
  cases h with
  | @job before after rounds j hready =>
    have hdone : j.number? = none → Steady b { b with ready := before ++ after } := fun hj =>
      ⟨hj ▸ spares_drop hready, rfl, rfl⟩
    rcases deeds_eq_register hes with ⟨rfl, hstatus, rest, hincoming⟩ |
      ⟨p, contents, hread, rfl, rfl | ⟨rfl, hgated, rest, hqueue⟩⟩
    · have hrest : Steady { b with ready := before ++ after }
          { b with ready := before ++ after, incoming := rest } := steady_of_eq rfl rfl rfl rfl rfl rfl rfl
      exact ⟨_, (hdone rfl).trans hrest, rfl, deals_pumpSources_file hincoming hstatus⟩
    · exact ⟨_, hdone rfl, rfl, deals_deliver_ok hread⟩
    · obtain ⟨url, hpump⟩ :=
        pumpDependencies_some (s := s) (b := { b with ready := before ++ after }) hqueue hgated
      have hfetched : Steady { b with ready := before ++ after }
          ({ b with ready := before ++ after }.fetched rest ⟨url, p, .delivered⟩) :=
        steady_of_eq rfl rfl rfl rfl rfl rfl rfl
      refine ⟨_, (hdone rfl).trans hfetched, rfl, ?_⟩
      change Deals s _ [] (pumpDependencies s _)
      rw [hpump]
      exact deals_deliver_ok hread
  | register f' =>
    obtain rfl : f' = f := by simpa using hes
    exact ⟨b, .refl b, rfl, .refl _⟩
  | @leave _ _ w => cases hnumber : w.caller.number? <;> rw [hnumber] at hes <;> cases hes
  | @drop _ _ _ j => cases hnumber : j.number? <;> rw [hnumber] at hes <;> cases hes
  | _ => cases hes

/-! ### Leaving -/

section

variable {before after : List (Waiter C)} {w : Waiter C}

/-- Who leaves before the answer to a ticket might as well leave afterwards. -/
theorem leave_answered (h : b.waiting = before ++ w :: after) (l : Waitlist Path) (n : Nat) (text : Text) :
    Acts s (b.answered s l n text) (w.caller.number?.toList.map .abandon)
      ({ b with waiting := before ++ after }.answered s l n text) := by
  -- If the answer was for the one who leaves, its job is ready by then, and is dropped.
  by_cases hticket : w.ticket = n
  · have hready : (b.answered s l n text).ready =
        (b.ready ++ (before.filter (·.ticket = n)).map fun w => (answerRounds s, w.caller.resume (.ok text))) ++
          (answerRounds s, w.caller.resume (.ok text)) ::
            (after.filter (·.ticket = n)).map fun w => (answerRounds s, w.caller.resume (.ok text)) := by
      rw [answered_eq]
      simp [h, hticket]
    have hdrop := Acts.drop (s := s) hready
    rw [w.caller.number?_resume] at hdrop
    have heq : { b with waiting := before ++ after }.answered s l n text =
        { b.answered s l n text with ready :=
          (b.ready ++ (before.filter (·.ticket = n)).map fun w =>
            (answerRounds s, w.caller.resume (.ok text))) ++
            (after.filter (·.ticket = n)).map fun w => (answerRounds s, w.caller.resume (.ok text)) } := by
      rw [answered_eq, answered_eq]
      simp [h, hticket]
    rw [heq]
    exact hdrop
  · have hwaiting : (b.answered s l n text).waiting =
        before.filter (·.ticket ≠ n) ++ w :: after.filter (·.ticket ≠ n) := by
      rw [answered_eq]
      simp [h, hticket]
    have heq : { b with waiting := before ++ after }.answered s l n text =
        { b.answered s l n text with
          waiting := before.filter (·.ticket ≠ n) ++ after.filter (·.ticket ≠ n) } := by
      rw [answered_eq, answered_eq]
      simp [h, hticket]
    rw [heq]
    exact .leave hwaiting

theorem leave_register (h : b.waiting = before ++ w :: after) (f : File) :
    Acts s (b.register s f).1 (w.caller.number?.toList.map .abandon)
      ({ b with waiting := before ++ after }.register s f).1 := by
  cases hurl : s.project.url f.path.normal with
  | error e =>
    rw [register_of_error hurl, register_of_error hurl]
    exact .leave h
  | ok u =>
    have hstored : (b.stored u f (b.registerLog s f)).waiting = before ++ w :: after := h
    have hrest : ({ b with waiting := before ++ after } : Build C).stored u f (b.registerLog s f) =
        { b.stored u f (b.registerLog s f) with waiting := before ++ after } := rfl
    cases hcurrent : b.waitlist.current? f.path.normal with
    | none =>
      rw [register_of_none hurl hcurrent, register_of_none hurl (by exact hcurrent)]
      exact .leave hstored
    | some n =>
      rw [register_of_some hurl hcurrent, register_of_some hurl (by exact hcurrent)]
      exact leave_answered hstored _ n f.text

theorem leave_release (h : b.waiting = before ++ w :: after) (p : Path) :
    Acts s (b.release s p) (w.caller.number?.toList.map .abandon)
      ({ b with waiting := before ++ after }.release s p) := by
  cases hcurrent : b.waitlist.current? p with
  | none =>
    simp only [release, hcurrent]
    exact .leave h
  | some n =>
    simp only [release, hcurrent, Waitlist.release_eq hcurrent]
    exact leave_answered h b.waitlist n []

end

/-- Who cancels a load changes nothing for the others. -/
theorem Acts.cancels (h : Acts s b es b') (hes : .abandon n ∈ es) : b'.waitlist = b.waitlist ∧
    b'.files = b.files ∧ (∀ w ∈ b.waiting, w.caller.number? ≠ some n → w ∈ b'.waiting) ∧
    ∀ k answer, k ≠ n → b.Due k answer → b'.Due k answer := by
  cases h with
  | @leave before after w h =>
    refine ⟨rfl, rfl, fun v hv hne => ?_, fun _ _ _ hdue => hdue⟩
    obtain ⟨k, hk, heq⟩ := List.mem_map.1 hes
    obtain rfl := Deed.abandon.inj heq
    rw [h] at hv
    simp only [List.mem_append, List.mem_cons] at hv ⊢
    rcases hv with hv | rfl | hv
    · exact .inl hv
    · exact absurd (Option.mem_toList.1 hk) hne
    · exact .inr hv
  | drop h =>
    obtain ⟨k, hk, heq⟩ := List.mem_map.1 hes
    obtain rfl := Deed.abandon.inj heq
    have hspares := spares_drop h
    refine ⟨rfl, rfl, fun v hv _ => hv, fun i answer hne hdue => hspares.kept i answer (fun heq => hne ?_) hdue⟩
    exact Option.some.inj (heq.symm.trans (Option.mem_toList.1 hk))
  | @job before after _ j =>
    have hsingle := single_deeds (s := s) { b with ready := before ++ after } j
    generalize deeds s _ _ = es at hes hsingle
    cases hsingle <;> simp at hes
  | register => simp at hes
  | _ => cases hes

/-! ### Runs -/

/-- How an act treats those who wait. -/
structure Shares (s : Setup) (b : Build C) (es : List Deed) (b' : Build C) : Prop where
  -- A ticket stays, or its file is registered.
  stays : ∀ p n, b.waitlist.current? p = some n → b'.waitlist.current? p = some n ∨
    b'.waitlist.current? p = none ∧ ∃ f, es = [.register f] ∧ f.path.normal = p
  -- Everybody who waits for the file goes on with its text.
  wakes : ∀ f, es = [.register f] → ∀ w ∈ b.waiting, w.path = f.path.normal → ∃ b₁, Deals s b es b₁ ∧
    (answerRounds s, w.caller.resume (.ok f.text)) ∈ b₁.ready ∧ Deals s b₁ [] b'
  -- Whoever asks for it from outside gets its text, and no other answer.
  answers : ∀ f, es = [.register f] → ∀ w ∈ b.waiting, w.path = f.path.normal → ∀ n, w.caller = .client n →
    ∀ ds past x, Runs s b' ds (x :: past) → .abandon n ∉ ds → x.Answered n (.ok f.text)
  done : ∀ f u, es = [.register f] → s.project.url f.path.normal = .ok u →  -- Nobody waits for it any more.
    ∀ w ∈ b'.waiting, w.path ≠ f.path.normal
  -- A load that is cancelled takes nothing with it.
  cancels : ∀ n, .abandon n ∈ es → b'.waitlist = b.waitlist ∧ b'.files = b.files ∧
    (∀ w ∈ b.waiting, w.caller.number? ≠ some n → w ∈ b'.waiting) ∧
    ∀ k answer, k ≠ n → b.Due k answer → b'.Due k answer

/-- Once it is registered, a file goes to those from outside who wait for it. -/
theorem secured_register (hproject : s.project.Rooted) (hb : Ticketed s b) (hnumbered : Numbered b)
    {w : Waiter C} (hw : w ∈ b.waiting) (hpath : w.path = f.path.normal) (hn : w.caller = .client n) :
    Secured n (.ok f.text) [] (b.register s f).1 := by
  refine ⟨(Deal.register (s := s) b f).numbered hnumbered, fun _ => .inr ⟨answerRounds s, ?_⟩⟩
  have hwakes := register_wakes hproject hb hw hpath
  rwa [hn] at hwakes

theorem Acts.shares (hproject : s.project.Rooted) (hb : Ticketed s b) (hnumbered : Numbered b)
    (h : Acts s b es b') : Shares s b es b' := by
  -- before a file is registered, those who wait and their numbers stay
  have hbefore : ∀ {b₁ : Build C}, Steady b b₁ → Ticketed s b₁ ∧ Numbered b₁ := fun hsteady =>
    ⟨hb.keep hsteady.spares.waitlist hsteady.spares.waiting,
      hnumbered.of_subperm hsteady.spares.numbers hsteady.spares.loads⟩
  refine ⟨fun p n hp => h.current? hproject hb hp, ?_, ?_, ?_, fun n hn => h.cancels hn⟩
  · rintro f rfl w hw hpath
    obtain ⟨b₁, hsteady, hwaiting, hdeals⟩ := h.registers rfl
    exact ⟨_, hsteady.trans_deals (Deal.register b₁ f).deals,
      register_wakes hproject (hbefore hsteady).1 (hwaiting ▸ hw) hpath, hdeals⟩
  · rintro f rfl w hw hpath n hn ds past x hruns hds
    obtain ⟨b₁, hsteady, hwaiting, hdeals⟩ := h.registers rfl
    obtain ⟨hb₁, hnumbered₁⟩ := hbefore hsteady
    have hsecured : Secured n (.ok f.text) ([] ++ []) b' :=
      hdeals.preserve (P := fun ds b => Secured n (.ok f.text) ds b) (fun hb hdeal => hdeal.secured hb)
        (secured_register hproject hb₁ hnumbered₁ (hwaiting ▸ hw) hpath hn)
    exact (hruns.secured hsecured).answered hds
  · rintro f u rfl hurl w hw hpath
    obtain ⟨b₁, hsteady, -, hdeals⟩ := h.registers rfl
    -- those who wait have their paths on the list
    have hcurrent := ((hdeals.ticketed (ticketed_register (hbefore hsteady).1 f)).waiting w hw).1
    have hmem : w.path ∈ b'.waitlist.keys := mem_keys_iff.2 (by rw [hcurrent]; nofun)
    have hkeys := h.recorded.2
    simp only [List.foldl_cons, List.foldl_nil, Setup.pendingAfter, hurl] at hkeys
    rw [hkeys, List.mem_filter, decide_eq_true_eq] at hmem
    exact hmem.2 hpath

/-- **Waiting together.**  In any interleaving of loads, cancellations, releases, timeouts and registrations,
each path is asked for at most once, when its only ticket is given out; the ticket stays until the file is
registered, and then everybody who still waits gets its text.  Whoever leaves changes nothing for the
others: he might as well leave after the answer. -/
theorem Runs.waits_together (hproject : s.project.Rooted) (h : Runs s (initial C s.project) ds (b :: past)) :
    (pushes ds).Nodup ∧ b.waitlist.tickets.length = (pushes ds).length ∧
    (∀ es b', Acts s b es b' → Shares s b es b') ∧
    ∀ before w after, b.waiting = before ++ w :: after →
      (∀ f, Acts s (b.register s f).1 (w.caller.number?.toList.map .abandon)
        ({ b with waiting := before ++ after }.register s f).1) ∧
      ∀ p, Acts s (b.release s p) (w.caller.number?.toList.map .abandon)
        ({ b with waiting := before ++ after }.release s p) := by
  have hb := h.ticketed (ticketed_initial s)
  have hnumbered := h.numbered (numbered_initial s.project)
  have hfetches := h.fetches hproject
  exact ⟨hfetches.nodup, hfetches.tickets, fun es b' hact => hact.shares hproject hb hnumbered,
    fun before w after hw => ⟨leave_register hw, leave_release hw⟩⟩

theorem waiting_scriptAwaited : scriptAwaited.waiting = [⟨0, "/app/a.js", .client 0⟩] := rfl

/-- Whoever waits for the script gets its text, and no other. -/
theorem shares_script : (pushes [.seek "/app/a.js", .push "/app/a.js"]).Nodup ∧
    Acts scriptSetup scriptAwaited [.register ⟨"/app/a.js", Text.encode "x"⟩] (scriptAt "/app/a.js") ∧
    Shares scriptSetup scriptAwaited [.register ⟨"/app/a.js", Text.encode "x"⟩] (scriptAt "/app/a.js") ∧
    (scriptAt "/app/a.js").Answered 0 (.ok "x") := by
  have hproject : scriptSetup.project.Rooted := ⟨by decide⟩
  obtain ⟨hnodup, -, hacts, -⟩ := runs_scriptAwaited.waits_together hproject
  have hact : Acts scriptSetup scriptAwaited [.register ⟨"/app/a.js", Text.encode "x"⟩] (scriptAt "/app/a.js") :=
    .register scriptAwaited _
  have hwaits : (⟨0, "/app/a.js", .client 0⟩ : Waiter needless) ∈ scriptAwaited.waiting := by
    rw [waiting_scriptAwaited]
    exact List.mem_cons_self
  exact ⟨hnodup, hact, hacts _ _ hact, (hacts _ _ hact).answers _ rfl _ hwaits (by decide) 0 rfl [] [] _
    .start nofun⟩

end HtmlDeps.Build
