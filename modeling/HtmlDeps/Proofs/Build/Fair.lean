import HtmlDeps.Proofs.Build.Agreement
import HtmlDeps.Proofs.Build.Cases
import HtmlDeps.Proofs.Build.Ticketed

/-!
# What becomes of those who wait

A request that is released, or that has waited too long, is answered with nothing, and its path stays
on the list of what is waited for until a file is registered for it.  So every reply is honest, that
is, the text of the file registered under the path, or else the ticket of its path has been answered
and is still on the list (`Fair`).  This is what every job of a running build sees to (`fares_run`).
-/

namespace HtmlDeps.Build

variable {C : Crawler} {s : Setup} {b b' b₁ b₂ : Build C} {rs rs' : List (Reply C)} {r : Reply C}
  {p : Path} {n : Nat} {f : File} {j : Job C}

/-- The text of a reply is that of the file registered under the path that was asked for. -/
def Honest (s : Setup) (b : Build C) (r : Reply C) : Prop :=
  ∀ p, r.path = some p → ∃ f, b.fileAt s p = .ok (some f) ∧ r.text = f.text

/-- A path is waited for, but its ticket has been answered. -/
def Settled (b : Build C) (p : Path) : Prop :=
  ∃ n, b.waitlist.current? p = some n ∧ b.waitlist.ticket? n ≠ some .open

/-- A reply is honest, or its path is still waited for, with a ticket that has been answered. -/
def Fair (s : Setup) (b : Build C) (r : Reply C) : Prop :=
  Honest s b r ∨ ∃ p, r.path = some p ∧ Settled b p

theorem Settled.keep (h : Settled b p) (hwaitlist : b'.waitlist = b.waitlist) : Settled b' p := by
  unfold Settled
  rw [hwaitlist]
  exact h

theorem fileAt_eq (h : b'.files = b.files) (p : Path) : b'.fileAt s p = b.fileAt s p := by
  have hfile : b'.file? = b.file? := by
    funext u
    unfold file?
    rw [h]
  unfold fileAt
  rw [hfile]

theorem Honest.keep (h : Honest s b r) (hfiles : b'.files = b.files) : Honest s b' r := by
  intro p hp
  rw [fileAt_eq hfiles]
  exact h p hp

/-! ### Requests -/

theorem waitlist_await (b : Build C) (n : Nat) (p : Path) (c : Caller C) :
    (b.await s n p c).waitlist = b.waitlist := by
  unfold await
  split
  · split <;> rfl
  · rfl

theorem files_release (b : Build C) (p : Path) : (b.release s p).files = b.files := by
  rcases release_cases s b p with ⟨-, heq⟩ | ⟨n, -, heq⟩ <;> rw [heq]
  rfl

theorem Shift.files (h : Shift s b b' rs) : b'.files = b.files := by
  cases h with
  | note | fault | external | found | create => rfl
  | enqueue ctx u p =>
    unfold enqueueUrl
    split
    · rfl
    · unfold Build.enqueue
      dsimp only
      split <;> rfl
  | await =>
    unfold Build.await
    split
    · split <;> rfl
    · rfl
  | release p => exact files_release b p

/-- An answer leaves a ticket settled that was settled before. -/
theorem Settled.answered (h : Settled b p) (n : Nat) (text : Text) :
    Settled (b.answered s b.waitlist n text) p := by
  obtain ⟨m, hm, hsettled⟩ := h
  exact ⟨m, hm, Waitlist.ticket?_answer_ne_open hsettled⟩

theorem settled_answered (hn : b.waitlist.current? p = some n) (text : Text) :
    Settled (b.answered s b.waitlist n text) p :=
  ⟨n, hn, Waitlist.ticket?_answer_self_ne_open⟩

theorem Settled.release (h : Settled b p) (q : Path) : Settled (b.release s q) p := by
  rcases release_cases s b q with ⟨-, heq⟩ | ⟨n, -, heq⟩ <;> rw [heq]
  · exact h
  · exact h.answered n []

/-- A path that is waited for is settled by its release. -/
theorem settled_release (hp : b.waitlist.current? p ≠ none) : Settled (b.release s p) p := by
  rcases release_cases s b p with ⟨hnone, -⟩ | ⟨n, hn, heq⟩
  · exact absurd hnone hp
  · rw [heq]
    exact settled_answered hn []

theorem Shift.settled (hb : Ticketed s b) (h : Shift s b b' rs) (hp : Settled b p) :
    Settled b' p := by
  cases h with
  | note | fault | external | found => exact hp
  | @create t u hnone _ =>
    obtain ⟨n, hn, hsettled⟩ := hp
    obtain ⟨ticket, hticket, -⟩ := hb.ticket p n hn
    have hne : s.project.path t ≠ p := by
      rintro rfl
      rw [hnone] at hn
      cases hn
    refine ⟨n, ?_, ?_⟩
    · rw [Waitlist.current?_create, if_neg hne]
      exact hn
    · rw [Waitlist.ticket?_create_of_lt (List.getElem?_eq_some_iff.1 hticket).1]
      exact hsettled
  | enqueue ctx u q => exact hp.keep (waitlist_enqueueUrl b ctx u q)
  | await _ c => exact hp.keep (waitlist_await b _ _ c)
  | release q => exact hp.release q

/-- Those who wait for a path get its release. -/
theorem fair_release (hb : Ticketed s b) (p : Path) :
    ∀ r ∈ b.releaseReplies p, Fair s (b.release s p) r := by
  intro r hr
  rcases release_cases s b p with ⟨hnone, -⟩ | ⟨n, hn, heq⟩
  · rw [releaseReplies, hnone] at hr
    cases hr
  · rw [releaseReplies, hn] at hr
    obtain ⟨w, hw, rfl⟩ := List.mem_map.1 hr
    obtain ⟨hw, hticket⟩ := List.mem_filter.1 hw
    obtain ⟨hcurrent, -⟩ := hb.waiting w hw
    obtain rfl : w.ticket = n := of_decide_eq_true hticket
    rw [heq]
    exact .inr ⟨w.path, rfl, settled_answered hcurrent []⟩

theorem Shift.fair (hb : Ticketed s b) (h : Shift s b b' rs) : ∀ r ∈ rs, Fair s b' r := by
  intro r hr
  cases h with
  | note | fault | create | enqueue => cases hr
  | external c =>
    obtain rfl := List.mem_singleton.1 hr
    exact .inl nofun
  | @found p f hfile c =>
    obtain rfl := List.mem_singleton.1 hr
    left
    intro q hq
    obtain rfl := Option.some.inj hq
    exact ⟨f, hfile, rfl⟩
  | @await p n hn c =>
    unfold awaitReplies at hr
    split at hr
    · rename_i t hanswered
      obtain rfl := List.mem_singleton.1 hr
      refine .inr ⟨p, rfl, Settled.keep ⟨n, hn, ?_⟩ (waitlist_await b n p c)⟩
      rw [hanswered]
      nofun
    · cases hr
  | release p => exact fair_release hb p r hr

theorem Fair.shift (hb : Ticketed s b) (h : Shift s b b' rs) (hr : Fair s b r) : Fair s b' r := by
  rcases hr with hhonest | ⟨p, hp, hsettled⟩
  · exact .inl (hhonest.keep h.files)
  · exact .inr ⟨p, hp, h.settled hb hsettled⟩

/-! ### What a job does for those who wait -/

/-- What becomes of those who wait, and what is replied to them. -/
structure Fares (s : Setup) (b b' : Build C) (rs : List (Reply C)) : Prop where
  ticketed : Ticketed s b'
  fair : ∀ r ∈ rs, Fair s b' r
  settled : ∀ p, Settled b p → Settled b' p ∨ b'.waitlist.current? p = none
  kept : ∀ x ∈ b.ready, x ∈ b'.ready
  ready : ∀ x ∈ b'.ready, ∀ w, x.2 = .expire w → x ∈ b.ready

/-- Nothing that concerns those who wait. -/
structure Idle (b b' : Build C) : Prop where
  waitlist : b'.waitlist = b.waitlist
  waiting : ∀ w ∈ b'.waiting, w ∈ b.waiting
  files : b'.files = b.files
  kept : ∀ x ∈ b.ready, x ∈ b'.ready
  ready : ∀ x ∈ b'.ready, ∀ w, x.2 = .expire w → x ∈ b.ready

/-- The list of jobs stays the same. -/
theorem idle_of_ready (hwaitlist : b'.waitlist = b.waitlist)
    (hwaiting : ∀ w ∈ b'.waiting, w ∈ b.waiting) (hfiles : b'.files = b.files)
    (hready : b'.ready = b.ready) : Idle b b' :=
  ⟨hwaitlist, hwaiting, hfiles, fun _ hx => hready ▸ hx, fun _ hx _ _ => hready ▸ hx⟩

theorem Idle.refl (b : Build C) : Idle b b := idle_of_ready rfl (fun _ hw => hw) rfl rfl

theorem Idle.trans (h : Idle b b₁) (h' : Idle b₁ b₂) : Idle b b₂ where
  waitlist := h'.waitlist.trans h.waitlist
  waiting w hw := h.waiting w (h'.waiting w hw)
  files := h'.files.trans h.files
  kept x hx := h'.kept x (h.kept x hx)
  ready x hx w hw := h.ready x (h'.ready x hx w hw) w hw

theorem idle_goOn (b : Build C) (hj : ∀ w, j ≠ .expire w) : Idle b (b.goOn j) := by
  refine ⟨rfl, fun _ hw => hw, rfl, fun _ hx => List.mem_cons_of_mem _ hx, fun x hx w hw => ?_⟩
  rcases List.mem_cons.1 hx with rfl | hx
  · exact absurd hw (hj w)
  · exact hx

theorem idle_scheduleAll (b : Build C) {js : List (Job C)} (hjs : ∀ j ∈ js, ∀ w, j ≠ .expire w) :
    Idle b (b.scheduleAll js) := by
  refine ⟨rfl, fun _ hw => hw, rfl, fun _ hx => List.mem_append_left _ hx, fun x hx w hw => ?_⟩
  rcases List.mem_append.1 hx with hx | hx
  · exact hx
  · obtain ⟨j, hj, rfl⟩ := List.mem_map.1 hx
    exact absurd hw (hjs j hj w)

theorem idle_schedule (b : Build C) (n : Nat) (hj : ∀ w, j ≠ .expire w) :
    Idle b (b.schedule n j) := by
  refine ⟨rfl, fun _ hw => hw, rfl, fun _ hx => List.mem_append_left _ hx, fun x hx w hw => ?_⟩
  rcases List.mem_append.1 hx with hx | hx
  · exact hx
  · obtain rfl := List.mem_singleton.1 hx
    exact absurd hw (hj w)

theorem Idle.fares (h : Idle b b') (hb : Ticketed s b) : Fares s b b' [] where
  ticketed := hb.keep h.waitlist h.waiting
  fair := nofun
  settled _ hp := .inl (hp.keep h.waitlist)
  kept := h.kept
  ready := h.ready

theorem Idle.trans_fares (h : Idle b b₁) (h' : Fares s b₁ b₂ rs) : Fares s b b₂ rs where
  ticketed := h'.ticketed
  fair := h'.fair
  settled p hp := h'.settled p (hp.keep h.waitlist)
  kept x hx := h'.kept x (h.kept x hx)
  ready x hx w hw := h.ready x (h'.ready x hx w hw) w hw

theorem Fares.trans_idle (h : Fares s b b₁ rs) (h' : Idle b₁ b₂) : Fares s b b₂ rs where
  ticketed := h.ticketed.keep h'.waitlist h'.waiting
  fair r hr := by
    rcases h.fair r hr with hhonest | ⟨p, hp, hsettled⟩
    · exact .inl (hhonest.keep h'.files)
    · exact .inr ⟨p, hp, hsettled.keep h'.waitlist⟩
  settled p hp := by
    rw [h'.waitlist]
    exact (h.settled p hp).imp_left fun hsettled => hsettled.keep h'.waitlist
  kept x hx := h'.kept x (h.kept x hx)
  ready x hx w hw := h.ready x (h'.ready x hx w hw) w hw

theorem resume_ne_expire (c : Caller C) (answer : Except Fault Text) (w : Waiter C) :
    c.resume answer ≠ .expire w := by
  cases c <;> exact nofun

theorem Requests.fares (h : Requests s b b' rs) (hb : Ticketed s b) :
    Fares s b b' rs := by
  have htells := h.tells
  refine ⟨h.ticketed hb, ?_, fun p hp => .inl ?_, htells.kept, fun x hx w hw => ?_⟩
  · induction h with
    | refl => exact nofun
    | step hpast hshift ih =>
      have hticketed := hpast.ticketed hb
      intro r hr
      rcases List.mem_append.1 hr with hr | hr
      · exact (ih hpast.tells r hr).shift hticketed hshift
      · exact hshift.fair hticketed r hr
  · clear htells
    induction h with
    | refl => exact hp
    | step hpast hshift ih => exact hshift.settled (hpast.ticketed hb) ih
  · rcases htells.only x hx with hx | hpump | ⟨c, f, hfault⟩ | ⟨r, -, hreply⟩
    · exact hx
    · cases hpump.symm.trans hw
    · exact absurd (hfault.symm.trans hw) (resume_ne_expire c _ w)
    · exact absurd (hreply.symm.trans hw) (resume_ne_expire r.caller _ w)

/-! ### Files -/

/-- A file that is found under its URL is found under its path. -/
theorem fileAt_stored (hproject : s.project.Rooted) (hinside : s.project.Inside p) {u : Text}
    (hurl : s.project.url p = .ok u) (hfiles : b'.files = b.files.put u f) :
    b'.fileAt s p = .ok (some f) := by
  unfold fileAt
  rw [hurl]
  change Except.ok (b'.file? u) = _
  rw [file?_eq b' (hinside.dropLeading_url hproject hurl), hfiles, Table.get?_put, if_pos rfl]

/-- A file that is registered is what those get who wait for it. -/
theorem fares_register (hproject : s.project.Rooted) (hb : Ticketed s b)
    (h : b.register s f = (b', none)) : Fares s b b' (b.registerReplies s f) := by
  have hticketed := hb.register h
  obtain ⟨u, log, hurl, ⟨hcurrent, rfl⟩ | ⟨n, hcurrent, rfl⟩⟩ := register_stored h
  · have hnone : b.registerReplies s f = [] := by
      unfold registerReplies
      rw [hurl, hcurrent]
      rfl
    rw [hnone]
    exact ⟨hticketed, nofun, fun p hp => .inl hp, fun x hx => hx, fun x hx _ _ => hx⟩
  · have hreplies : b.registerReplies s f = b.wakeReplies n f.text := by
      unfold registerReplies
      rw [hurl, hcurrent]
      rfl
    have htells := tells_wake (s := s) { b.stored u f log with
      waitlist := Waitlist.answer ⟨b.waitlist.entries.erase f.path.normal, b.waitlist.tickets⟩ n
        f.text } n f.text
    rw [hreplies]
    refine ⟨hticketed, fun r hr => .inl ?_, fun p hp => ?_, htells.kept, fun x hx w hw => ?_⟩
    · obtain ⟨w, hw, rfl⟩ := List.mem_map.1 hr
      obtain ⟨hwaiting, hticket⟩ := List.mem_filter.1 hw
      obtain rfl : w.ticket = n := of_decide_eq_true hticket
      intro p hp
      obtain rfl : w.path = p := Option.some.inj hp
      -- a ticket belongs to one path only
      have hpath : w.path = f.path.normal := hb.apart _ _ _ (hb.waiting w hwaiting).1 hcurrent
      refine ⟨f, ?_, rfl⟩
      rw [hpath]
      exact fileAt_stored hproject (hb.inside _ _ hcurrent) hurl rfl
    · obtain ⟨m, hm, hsettled⟩ := hp
      change (∃ m, Table.get? (b.waitlist.entries.erase f.path.normal) p = some m ∧ _) ∨
        Table.get? (b.waitlist.entries.erase f.path.normal) p = none
      rw [Table.get?_erase]
      split
      · exact .inr rfl
      · exact .inl ⟨m, hm, Waitlist.ticket?_answer_ne_open hsettled⟩
    · rcases htells.only x hx with hx | hpump | ⟨c, g, hfault⟩ | ⟨r, -, hreply⟩
      · exact hx
      · cases hpump.symm.trans hw
      · exact absurd (hfault.symm.trans hw) (resume_ne_expire c _ w)
      · exact absurd (hreply.symm.trans hw) (resume_ne_expire r.caller _ w)

theorem registerReplies_of_fault {e : Fault} (h : b.register s f = (b', some e)) :
    b.registerReplies s f = [] ∧ Idle b b' := by
  unfold register at h
  unfold registerReplies
  dsimp only at h
  cases hurl : s.project.url f.path.normal with
  | error e' =>
    rw [hurl] at h
    obtain ⟨rfl, -⟩ := Prod.mk.inj h
    exact ⟨rfl, idle_of_ready rfl (fun _ hw => hw) rfl rfl⟩
  | ok u =>
    rw [hurl] at h
    dsimp only at h
    split at h <;> cases h

theorem idle_claim (b : Build C) (f : File) : Idle b (b.claim f) := by
  rcases claim_cases b f with ⟨-, -, heq⟩ | ⟨-, heq⟩ <;> rw [heq]
  · have hclaimed : Idle b { b with
        claimed := b.claimed ++ [f.path.normal]
        analyses := b.analyses ++ [⟨f.path.normal, false, none, none⟩] } :=
      idle_of_ready rfl (fun _ hw => hw) rfl rfl
    exact hclaimed.trans (idle_schedule _ 0 nofun)
  · exact .refl b

/-! ### The pumps -/

theorem fares_pumpSources (hproject : s.project.Rooted) (hb : Ticketed s b)
    (hrunning : (b.pumpSources s).status = .running) :
    Fares s b (b.pumpSources s) (b.pumpSourcesReplies s) := by
  unfold pumpSourcesReplies
  obtain ⟨hincoming, hb'⟩ | ⟨rest, b₁, hincoming, hmissing, hrelease, hb'⟩ |
    ⟨f, rest, b₁, o, hincoming, hregister, -, hb'⟩ := pumpSources_cases rfl hrunning
  · rw [hb', hincoming]
    refine Idle.fares ?_ hb
    exact idle_of_ready rfl (fun _ hw => hw) rfl rfl
  · rw [hb', hincoming]
    dsimp only
    rw [if_pos (by exact hmissing)]
    have hidle : Idle b { b with incoming := rest, exhausted := true } :=
      idle_of_ready rfl (fun _ hw => hw) rfl rfl
    have hrequests := requests_releaseSources (s := s)
      { b with incoming := rest, exhausted := true } b.waitlist.keys
    rw [hrelease] at hrequests
    have hfares := hidle.trans_fares
      (hrequests.fares (hb.keep hidle.waitlist hidle.waiting))
    exact hfares.trans_idle (idle_of_ready rfl (fun _ hw => hw) rfl rfl)
  -- Registering and claiming leave the status alone, so a build that runs now did not fail before.
  · have hstatus : b.status ≠ .failed := by
      intro hfailed
      have hrest := status_register (s := s) { b with incoming := rest } f
      rw [hregister] at hrest
      rw [hb', goOn] at hrunning
      rw [show ((b₁.claim f).status) = b.status from (status_claim b₁ f).trans hrest, hfailed]
        at hrunning
      cases hrunning
    rw [hb', hincoming]
    dsimp only
    rw [if_neg hstatus]
    have hidle : Idle b { b with incoming := rest } := idle_of_ready rfl (fun _ hw => hw) rfl rfl
    have hfares := (hidle.trans_fares (fares_register hproject
      (hb.keep hidle.waitlist hidle.waiting) hregister)).trans_idle (idle_claim b₁ f)
    have hsent : Idle (b₁.claim f) { b₁.claim f with sources := o } :=
      idle_of_ready rfl (fun _ hw => hw) rfl rfl
    exact hfares.trans_idle (hsent.trans (idle_goOn _ nofun))

theorem fares_deliver (hproject : s.project.Rooted) (hb : Ticketed s b)
    (hrunning : (b.deliver s p).status = .running) :
    Fares s b (b.deliver s p) (b.deliverReplies s p) := by
  obtain ⟨contents, b₁, o, hread, hregister, -, hb'⟩ := deliver_cases rfl hrunning
  unfold deliverReplies
  rw [hb', hread]
  have hfares := (fares_register hproject hb hregister).trans_idle (idle_claim b₁ ⟨p, contents⟩)
  have hsent : Idle (b₁.claim ⟨p, contents⟩)
      { b₁.claim ⟨p, contents⟩ with dependencies := o, dependencyPump := .working } :=
    idle_of_ready rfl (fun _ hw => hw) rfl rfl
  exact hfares.trans_idle (hsent.trans (idle_goOn _ nofun))

theorem fares_pumpDependencies (hproject : s.project.Rooted) (hb : Ticketed s b)
    (hrunning : (b.pumpDependencies s).status = .running) :
    Fares s b (b.pumpDependencies s) (b.pumpDependenciesReplies s) := by
  revert hrunning
  unfold pumpDependencies pumpDependenciesReplies
  cases b.queue with
  | nil =>
    refine fun _ => Idle.fares ?_ hb
    exact idle_of_ready rfl (fun _ hw => hw) rfl rfl
  | cons item rest =>
    cases item with
    | none =>
      refine fun _ => Idle.fares ?_ hb
      dsimp only
      split <;> exact idle_of_ready rfl (fun _ hw => hw) rfl rfl
    | some q =>
      intro hrunning
      dsimp only at hrunning ⊢
      cases hgated : s.gated with  -- A read that is held back answers nobody yet.
      | true =>
        refine Idle.fares ?_ hb
        exact idle_of_ready rfl (fun _ hw => hw) rfl rfl
      | false =>
        simp only [hgated, Bool.false_eq_true, if_false] at hrunning ⊢
        have hidle : Idle b { b with
            queue := rest
            reads := b.reads ++ [⟨(s.project.url q).toOption.getD q.toText, q, .delivered⟩]
            dependencyPump := .reading } := idle_of_ready rfl (fun _ hw => hw) rfl rfl
        exact hidle.trans_fares
          (fares_deliver hproject (hb.keep hidle.waitlist hidle.waiting) hrunning)

/-! ### Analyses -/

theorem idle_settleAnalysis {a : Nat} {outcome : Except Fault Unit}
    (hrunning : (b.settleAnalysis s a outcome).status = .running) :
    Idle b (b.settleAnalysis s a outcome) := by
  revert hrunning
  unfold settleAnalysis
  dsimp only
  split
  · split
    · exact fun _ => idle_of_ready rfl (fun _ hw => hw) rfl rfl
    · intro hrunning
      rw [status_crash] at hrunning
      cases hrunning
  · exact fun _ => idle_of_ready rfl (fun _ hw => hw) rfl rfl

/-- As long as the build goes on, the end of a crawl is nothing to those who wait. -/
theorem idle_conclude {a : Nat} {url : Text} {report : Report}
    (hrunning : (b.conclude s a p url report).status = .running) :
    Idle b (b.conclude s a p url report) := by
  revert hrunning
  obtain ⟨log, hlog⟩ := foldl_note_eq (s.analysisContext url)
    (Deps.ofReferences report.references).1.notes
    { b with warnings := Warnings.addAll b.warnings report.warnings }
  unfold conclude
  dsimp only
  rw [hlog]
  have hnoted : ∀ log, Idle b { b with
      warnings := Warnings.addAll b.warnings report.warnings, log := log } := fun log =>
    idle_of_ready rfl (fun _ hw => hw) rfl rfl
  split
  · exact fun hrunning => (hnoted log).trans (idle_settleAnalysis hrunning)
  · split
    · exact fun hrunning => (hnoted _).trans (idle_settleAnalysis hrunning)
    · rename_i b₁ henter
      obtain ⟨i, -, rfl⟩ := enter_eq henter
      intro hrunning
      refine Idle.trans ?_ (idle_settleAnalysis hrunning)
      split
      · rename_i hempty
        rw [if_pos hempty, status_settleAnalysis_ok] at hrunning
        exact absurd hrunning (status_complete _ _)
      · exact idle_of_ready rfl (fun _ hw => hw) rfl rfl

theorem fares_turn (hb : Ticketed s b) {a : Nat} {t : C.Thread}
    (hrunning : (b.turn s a t).status = .running) :
    Fares s b (b.turn s a t) (b.turnReplies s a t) := by
  revert hrunning
  unfold turn turnReplies
  cases b.analyses[a]? with
  | none => exact fun _ => (Idle.refl b).fares hb
  | some x =>
    dsimp only
    cases x.crawl with
    | none => exact fun _ => (Idle.refl b).fares hb
    | some crawl =>
      obtain ⟨url, memory⟩ := crawl
      dsimp only
      -- The notes of the turn change the log, which no reply depends on.
      obtain ⟨log, hlog⟩ := foldl_note_eq (s.analysisContext url) (C.turn memory t).notes
        { b with analyses := b.analyses.set a { x with crawl := some (url, (C.turn memory t).memory) } }
      rw [hlog]
      have hmoved : Idle b { b with
          analyses := b.analyses.set a { x with crawl := some (url, (C.turn memory t).memory) }
          log := log } := idle_of_ready rfl (fun _ hw => hw) rfl rfl
      have hticketed := hb.keep hmoved.waitlist hmoved.waiting
      intro hrunning
      cases hmove : (C.turn memory t).move with
      | ask u next =>
        exact hmoved.trans_fares ((requests_load _ u _).fares hticketed)
      | leave ts =>
        refine (hmoved.trans (idle_scheduleAll _ fun j hj => ?_)).fares hb
        obtain ⟨t, -, rfl⟩ := List.mem_map.1 hj
        exact nofun
      | finish outcome =>
        rw [hmove] at hrunning
        cases outcome with
        | error f => exact (hmoved.trans (idle_settleAnalysis hrunning)).fares hb
        | ok report => exact (hmoved.trans (idle_conclude hrunning)).fares hb

theorem idle_begin {a : Nat} (hrunning : (b.begin s a).status = .running) :
    Idle b (b.begin s a) := by
  revert hrunning
  unfold begin
  cases b.analyses[a]? with
  | none => exact fun _ => .refl b
  | some x =>
    dsimp only
    cases s.project.url x.path with
    | error e => exact fun hrunning => idle_settleAnalysis hrunning
    | ok url =>
      intro _
      have hmoved : Idle b { b with
          analyses := b.analyses.set a { x with crawl := some (url, (C.start url).1) } } :=
        idle_of_ready rfl (fun _ hw => hw) rfl rfl
      exact hmoved.trans (idle_goOn _ nofun)

/-! ### All jobs -/

/-- Who has waited too long leaves a settled path behind. -/
theorem fares_expire (hb : Ticketed s b) {w : Waiter C}
    (hw : b.waitlist.current? w.path ≠ none) :
    Fares s b (b.expire s w) (b.expireReplies w) ∧ Settled (b.expire s w) w.path := by
  let noted := b.note (b.contextOf s w.caller) .error
    ("Timed out after " ++ s.timeout.getD [] ++ "s waiting for " ++ w.path.toText)
  have hnote : Idle b noted := idle_of_ready rfl (fun _ hw => hw) rfl rfl
  have hrelease := hnote.trans_fares
    ((Shift.release noted w.path).requests.fares (hb.keep hnote.waitlist hnote.waiting))
  have hexpire := hrelease.trans_idle (idle_goOn _ fun w' => resume_ne_expire w.caller (.ok []) w')
  have hsettled : Settled (b.expire s w) w.path := settled_release (b := noted) hw
  refine ⟨⟨hexpire.ticketed, fun r hr => ?_, hexpire.settled, hexpire.kept, hexpire.ready⟩, hsettled⟩
  rcases List.mem_append.1 hr with hr | hr
  · exact hexpire.fair r hr
  · obtain rfl := List.mem_singleton.1 hr
    exact .inr ⟨w.path, rfl, hsettled⟩

/-- **What a job does for those who wait.** -/
theorem fares_run (hproject : s.project.Rooted) (hb : Ticketed s b)
    (hexpire : ∀ w, j = .expire w → b.waitlist.current? w.path ≠ none)
    (hrunning : (b.run s j).status = .running) : Fares s b (b.run s j) (b.replies s j) := by
  cases j with
  | pumpSources => exact fares_pumpSources hproject hb hrunning
  | closeSources =>
    refine Idle.fares ?_ hb
    change Idle b b.closeSources
    unfold closeSources
    dsimp only
    split <;> exact idle_of_ready rfl (fun _ hw => hw) rfl rfl
  | pumpDependencies => exact fares_pumpDependencies hproject hb hrunning
  | deliver p => exact fares_deliver hproject hb hrunning
  | begin a => exact (idle_begin hrunning).fares hb
  | turn a t => exact fares_turn hb hrunning
  | load n u => exact (requests_load b u _).fares hb
  | loaded n answer =>
    refine Idle.fares ?_ hb
    exact idle_of_ready rfl (fun _ hw => hw) rfl rfl
  | expire w => exact (fares_expire hb (hexpire w rfl)).1

end HtmlDeps.Build
