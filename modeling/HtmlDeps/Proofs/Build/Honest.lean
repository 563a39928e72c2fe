import HtmlDeps.Proofs.Build.Fair
import HtmlDeps.Proofs.Build.Success

/-!
# Whether a build succeeds on answers that are made up

A path is given up when its ticket is answered before a file is registered for it, or when somebody
does not wait for it any longer.  It stays on the list of what is waited for, and then the build does
not succeed, unless the file comes after all (`Belated`).  If that never happens, a build that succeeds
has answered all requests honestly (`Life.honest_of_succeeded`).  If it does, a build may well succeed
although somebody was told that a file is empty that is not (`not_honest_late`).

The comment in `_wait_for`, “The entry stays pending; completion reports it as unresolved”, leaves this late
file out.
-/

namespace HtmlDeps.Build

variable {C : Crawler} {s : Setup} {b b' x y : Build C} {past : List (Build C)} {r : Reply C}
  {rs : List (Reply C)} {p : Path}

/-- A path is waited for, but its ticket has been answered, or one of those who wait for it will not
wait any longer. -/
def GivenUp (b : Build C) (p : Path) : Prop :=
  ∃ n, b.waitlist.current? p = some n ∧ (b.waitlist.ticket? n ≠ some .open ∨
    ∃ x ∈ b.ready, ∃ w, x.2 = .expire w ∧ w.path = p)

/-- The file for a path that was given up comes after all. -/
def Belated (b b' : Build C) : Prop := ∃ p, GivenUp b p ∧ b'.waitlist.current? p = none

/-- The states of a build, from before its start on, the last one first. -/
inductive Life (s : Setup) : List (Build C) → Prop
  | initial : Life s [initial C s.project]
  | start {b : Build C} {past : List (Build C)} (h : Life s (b :: past)) :
      Life s ((b.start s).1 :: b :: past)
  | step {b b' : Build C} {past : List (Build C)} (h : Life s (b :: past)) (hstep : Step s b b') :
      Life s (b' :: b :: past)

theorem Settled.givenUp (h : Settled b p) : GivenUp b p := h.imp fun _ h => ⟨h.1, .inl h.2⟩

/-- The tickets are in order, and who will not wait any longer has waited for a path that is still on
the list. -/
structure Awaiting (s : Setup) (b : Build C) : Prop where
  ticketed : Ticketed s b
  pending : ∀ x ∈ b.ready, ∀ w, x.2 = .expire w → b.waitlist.current? w.path ≠ none

/-- What was given up stays so, and those who wait are in order. -/
structure Abides (s : Setup) (b b' : Build C) : Prop where
  awaiting : Awaiting s b'
  givenUp : ∀ p, GivenUp b p → GivenUp b' p

/-! ### Steps of a running build -/

theorem Fares.abides (h : Fares s b b' rs) (hb : Awaiting s b) (hpunctual : ¬ Belated b b') :
    Abides s b b' := by
  refine ⟨⟨h.ticketed, fun x hx w hw hnone => ?_⟩, fun p hp => ?_⟩
  · have hx := h.ready x hx w hw
    obtain ⟨n, hn⟩ := Option.ne_none_iff_exists'.1 (hb.pending x hx w hw)
    exact hpunctual ⟨w.path, ⟨n, hn, .inr ⟨x, hx, w, hw, rfl⟩⟩, hnone⟩
  · have hcurrent : b'.waitlist.current? p ≠ none := fun hnone => hpunctual ⟨p, hp, hnone⟩
    obtain ⟨n, hn, hsettled | ⟨x, hx, hw⟩⟩ := hp
    · rcases h.settled p ⟨n, hn, hsettled⟩ with hsettled | hnone
      · exact hsettled.givenUp
      · exact absurd hnone hcurrent
    · obtain ⟨m, hm⟩ := Option.ne_none_iff_exists'.1 hcurrent
      exact ⟨m, hm, .inr ⟨x, h.kept x hx, hw⟩⟩

section

variable {before after : List (Nat × Job C)} {rounds : Nat} {j : Job C}

theorem mem_of_ready (hready : b.ready = before ++ (rounds, j) :: after) (z : Nat × Job C) :
    z ∈ b.ready ↔ z = (rounds, j) ∨ z ∈ before ++ after := by
  rw [hready]
  simp only [List.mem_append, List.mem_cons]
  exact or_left_comm

/-- A job is taken from the list. -/
theorem Awaiting.take (hb : Awaiting s b) (hready : b.ready = before ++ (rounds, j) :: after) :
    Awaiting s { b with ready := before ++ after } ∧
      ∀ w, j = .expire w → b.waitlist.current? w.path ≠ none := by
  refine ⟨⟨hb.ticketed.keep rfl fun _ hw => hw, fun z hz => ?_⟩, fun w hw => ?_⟩
  · exact hb.pending z ((mem_of_ready hready z).2 (.inr hz))
  · exact hb.pending (rounds, j) ((mem_of_ready hready _).2 (.inl rfl)) w hw

theorem abides_job (hproject : s.project.Rooted) (hb : Awaiting s b)
    (hready : b.ready = before ++ (rounds, j) :: after)
    (hrunning : ({ b with ready := before ++ after }.run s j).status = .running)
    (hpunctual : ¬ Belated b ({ b with ready := before ++ after }.run s j)) :
    Abides s b ({ b with ready := before ++ after }.run s j) := by
  obtain ⟨hrest, hexpire⟩ := hb.take hready
  have hfares := fares_run hproject hrest.ticketed hexpire hrunning
  have habides := hfares.abides hrest fun ⟨p, ⟨n, hn, hp⟩, hnone⟩ =>
    hpunctual ⟨p, ⟨n, hn, hp.imp_right fun ⟨z, hz, hw⟩ =>
      ⟨z, (mem_of_ready hready z).2 (.inr hz), hw⟩⟩, hnone⟩
  refine ⟨habides.awaiting, fun p hp => ?_⟩
  obtain ⟨n, hn, hsettled | ⟨z, hz, w, hw, rfl⟩⟩ := hp
  · exact habides.givenUp p ⟨n, hn, .inl hsettled⟩
  · rcases (mem_of_ready hready z).1 hz with rfl | hz
    · -- this is the job itself, which leaves a settled path behind
      obtain rfl : j = .expire w := hw
      exact (fares_expire hrest.ticketed (hexpire w rfl)).2.givenUp
    · exact habides.givenUp w.path ⟨n, hn, .inr ⟨z, hz, w, hw, rfl⟩⟩

theorem abides_delay (hb : Awaiting s b) {rest : List (Nat × Job C)}
    (hready : b.ready = (rounds + 1, j) :: rest) :
    Abides s b { b with ready := rest ++ [(rounds, j)] } := by
  refine ⟨⟨hb.ticketed.keep rfl fun _ hw => hw, fun z hz w hw => ?_⟩, fun p hp => ?_⟩
  · rcases List.mem_append.1 hz with hz | hz
    · exact hb.pending z (hready ▸ List.mem_cons_of_mem _ hz) w hw
    · obtain rfl := List.mem_singleton.1 hz
      exact hb.pending (rounds + 1, j) (hready ▸ List.mem_cons_self) w hw
  · obtain ⟨n, hn, hsettled | ⟨z, hz, w, hw, rfl⟩⟩ := hp
    · exact ⟨n, hn, .inl hsettled⟩
    · rw [hready] at hz
      rcases List.mem_cons.1 hz with rfl | hz
      · exact ⟨n, hn, .inr ⟨(rounds, j), List.mem_append_right _ List.mem_cons_self, w, hw, rfl⟩⟩
      · exact ⟨n, hn, .inr ⟨z, List.mem_append_left _ hz, w, hw, rfl⟩⟩

/-- Somebody will not wait any longer. -/
theorem abides_expire (hb : Awaiting s b) {before after : List (Waiter C)} {w : Waiter C}
    (hwaiting : b.waiting = before ++ w :: after) :
    Abides s b
      { b with waiting := before ++ after, ready := b.ready ++ [(3, .expire w)] } := by
  have hsub : ∀ w' ∈ before ++ after, w' ∈ b.waiting := by
    intro w' hw'
    rw [hwaiting]
    rcases List.mem_append.1 hw' with hw' | hw'
    · exact List.mem_append_left _ hw'
    · exact List.mem_append_right _ (List.mem_cons_of_mem _ hw')
  refine ⟨⟨hb.ticketed.keep rfl hsub, fun z hz w' hw' => ?_⟩, fun p hp => ?_⟩
  · rcases List.mem_append.1 hz with hz | hz
    · exact hb.pending z hz w' hw'
    · obtain rfl := List.mem_singleton.1 hz
      obtain rfl : w = w' := Job.expire.inj hw'
      have hmem : w ∈ b.waiting := hwaiting ▸ List.mem_append_right _ List.mem_cons_self
      rw [show b.waitlist.current? w.path = some w.ticket from (hb.ticketed.waiting w hmem).1]
      nofun
  · obtain ⟨n, hn, hsettled | ⟨z, hz, hw⟩⟩ := hp
    · exact ⟨n, hn, .inl hsettled⟩
    · exact ⟨n, hn, .inr ⟨z, List.mem_append_left _ hz, hw⟩⟩

end

theorem abides_works (hproject : s.project.Rooted) (hb : Awaiting s b) (h : Works s b b')
    (hrunning : b'.status = .running) (hpunctual : ¬ Belated b b') : Abides s b b' := by
  cases h with
  | job hready => exact abides_job hproject hb hready hrunning hpunctual
  | delay hready => exact abides_delay hb hready
  | @deliver before after r _ _ =>
    have hreads : Idle b { b with
        reads := before ++ { r with delivery := .delivered } :: after } :=
      idle_of_ready rfl (fun _ hw => hw) rfl rfl
    have hdeliver := hreads.trans (idle_schedule (j := .deliver r.path) _ 0 nofun)
    exact (hdeliver.fares hb.ticketed).abides hb hpunctual
  | expire _ hwaiting => exact abides_expire hb hwaiting

theorem fares_touches (hproject : s.project.Rooted) (hb : Ticketed s b) (h : Touches s b b') :
    ∃ rs, Fares s b b' rs := by
  cases h with  -- Only pushing and registering answer anyone.
  | arrive item =>
    refine ⟨[], Idle.fares ?_ hb⟩
    unfold arrive
    dsimp only
    split
    · have hworking : Idle b { b with incoming := b.incoming ++ [item], sourcePump := .working } :=
        idle_of_ready rfl (fun _ hw => hw) rfl rfl
      exact hworking.trans (idle_schedule (j := .pumpSources) _ 0 nofun)
    · exact idle_of_ready rfl (fun _ hw => hw) rfl rfl
  | ask url =>
    have hloads : Idle b { b with loads := b.loads ++ [none] } :=
      idle_of_ready rfl (fun _ hw => hw) rfl rfl
    have hload := hloads.trans (idle_schedule (j := .load b.loads.length url) _ 0 nofun)
    exact ⟨[], hload.fares hb⟩
  | push ctx url => exact ⟨_, (requests_push b ctx url).fares hb⟩
  | register f =>
    rcases hregister : b.register s f with ⟨b₁, fault⟩
    cases fault with
    | none => exact ⟨_, fares_register hproject hb hregister⟩
    | some e => exact ⟨[], (registerReplies_of_fault hregister).2.fares hb⟩
  | analyze p =>
    have hanalyses : Idle b { b with analyses := b.analyses ++ [⟨p, true, none, none⟩] } :=
      idle_of_ready rfl (fun _ hw => hw) rfl rfl
    have hbegin := hanalyses.trans (idle_schedule (j := .begin b.analyses.length) _ 0 nofun)
    exact ⟨[], hbegin.fares hb⟩
  | note ctx l m =>
    refine ⟨[], Idle.fares ?_ hb⟩
    exact idle_of_ready rfl (fun _ hw => hw) rfl rfl

theorem idle_enqueueExtras (b : Build C) (ps : List Path) :
    Idle b (b.enqueueExtras s ps).1 := by
  induction ps generalizing b with
  | nil => exact .refl b
  | cons p ps ih =>
    unfold enqueueExtras
    split
    · exact .refl b
    · refine Idle.trans ?_ (ih _)
      exact idle_of_ready rfl (fun _ hw => hw) rfl rfl
    · exact .refl b
    · rename_i u hsource hurl
      refine Idle.trans ?_ (ih _)
      have hshift := Shift.enqueue b s.context u p ⟨hsource, .inr hurl⟩
      have htells := hshift.tells
      refine ⟨waitlist_enqueueUrl b _ _ _, fun w hw => waiting_enqueueUrl b s.context u p ▸ hw,
        hshift.files, htells.kept, fun x hx w hw => ?_⟩
      rcases htells.only x hx with hx | hpump | ⟨c, f, hfault⟩ | ⟨r, hr, -⟩
      · exact hx
      · exact absurd (hpump.symm.trans hw) nofun
      · exact absurd (hfault.symm.trans hw) (resume_ne_expire c _ w)
      · cases hr

/-- A build that starts and goes on has nothing to do with those who wait. -/
theorem idle_start (hrunning : (b.start s).1.status = .running) : Idle b (b.start s).1 := by
  revert hrunning
  have hstarted : Idle b { b with started := true } := idle_of_ready rfl (fun _ hw => hw) rfl rfl
  unfold start
  split
  · exact fun _ => .refl b
  · dsimp only
    split
    · exact fun _ => hstarted
    · rename_i extras _
      have hextras := hstarted.trans (idle_enqueueExtras (s := s) { b with started := true } extras)
      split
      · rename_i heq
        rw [heq] at hextras
        exact fun _ => hextras
      · rename_i heq
        rw [heq] at hextras
        have hpumps := hextras.trans ((idle_schedule (j := .pumpSources) _ 0 nofun).trans
          (idle_schedule (j := .pumpDependencies) _ 0 nofun))
        dsimp only
        split
        · exact fun hrunning => absurd hrunning (status_complete _ _)
        · exact fun _ => hpumps

/-! ### The step to success -/

theorem current?_eq_none (h : b.waitlist.keys = []) (p : Path) : b.waitlist.current? p = none := by
  cases hcurrent : b.waitlist.current? p with
  | none => rfl
  | some n =>
    have hmem : p ∈ b.waitlist.keys :=
      (Table.mem_keys_iff _ _).2 (Option.isSome_of_eq_some hcurrent)
    rw [h] at hmem
    cases hmem

/-- Nobody waits for a path when a step lets the build succeed. -/
theorem current?_of_step (h : Step s b b') (hrunning : b.status = .running)
    (hsucceeded : b'.status = .succeeded) (p : Path) : b.waitlist.current? p = none := by
  have hopen : b.status ≠ .succeeded := by
    rw [hrunning]
    nofun
  obtain ⟨hflawless, hwaitlist⟩ := flawless_of_step h hopen hsucceeded
  exact current?_eq_none (hwaitlist ▸ hflawless.keys) p

theorem not_gives_of_succeeded (hrunning : b.status = .running) (hsucceeded : b'.status = .succeeded) :
    ¬ Gives s b b' r := by
  have hopen : b.status ≠ .succeeded := by
    rw [hrunning]
    nofun
  intro h
  cases h with
  | job _ hr =>
    rw [(flawless_of_run (by exact hopen) hsucceeded).2.2] at hr
    cases hr
  | push ctx => exact hopen ((calm_push b ctx _).status.symm.trans hsucceeded)
  | register => exact hopen ((status_register b _).symm.trans hsucceeded)

/-! ### The whole life of a build -/

/-- A reply of a running build is fair. -/
theorem Gives.fair (hproject : s.project.Rooted) (hb : Awaiting s b) (hrunning : b'.status = .running)
    (h : Gives s b b' r) : Fair s b' r := by
  cases h with
  | job hready hr =>
    obtain ⟨hrest, hexpire⟩ := hb.take hready
    exact (fares_run hproject hrest.ticketed hexpire hrunning).fair r hr
  | push ctx hr => exact ((requests_push b ctx _).fares hb.ticketed).fair r hr
  | @register f _ hr =>
    rcases hregister : b.register s f with ⟨b₁, fault⟩
    cases fault with
    | none => exact (fares_register hproject hb.ticketed hregister).fair r hr
    | some e =>
      rw [(registerReplies_of_fault hregister).1] at hr
      cases hr

theorem pair_infix_cons :
    [y, x] <:+: b' :: b :: past ↔ (x = b ∧ y = b') ∨ [y, x] <:+: b :: past := by
  rw [List.infix_cons_iff]
  refine or_congr_left ⟨?_, ?_⟩
  · rintro ⟨rest, hrest⟩
    simp only [List.cons_append, List.cons.injEq] at hrest
    exact ⟨hrest.2.1, hrest.1⟩
  · rintro ⟨rfl, rfl⟩
    exact ⟨past, rfl⟩

/-- What holds of all replies given so far, if no file was late. -/
structure Faithful (s : Setup) (b : Build C) (past : List (Build C)) : Prop where
  sound : Sound b
  awaiting : b.status = .running → Awaiting s b
  running : b.status = .running → ∀ x y, [y, x] <:+: b :: past → ∀ r, Gives s x y r →
    Honest s y r ∨ ∃ p, r.path = some p ∧ GivenUp b p
  succeeded : b.status = .succeeded → ∀ x y, [y, x] <:+: b :: past → x.status = .running →
    ∀ r, Gives s x y r → Honest s y r

/-- One more step, of whatever kind. -/
theorem Faithful.step (hproject : s.project.Rooted) (h : Faithful s b past) (hcourse : Course b b')
    (habides : Awaiting s b → b'.status = .running → Abides s b b')
    (hkeys : b.status = .running → b'.status = .succeeded →
      ∀ p, b.waitlist.current? p = none) : Faithful s b' (b :: past) := by
  have hback : b'.status = .running → b.status = .running := hcourse.verdict.running
  refine ⟨hcourse.sound, fun hrunning => ?_, fun hrunning x y hxy r hr => ?_,
    fun hsucceeded x y hxy hx r hr => ?_⟩
  · exact (habides (h.awaiting (hback hrunning)) hrunning).awaiting
  -- a reply that is not honest belongs to a path that was given up, and that path stays
  · have hb := h.awaiting (hback hrunning)
    rcases pair_infix_cons.1 hxy with ⟨rfl, rfl⟩ | hxy
    · exact (hr.fair hproject hb hrunning).imp_right fun ⟨p, hp, hsettled⟩ => ⟨p, hp, hsettled.givenUp⟩
    · refine (h.running (hback hrunning) x y hxy r hr).imp_right fun ⟨p, hp, hgivenUp⟩ => ?_
      exact ⟨p, hp, (habides hb hrunning).givenUp p hgivenUp⟩
  · rcases pair_infix_cons.1 hxy with ⟨rfl, rfl⟩ | hxy
    · exact absurd hr (not_gives_of_succeeded hx hsucceeded)
    · cases hstatus : b.status with
      | running =>
        -- the step that succeeds finds no path waited for, so none is left that was given up
        rcases h.running hstatus x y hxy r hr with hhonest | ⟨p, -, n, hn, -⟩
        · exact hhonest
        · rw [hkeys hstatus hsucceeded p] at hn
          cases hn
      | succeeded => exact h.succeeded hstatus x y hxy hx r hr
      | failed =>
        have hverdict := hcourse.verdict.eq_of_failed hstatus
        have hfailed : b'.status = .failed := (congrArg Verdict.status hverdict).trans hstatus
        exact absurd (hsucceeded.symm.trans hfailed) nofun

theorem Life.faithful (hproject : s.project.Rooted) (h : Life s (b :: past))
    (hpunctual : ¬ Somewhere Belated (b :: past)) : Faithful s b past := by
  generalize htrace : b :: past = trace at h
  -- No moment of the past was belated, so the induction may use it for what came before.
  induction h generalizing b past with
  | initial =>
    obtain ⟨rfl, rfl⟩ := List.cons.inj htrace
    have hnone : ∀ x y : Build C, ¬ [y, x] <:+: [Build.initial C s.project] := by
      intro x y hxy
      have := hxy.length_le
      simp at this
    exact ⟨sound_initial C s.project, fun _ => ⟨ticketed_initial s, nofun⟩,
      fun _ x y hxy => absurd hxy (hnone x y), fun _ x y hxy => absurd hxy (hnone x y)⟩
  | start h ih =>
    obtain ⟨rfl, rfl⟩ := List.cons.inj htrace
    rw [somewhere_cons, not_or] at hpunctual
    have hpast := ih hpunctual.2 rfl
    refine hpast.step hproject hpast.sound.start (fun hb hrunning => ?_) fun hrunning hsucceeded => ?_
    · exact ((idle_start hrunning).fares hb.ticketed).abides hb hpunctual.1
    · obtain ⟨hflawless, hwaitlist⟩ := flawless_of_start (by rw [hrunning]; nofun) hsucceeded
      exact current?_eq_none (hwaitlist ▸ hflawless.keys)
  | step h hstep ih =>
    obtain ⟨rfl, rfl⟩ := List.cons.inj htrace
    rw [somewhere_cons, not_or] at hpunctual
    have hpast := ih hpunctual.2 rfl
    refine hpast.step hproject (hpast.sound.step hstep) (fun hb hrunning => ?_)
      fun hrunning hsucceeded => current?_of_step hstep hrunning hsucceeded
    rcases hstep with hworks | htouches
    · exact abides_works hproject hb hworks hrunning hpunctual.1
    · obtain ⟨rs, hfares⟩ := fares_touches hproject hb.ticketed htouches
      exact hfares.abides hb hpunctual.1

/-- **Nothing is made up.**  If no file came for a path that had been given up, a build that succeeds
has given only honest replies before. -/
theorem Life.honest_of_succeeded (hproject : s.project.Rooted) (h : Life s (b :: past))
    (hsucceeded : b.status = .succeeded) (hpunctual : ¬ Somewhere Belated (b :: past))
    (hxy : [y, x] <:+: b :: past) (hrunning : x.status = .running) (hr : Gives s x y r) :
    Honest s y r :=
  (h.faithful hproject hpunctual).succeeded hsucceeded x y hxy hrunning r hr

/-! ### Two builds in which somebody outside asks for a file -/

/-- The states that `settle` leaves behind, the last one first. -/
def passed (s : Setup) : Nat → Build C → List (Build C)
  | 0, _ => []
  | limit + 1, b => if b.ready.isEmpty then [] else passed s limit (b.step s) ++ [b]

theorem Life.settle (h : Life s (b :: past)) (limit : Nat) :
    Life s (b.settle s limit :: (b.passed s limit ++ past)) := by
  induction limit generalizing b past with
  | zero => exact h
  | succ limit ih =>
    unfold Build.settle passed
    split
    · exact h
    · rename_i hready
      have hnext := ih (h.step (.inl (works_step (mt List.isEmpty_iff.2 hready))))
      rwa [List.append_assoc]

theorem suffix_settle (b : Build C) (past : List (Build C)) (limit : Nat) :
    b :: past <:+ b.settle s limit :: (b.passed s limit ++ past) := by
  induction limit generalizing b past with
  | zero => exact List.suffix_refl _
  | succ limit ih =>
    unfold Build.settle passed
    split
    · exact List.suffix_refl _
    · rw [List.append_assoc]
      exact (List.suffix_cons _ _).trans (ih (b.step s) (b :: past))

/-- The replies of the next job. -/
def nextReplies (s : Setup) (b : Build C) : List (Reply C) :=
  match b.ready with
  | (0, j) :: rest => { b with ready := rest }.replies s j
  | _ => []

theorem gives_step (h : r ∈ b.nextReplies s) : Gives s b (b.step s) r := by
  unfold nextReplies at h
  unfold Build.step
  split at h
  · rename_i j rest hready
    rw [hready]
    have hready : b.ready = [] ++ (0, j) :: rest := hready
    exact .job hready h
  · cases h

/-- Nobody has been given up. -/
def Trusting (b : Build C) : Prop :=
  (∀ p ∈ b.waitlist.keys, (b.waitlist.current? p).bind b.waitlist.ticket? = some .open) ∧
    ∀ x ∈ b.ready, (match x.2 with | .expire _ => true | _ => false) = false

instance (b : Build C) : Decidable b.Trusting := inferInstanceAs (Decidable (_ ∧ _))

/-- A project of one document, where any other file can be read. -/
def askedSetup (gated : Bool) (timeout : Option Text) : Setup where
  project := ⟨⟨"/app", "/app/index.html", none, [], [], []⟩, "/", Glob.accepts⟩
  read _ := .ok (Text.encode "x")
  gated := gated
  timeout := timeout
  extras := .ok []
  context := []

/-- Its build has started, and somebody outside asks for a script. -/
def askedStart (s : Setup) : Build needless := ((initial needless s.project).start s).1.ask "a.js"

theorem life_askedStart (s : Setup) : Life s [askedStart s,
    ((initial needless s.project).start s).1, initial needless s.project] :=
  Life.initial.start.step (.inr (.ask _ _))

theorem not_somewhere_belated {trace : List (Build C)} (h : ∀ z ∈ trace, z.Trusting) :
    ¬ Somewhere Belated trace := by
  rintro ⟨z, z', hpair, p, ⟨n, hn, hp⟩, -⟩
  obtain ⟨hkeys, hready⟩ := h z (hpair.subset (by simp))
  rcases hp with hsettled | ⟨job, hjob, w, hw, -⟩
  · have hopen := hkeys p ((Table.mem_keys_iff _ _).2 (Option.isSome_of_eq_some hn))
    rw [hn] at hopen
    exact hsettled hopen
  · have := hready job hjob
    rw [hw] at this
    cases this

/-- Without a timeout, the script has been asked for and is about to be read. -/
def timelySetup : Setup := askedSetup false none

def timelyAsked : Build needless := (askedStart timelySetup).settle timelySetup 3

def timelyRead : Build needless := (timelyAsked.step timelySetup).settle timelySetup 3

/-- Then the document arrives. -/
def timelyArrived : Build needless := timelyRead.arrive (.file ⟨"/app/index.html", []⟩)

def timelyEnd : Build needless := timelyArrived.settle timelySetup 5

def timelyPast : List (Build needless) :=
  timelyArrived.passed timelySetup 5 ++ timelyRead ::
    ((timelyAsked.step timelySetup).passed timelySetup 3 ++ timelyAsked ::
      ((askedStart timelySetup).passed timelySetup 3 ++
        [((initial needless timelySetup.project).start timelySetup).1,
          initial needless timelySetup.project]))

theorem life_timely : Life timelySetup (timelyEnd :: timelyPast) := by
  have hasked := (life_askedStart timelySetup).settle 3
  have hstep : Works timelySetup timelyAsked (timelyAsked.step timelySetup) :=
    works_step (mt List.isEmpty_iff.2 (by decide))
  have hread := (hasked.step (.inl hstep)).settle 3
  exact (hread.step (.inr (.arrive _ _))).settle 5

theorem timely_mem : [timelyAsked.step timelySetup, timelyAsked] <:+: timelyEnd :: timelyPast := by
  refine List.IsInfix.trans ?_
    ((List.suffix_cons timelyArrived _).trans (suffix_settle timelyArrived _ 5)).isInfix
  exact List.IsInfix.trans ⟨[], _, rfl⟩ (suffix_settle (timelyAsked.step timelySetup) _ 3).isInfix

/-- Whoever asked for the script gets its text. -/
theorem honest_timely : ∃ (b : Build needless) (past : List (Build needless))
    (x y : Build needless) (r : Reply needless), Life timelySetup (b :: past) ∧
      b.status = .succeeded ∧ ¬ Somewhere Belated (b :: past) ∧ [y, x] <:+: b :: past ∧
      x.status = .running ∧ Gives timelySetup x y r ∧ r.path = some "/app/a.js" ∧ r.text = "x" ∧
      Honest timelySetup y r := by
  have hreplies : (timelyAsked.nextReplies timelySetup).map (fun r => (r.path, r.text)) =
      [((some "/app/a.js" : Option Path), ("x" : Text))] := by decide
  obtain ⟨r, hr, heq⟩ := List.mem_map.1 (hreplies.symm ▸ List.mem_singleton_self _)
  obtain ⟨hpath, htext⟩ := Prod.mk.inj heq
  have hproject : timelySetup.project.Rooted := ⟨by decide⟩
  have hsucceeded : timelyEnd.status = .succeeded := by decide
  have hpunctual : ¬ Somewhere Belated (timelyEnd :: timelyPast) :=
    not_somewhere_belated (by decide)
  have hrunning : timelyAsked.status = .running := by decide
  exact ⟨timelyEnd, timelyPast, timelyAsked, timelyAsked.step timelySetup, r, life_timely,
    hsucceeded, hpunctual, timely_mem, hrunning, gives_step hr, hpath, htext,
    life_timely.honest_of_succeeded hproject hsucceeded hpunctual timely_mem hrunning (gives_step hr)⟩

/-! ### The same with a timeout -/

/-- More time passes than a single request may wait. -/
theorem works_outwait (htimeout : s.timeout.isSome) (h : b.waiting.length = 1) :
    Works s b (b.outwait s) := by
  obtain ⟨w, hw⟩ := List.length_eq_one_iff.1 h
  unfold outwait
  rw [if_pos htimeout, hw]
  have hw : b.waiting = [] ++ w :: [] := hw
  exact .expire htimeout hw

/-- The script is being read, and the request for it is about to time out. -/
def lateSetup : Setup := askedSetup true (some "0.05")

def lateAsked : Build needless :=
  (((askedStart lateSetup).settle lateSetup 5).outwait lateSetup).settle lateSetup 3

def lateAnswered : Build needless := (lateAsked.step lateSetup).settle lateSetup 1

/-- Then the script has been read. -/
def lateRead : Build needless :=
  { lateAnswered with reads := [⟨"a.js", "/app/a.js", .delivered⟩] }.schedule 0
    (.deliver "/app/a.js")

def lateArrived : Build needless :=
  (lateRead.settle lateSetup 2).arrive (.file ⟨"/app/index.html", []⟩)

def lateEnd : Build needless := lateArrived.settle lateSetup 5

theorem life_late : ∃ past, Life lateSetup (lateEnd :: past) ∧
    [lateAsked.step lateSetup, lateAsked] <:+: lateEnd :: past := by
  have hasked := (life_askedStart lateSetup).settle 5
  have houtwait : Works lateSetup ((askedStart lateSetup).settle lateSetup 5)
      (((askedStart lateSetup).settle lateSetup 5).outwait lateSetup) :=
    works_outwait (by decide) (by decide)
  have hexpired := (hasked.step (.inl houtwait)).settle 3
  have hstep : Works lateSetup lateAsked (lateAsked.step lateSetup) :=
    works_step (mt List.isEmpty_iff.2 (by decide))
  have hanswered := (hexpired.step (.inl hstep)).settle 1
  have hdeliver : Works lateSetup lateAnswered lateRead := by
    have hreads : lateAnswered.reads = [] ++ ⟨"a.js", "/app/a.js", .pending⟩ :: [] := by
      decide
    exact .deliver rfl hreads
  have hread := (hanswered.step (.inl hdeliver)).settle 2
  have hend := (hread.step (.inr (.arrive _ (.file ⟨"/app/index.html", []⟩)))).settle 5
  refine ⟨_, hend, ?_⟩
  refine List.IsInfix.trans ?_ ((List.suffix_cons _ _).trans (suffix_settle lateArrived _ 5)).isInfix
  refine List.IsInfix.trans ?_ ((List.suffix_cons _ _).trans (suffix_settle lateRead _ 2)).isInfix
  exact List.IsInfix.trans ⟨[], _, rfl⟩ (suffix_settle (lateAsked.step lateSetup) _ 1).isInfix

/-- Whoever asked for the script is told that it is empty, and the build succeeds all the same. -/
theorem not_honest_late : ∃ (b : Build needless) (past : List (Build needless))
    (x y : Build needless) (r : Reply needless), Life lateSetup (b :: past) ∧
      b.status = .succeeded ∧ [y, x] <:+: b :: past ∧ x.status = .running ∧
      Gives lateSetup x y r ∧ r.path = some "/app/a.js" ∧ r.text = [] ∧ ¬ Honest lateSetup y r := by
  obtain ⟨past, hlife, hmem⟩ := life_late
  have hreplies : (lateAsked.nextReplies lateSetup).map (fun r => (r.path, r.text)) =
      [((some "/app/a.js" : Option Path), ([] : Text))] := by decide
  obtain ⟨r, hr, heq⟩ := List.mem_map.1 (hreplies.symm ▸ List.mem_singleton_self _)
  obtain ⟨hpath, htext⟩ := Prod.mk.inj heq
  have hfile : ((lateAsked.step lateSetup).fileAt lateSetup "/app/a.js").toOption = some none := by
    decide
  refine ⟨lateEnd, past, lateAsked, lateAsked.step lateSetup, r, hlife, by decide, hmem,
    by decide, gives_step hr, hpath, htext, fun hhonest => ?_⟩
  obtain ⟨f, hf, -⟩ := hhonest _ hpath
  rw [hf] at hfile
  cases hfile

end HtmlDeps.Build
