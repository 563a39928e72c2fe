import HtmlDeps.Proofs.Build.Waked

/-!
# Every job keeps those that wait in good hands

Every job of a running build keeps `Waked` (`Waked.run`).  A request that meets a fault leaves an open
ticket behind for which nobody comes; but the fault then goes on in an analysis, and the build is
`Doomed`.
-/

namespace HtmlDeps.Build

open Imports

variable {s : Setup} {b b' b₁ : Build importer} {excused : Path → Prop} {p : Path} {u : Text} {n : Nat}
  {c : Caller importer} {j : Job importer} {a : Nat} {f : File}

/-! ### Requests -/

theorem Waked.drop (h : Waked s (b.goOn j) excused) (hj : ∀ p, j ≠ .deliver p) :
    Waked s b excused := by
  refine h.keep rfl (fun _ hw => hw) rfl (fun _ hu => hu) rfl fun q hq => hq.imp_right fun hq => ?_
  refine hq.keep rfl fun n hn => ?_
  rcases List.mem_cons.1 hn with hn | hn
  · exact absurd (Prod.mk.inj hn).2.symm (hj q)
  · exact ⟨n, hn⟩

theorem Waked.create (h : Waked s b excused) (hinside : s.project.Inside p)
    (hp : b.waitlist.current? p = none) :
    Waked s { b with waitlist := (b.waitlist.create p).1 } fun q => excused q ∨ q = p := by
  refine ⟨h.toTicketed.create hinside hp, fun q m hq hm => ?_, h.pushed⟩
  change (b.waitlist.create p).1.current? q = some m at hq
  rw [Waitlist.current?_create] at hq
  split at hq
  · rename_i heq
    exact .inr (.inr heq.symm)
  · obtain ⟨t, ht, -⟩ := h.ticket q m hq
    have hlt := (List.getElem?_eq_some_iff.1 ht).1
    have hm : b.waitlist.ticket? m = some .open := (Waitlist.ticket?_create_of_lt hlt).symm.trans hm
    exact (h.covered q m hq hm).imp_right .inl

theorem Waked.await (h : Waked s b excused) (hn : b.waitlist.current? p = some n)
    (c : Caller importer) : Waked s (b.await s n p c) excused := by
  unfold Build.await
  split
  · split
    · exact h.schedule _ _
    · exact h.goOn _
  · rename_i hanswered
    exact h.of_ticketed (h.toTicketed.wait hn hanswered c) rfl rfl (fun _ hu => hu) rfl
      fun _ hq => hq

/-- A path that is asked for is in good hands, unless the caller meets a fault. -/
theorem Waked.request (hp : s.project.Rooted) (h : Waked s b excused)
    (hrunning : b.status = .running) (hinside : s.project.Inside p) (hurl : s.project.url p = .ok u)
    (hfile : b.files.get? u = none) (ctx : Log.Fields) (c : Caller importer) :
    Waked s (b.request s ctx p c) fun q =>
      excused q ∨ ∃ f, (0, c.resume (.error f)) ∈ (b.request s ctx p c).ready := by
  unfold Build.request
  split
  · rename_i n hn
    exact (h.await hn c).mono fun q => .inl
  · rename_i hnone
    have hcreated := h.create hinside hnone
    have hcurrent : (b.waitlist.create p).1.current? p = some (b.waitlist.create p).2 := by
      rw [Waitlist.current?_create, if_pos rfl]
      rfl
    dsimp only
    rw [hurl]
    dsimp only
    split
    · rename_i b₁ f hpush
      have hpushed := hcreated.push hp hrunning hinside hurl hfile ctx hpush
      refine (hpushed.goOn _).mono fun q => Or.imp_right fun _ => ⟨f, List.mem_cons_self⟩
    · rename_i b₁ hpush
      have hpushed := hcreated.push hp hrunning hinside hurl hfile ctx hpush
      have hkept := current?_push (s := s) { b with waitlist := (b.waitlist.create p).1 } ctx u p
      rw [hpush] at hkept
      refine (hpushed.await (hkept.trans hcurrent) c).mono fun q => Or.imp_right fun hq => ?_
      exact absurd rfl hq.2

theorem Waked.load (hp : s.project.Rooted) (h : Waked s b excused) (hrunning : b.status = .running)
    (u : Text) (c : Caller importer) : Waked s (b.load s u c) fun q =>
      excused q ∨ ∃ f, (0, c.resume (.error f)) ∈ (b.load s u c).ready := by
  have hnote := h.note (b.contextOf s c) .debug ("loading: " ++ u)
  unfold Build.load
  dsimp only
  split
  · exact (hnote.goOn _).mono fun q => .inl
  · exact (hnote.goOn _).mono fun q => .inl
  · exact (hnote.goOn _).mono fun q => .inl
  · rename_i v _ _
    split
    · exact (hnote.goOn _).mono fun q => .inl
    · exact (hnote.goOn _).mono fun q => .inl
    · rename_i hfound
      obtain ⟨w, hw, hfile⟩ : ∃ w, s.project.url (s.project.path v.path) = .ok w ∧
          b.file? w = none := by
        unfold fileAt at hfound
        cases hw : s.project.url (s.project.path v.path) with
        | error e =>
          rw [hw] at hfound
          cases hfound
        | ok w =>
          rw [hw] at hfound
          exact ⟨w, rfl, Except.ok.inj hfound⟩
      have hinside := s.project.inside_path v.path
      rw [file?_eq b (hinside.dropLeading_url hp hw)] at hfile
      exact hnote.request hp hrunning hinside hw hfile _ c

theorem Waked.expire (h : Waked s b excused) (w : Waiter importer) :
    Waked s (b.expire s w) excused := by
  have hnote := h.note (b.contextOf s w.caller) .error
    ("Timed out after " ++ s.timeout.getD [] ++ "s waiting for " ++ w.path.toText)
  exact (Waked.release (p := w.path) (hnote.mono fun q => .inl)).goOn _

/-! ### The pumps -/

theorem Waked.releaseSources {ps : List Path}
    (h : Waked s b fun q => excused q ∨ q ∈ ps ∧ s.project.isSource q = .ok true)
    (hrelease : b.releaseSources s ps = (b₁, none)) : Waked s b₁ excused := by
  induction ps generalizing b with
  | nil =>
    obtain ⟨rfl, -⟩ := Prod.mk.inj hrelease
    exact h.mono fun q hq => hq.elim id fun hq => absurd hq.1 List.not_mem_nil
  | cons p ps ih =>
    unfold Build.releaseSources at hrelease
    split at hrelease
    · cases hrelease
    · refine ih (Waked.releaseUnreachable ?_ s.context) hrelease
      refine h.mono fun q hq => ?_
      rcases hq with hq | ⟨hq, hsource⟩
      · exact .inl (.inl hq)
      · rcases List.mem_cons.1 hq with rfl | hq
        · exact .inr rfl
        · exact .inl (.inr ⟨hq, hsource⟩)
    · rename_i hsource
      refine ih (h.mono fun q hq => hq.imp_right fun ⟨hq, hq'⟩ => ⟨?_, hq'⟩) hrelease
      rcases List.mem_cons.1 hq with rfl | hq
      · rw [hsource] at hq'
        cases hq'
      · exact hq

/-- When the sources are exhausted, the sources that are waited for lose their prospect. -/
theorem Waked.exhausted (h : Waked s b excused) (left : List Arrival) :
    Waked s { b with incoming := left, exhausted := true } fun q =>
      excused q ∨ q ∈ b.waitlist.keys ∧ s.project.isSource q = .ok true := by
  refine ⟨h.toTicketed.keep rfl fun _ hw => hw, fun q m hq hm => ?_, h.pushed⟩
  rcases h.covered q m hq hm with (hcomes | ⟨hsource, -⟩ | htwisted) | hexcused
  · exact .inl (.inl hcomes)
  · exact .inr (.inr ⟨(Table.mem_keys_iff _ _).2 (Option.isSome_of_eq_some hq), hsource⟩)
  · exact .inl (.inr (.inr htwisted))
  · exact .inr (.inl hexcused)

theorem Waked.claim (h : Waked s b excused) (f : File) : Waked s (b.claim f) excused := by
  rcases claim_cases b f with ⟨-, -, hclaim⟩ | ⟨-, hclaim⟩
  · rw [hclaim]
    refine h.keep rfl (fun _ hw => hw) rfl (fun _ hu => hu) rfl fun q hq => ?_
    exact hq.keep rfl rfl fun y hy => List.mem_append_left _ hy
  · rw [hclaim]
    exact h

theorem Waked.pumpSources (h : Waked s b excused)
    (hplain : ∀ f, .file f ∈ b.incoming → f.path.Plain)
    (hrunning : (b.pumpSources s).status = .running) : Waked s (b.pumpSources s) excused := by
  obtain ⟨-, hb'⟩ | ⟨left, b₁, -, -, hrelease, hb'⟩ | ⟨f, left, b₁, o, hincoming, hregister, -, hb'⟩ :=
    pumpSources_cases rfl hrunning
  · rw [hb']
    exact h.keep rfl (fun _ hw => hw) rfl (fun _ hu => hu) rfl fun _ hq => hq
  · rw [hb']
    exact ((h.exhausted left).releaseSources hrelease).keep rfl (fun _ hw => hw) rfl
      (fun _ hu => hu) rfl fun _ hq => hq
  · have hleft : Waked s { b with incoming := left } excused :=
      h.keep rfl (fun _ hw => hw) rfl (fun _ hu => hu) rfl fun _ hq => hq
    have hfile : f.path.Plain := hplain f (hincoming ▸ List.mem_cons_self)
    have htaken := ((hleft.goOn (.deliver f.path)).register hfile hregister).claim f
    rw [hb']
    refine htaken.keep rfl (fun _ hw => hw) rfl (fun _ hu => hu) rfl fun q hq => ?_
    exact hq.keep rfl rfl fun y hy => List.mem_cons_of_mem _ hy

theorem Waked.closeSources (h : Waked s b excused) : Waked s b.closeSources excused := by
  unfold Build.closeSources
  dsimp only
  split
  · exact h.keep rfl (fun _ hw => hw) rfl (fun _ hu => hu) rfl fun _ hq => hq
  · exact h.keep rfl (fun _ hw => hw) rfl (fun _ hu => hu) rfl fun _ hq => hq

/-- A file that was read is not needed in hand any more. -/
theorem Waked.deliver (h : Waked s (b.goOn (.deliver p)) excused) (hplain : p.Plain)
    (hrunning : (b.deliver s p).status = .running) : Waked s (b.deliver s p) excused := by
  obtain ⟨contents, b₁, o, -, hregister, -, hb'⟩ := deliver_cases rfl hrunning
  have htaken := (Waked.register (f := ⟨p, contents⟩) h hplain hregister).claim ⟨p, contents⟩
  rw [hb']
  refine htaken.keep rfl (fun _ hw => hw) rfl (fun _ hu => hu) rfl fun q hq => ?_
  exact hq.keep rfl rfl fun y hy => List.mem_cons_of_mem _ hy

theorem Waked.pumpDependencies (h : Waked s b excused) (hqueue : none ∉ b.queue)
    (hplain : ∀ p, some p ∈ b.queue → p.Plain)
    (hrunning : (b.pumpDependencies s).status = .running) :
    Waked s (b.pumpDependencies s) excused := by
  obtain ⟨-, hb'⟩ | ⟨p, left, url, hsome, ⟨-, hb'⟩ | ⟨-, hb'⟩⟩ := pumpDependencies_cases rfl hqueue
  · rw [hb']
    exact h.keep rfl (fun _ hw => hw) rfl (fun _ hu => hu) rfl fun _ hq => hq
  · rw [hb']
    refine h.keep rfl (fun _ hw => hw) rfl (fun _ hu => hu) rfl fun q hq => ?_
    rcases hq with hq | ⟨r, hr, hrest⟩ | hq
    · rw [hsome] at hq
      rcases List.mem_cons.1 hq with hq | hq
      · -- the path at the front is being read now
        exact .inr (.inl ⟨_, List.mem_append_right _ List.mem_cons_self,
          (Option.some.inj hq).symm, rfl⟩)
      · exact .inl hq
    · exact .inr (.inl ⟨r, List.mem_append_left _ hr, hrest⟩)
    · exact .inr (.inr hq)
  · rw [hb'] at hrunning ⊢
    refine Waked.deliver ?_ (hplain p (hsome ▸ List.mem_cons_self)) hrunning
    refine h.keep rfl (fun _ hw => hw) rfl (fun _ hu => hu) rfl fun q hq => ?_
    rcases hq with hq | ⟨r, hr, hrest⟩ | ⟨n, hn⟩
    · rw [hsome] at hq
      rcases List.mem_cons.1 hq with hq | hq
      · -- it was read at once, and is in hand
        obtain rfl := Option.some.inj hq
        exact .inr (.inr ⟨0, List.mem_cons_self⟩)
      · exact .inl hq
    · exact .inr (.inl ⟨r, List.mem_append_left _ hr, hrest⟩)
    · exact .inr (.inr ⟨n, List.mem_cons_of_mem _ hn⟩)

/-! ### All jobs -/

/-- A fault that a thread of an analysis goes on with is not forgotten. -/
theorem doomed_of_turn {x : Analysis importer} {url : Text} {m : Memory} {t : Thread}
    (hx : b.analyses[a]? = some x) (hcrawl : x.crawl = some (url, m)) (houtcome : x.outcome = none)
    (hfaulty : t.Faulty) (hready : (n, .turn a t) ∈ b.ready) : Doomed b := by
  refine ⟨a, x, url, m, hx, hcrawl, houtcome, .inr ⟨t.emptied, ?_, faulty_emptied_iff.2 hfaulty⟩⟩
  exact mem_flight_of_ready hready (Job.errand?_turn a t)

theorem Waked.turn (hp : s.project.Rooted) {t : Thread} (h : Waked s b excused)
    (hwoven : Woven s (b.goOn (.turn a t))) (hold : b.status = .running)
    (hrunning : (b.turn s a t).status = .running) :
    Waked s (b.turn s a t) fun q => excused q ∨ Doomed (b.turn s a t) := by
  obtain ⟨x, url, m, m', log, hx, hown, hcrawl, houtcome, -, -, hturned⟩ :=
    hwoven.turned (by rw [hrunning]; nofun)
  have hmoved : Waked s (b.moved a { x with crawl := some (url, m') } log) excused :=
    h.keep rfl (fun _ hw => hw) rfl (fun _ hu => hu) rfl fun _ hq => hq
  cases hturned with
  | @ask u next hb' hsteady _ =>
    have hself : (b.turn s a t).analyses[a]? = some { x with crawl := some (url, m') } := by
      rw [hb', (calm_load (s := s) _ u _).analyses]
      exact List.getElem?_set_self (List.getElem?_eq_some_iff.1 hx).1
    have hload := hmoved.load hp hold u (.thread a next)
    rw [← hb'] at hload
    -- a request that comes to nothing is answered with a fault
    refine hload.mono fun q => Or.imp_right fun ⟨f, hf⟩ => ?_
    exact doomed_of_turn hself rfl houtcome (hsteady.fault f) hf
  | leave hb' _ =>
    rw [hb']
    refine (hmoved.mono fun q => .inl).keep rfl (fun _ hw => hw) rfl (fun _ hu => hu) rfl
      fun q hq => ?_
    exact hq.keep rfl rfl fun y hy => List.mem_append_left _ hy
  | finish hb' _ _ _ =>
    obtain ⟨i, ws, log', -, -, -, hb'⟩ :=
      conclude_running (own_of_moved hx (by exact hown)) hb'.symm hrunning
    rw [hb']
    exact (hmoved.mono fun q => .inl).keep rfl (fun _ hw => hw) rfl (fun _ hu => hu) rfl
      fun _ hq => hq

theorem Waked.run (hp : s.project.Rooted) (h : Waked s (b.goOn j) fun _ => Doomed (b.goOn j))
    (hwoven : Woven s (b.goOn j)) (hplaced : Placed s (b.goOn j)) (hqueue : none ∉ b.queue)
    (hold : b.status = .running) (hrunning : (b.run s j).status = .running) :
    Waked s (b.run s j) fun _ => Doomed (b.run s j) := by
  -- A crawl that was doomed stays so, so that what was said of the old build may be said of the new.
  have hdoomed := (weaves_run (j := j) hp hqueue hrunning).doomed hwoven
  replace h : Waked s (b.goOn j) fun _ => Doomed (b.run s j) := h.mono fun _ => hdoomed
  cases j with
  | pumpSources =>
    have hrest := h.drop (by rintro _ ⟨⟩)
    exact hrest.pumpSources (fun f hf => (hplaced.incoming f hf).plain) hrunning
  | closeSources => exact (h.drop (by rintro _ ⟨⟩)).closeSources
  | pumpDependencies =>
    have hrest := h.drop (by rintro _ ⟨⟩)
    exact hrest.pumpDependencies hqueue (fun p hq => (hplaced.queue p hq).plain) hrunning
  | deliver p => exact h.deliver (hplaced.ready 0 p List.mem_cons_self).plain hrunning
  | begin a =>
    have hrest := h.drop (by rintro _ ⟨⟩)
    obtain ⟨x, hx, -⟩ : ∃ x, b.analyses[a]? = some x ∧ x.crawl = none :=
      hwoven.ready _ List.mem_cons_self
    obtain ⟨url, -, hb'⟩ := begin_cases hx (hwoven.own a x hx) rfl hrunning
    rw [Build.run, hb'] at hrest ⊢
    have hmoved : Waked s (b.moved a { x with crawl := some (url, (importer.start url).1) } b.log) _ :=
      hrest.keep rfl (fun _ hw => hw) rfl (fun _ hu => hu) rfl fun _ hq => hq
    exact hmoved.goOn _
  | turn a t =>
    have hrest := h.drop (by rintro _ ⟨⟩)
    exact (hrest.turn hp hwoven hold hrunning).mono fun _ hq => hq.elim id id
  | load n u => exact absurd (hwoven.ready _ List.mem_cons_self) id
  | loaded n answer =>
    exact (h.drop (by rintro _ ⟨⟩)).keep rfl (fun _ hw => hw) rfl (fun _ hu => hu) rfl fun _ hq => hq
  | expire w => exact (h.drop (by rintro _ ⟨⟩)).expire w

end HtmlDeps.Build
