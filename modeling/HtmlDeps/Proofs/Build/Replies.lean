import HtmlDeps.Proofs.Build.Calm
import HtmlDeps.Proofs.Build.Step

/-!
# Who is answered, and with what

A request is answered at once, or with its ticket, or when it has waited too long.  The replies that
an operation gives are listed operation by operation, `loadReplies` and so on, and `Gives` says which
replies a step of a build gives.  No answer escapes the lists (`Tells`): the jobs that an operation
adds are one for each of its replies, and apart from these only faults and the dependency pump.

All that a request does is put together from a few moves (`Requests`).
-/

namespace HtmlDeps

/-- An answer to a request: who gets it, the path that was asked for, unless the URL was an external
one, and the text. -/
structure Reply (C : Crawler) where
  caller : Caller C
  path : Option Path
  text : Text

namespace Build

variable {C : Crawler} {s : Setup} {b b' b₁ b₂ b₃ : Build C} {rs rs' : List (Reply C)} {r : Reply C}

/-! ### The replies of each operation -/

/-- The replies to those who wait for a ticket. -/
def wakeReplies (b : Build C) (ticket : Nat) (contents : Text) : List (Reply C) :=
  (b.waiting.filter fun w => w.ticket = ticket).map fun w => ⟨w.caller, some w.path, contents⟩

def releaseReplies (b : Build C) (p : Path) : List (Reply C) :=
  (b.waitlist.current? p).elim [] fun n => b.wakeReplies n []

def registerReplies (s : Setup) (b : Build C) (f : File) : List (Reply C) :=
  match s.project.url f.path.normal with
  | .error _ => []
  | .ok _ => (b.waitlist.current? f.path.normal).elim [] fun n => b.wakeReplies n f.text

def pushReplies (s : Setup) (b : Build C) (url : Text) : List (Reply C) :=
  if b.status ≠ .running then []
  else
    let url := url.dropLeading (.char '/')
    if (b.file? url).isSome || b.pushed.contains url then []
    else
      match s.project.isSource (s.project.path url) with
      | .ok true => if b.exhausted then b.releaseReplies (s.project.path url) else []
      | _ => []

def awaitReplies (b : Build C) (ticket : Nat) (p : Path) (caller : Caller C) : List (Reply C) :=
  match b.waitlist.ticket? ticket with
  | some (.answered t) => [⟨caller, some p, t⟩]
  | _ => []

def requestReplies (s : Setup) (b : Build C) (ctx : Log.Fields) (p : Path) (caller : Caller C) :
    List (Reply C) :=
  match b.waitlist.current? p with
  | some n => b.awaitReplies n p caller
  | none =>
    let (w, n) := b.waitlist.create p
    let b := { b with waitlist := w }
    match s.project.url p with
    | .error _ => []
    | .ok u =>
      match b.push s ctx u with
      | (_, some _) => b.pushReplies s u
      | (b', none) => b.pushReplies s u ++ b'.awaitReplies n p caller

def loadReplies (s : Setup) (b : Build C) (url : Text) (caller : Caller C) : List (Reply C) :=
  let ctx := b.contextOf s caller
  let b := b.note ctx .debug ("loading: " ++ url)
  match Url.isExternal url, Url.parse url with
  | .error _, _ => []
  | .ok true, _ => [⟨caller, none, []⟩]
  | .ok false, .error _ => []
  | .ok false, .ok u =>
    let p := s.project.path u.path
    match b.fileAt s p with
    | .error _ => []
    | .ok (some f) => [⟨caller, some p, f.text⟩]
    | .ok none => b.requestReplies s ctx p caller

def expireReplies (b : Build C) (w : Waiter C) : List (Reply C) :=
  b.releaseReplies w.path ++ [⟨w.caller, some w.path, []⟩]

def releaseSourcesReplies (s : Setup) (b : Build C) : List Path → List (Reply C)
  | [] => []
  | p :: ps =>
    match s.project.isSource p with
    | .error _ => []
    | .ok true => b.releaseReplies p ++
        releaseSourcesReplies s (b.releaseUnreachable s s.context p) ps
    | .ok false => releaseSourcesReplies s b ps

def pumpSourcesReplies (s : Setup) (b : Build C) : List (Reply C) :=
  match b.incoming with
  | .finish :: rest =>
    let b := { b with incoming := rest, exhausted := true }
    if b.missing = [] then b.releaseSourcesReplies s b.waitlist.keys else []
  | .file f :: rest =>
    if b.status = .failed then [] else { b with incoming := rest }.registerReplies s f
  | _ => []

def deliverReplies (s : Setup) (b : Build C) (p : Path) : List (Reply C) :=
  match s.read p with
  | .error _ => []
  | .ok contents => b.registerReplies s ⟨p, contents⟩

def pumpDependenciesReplies (s : Setup) (b : Build C) : List (Reply C) :=
  match b.queue with
  | some p :: _ => if s.gated then [] else b.deliverReplies s p
  | _ => []

def turnReplies (s : Setup) (b : Build C) (a : Nat) (t : C.Thread) : List (Reply C) :=
  match b.analyses[a]? with
  | none => []
  | some x =>
    match x.crawl with
    | none => []
    | some (url, memory) =>
      let turn := C.turn memory t
      let b := { b with
        analyses := b.analyses.set a { x with crawl := some (url, turn.memory) } }
      let b := turn.notes.foldl (fun b n => b.note (s.analysisContext url) .debug n) b
      match turn.move with
      | .ask u next => b.loadReplies s u (.thread a next)
      | _ => []

/-- The replies that a job gives. -/
def replies (s : Setup) (b : Build C) : Job C → List (Reply C)
  | .pumpSources => b.pumpSourcesReplies s
  | .pumpDependencies => b.pumpDependenciesReplies s
  | .deliver p => b.deliverReplies s p
  | .turn a t => b.turnReplies s a t
  | .load n u => b.loadReplies s u (.client n)
  | .expire w => b.expireReplies w
  | .closeSources | .begin _ | .loaded _ _ => []

/-- A step of a build gives a reply. -/
inductive Gives (s : Setup) : Build C → Build C → Reply C → Prop
  | job {b : Build C} {before after : List (Nat × Job C)} {rounds : Nat} {j : Job C} {r : Reply C}
      (h : b.ready = before ++ (rounds, j) :: after)
      (hr : r ∈ { b with ready := before ++ after }.replies s j) :
      Gives s b ({ b with ready := before ++ after }.run s j) r
  | push {b : Build C} (ctx : Log.Fields) {url : Text} {r : Reply C} (hr : r ∈ b.pushReplies s url) :
      Gives s b (b.push s ctx url).1 r
  | register {b : Build C} {f : File} {r : Reply C} (hr : r ∈ b.registerReplies s f) :
      Gives s b (b.register s f).1 r

/-! ### What a request does -/

/-- A URL under which a path may be put on the queue: the path is no source, and the URL leads to it or
was made from it. -/
def LeadsTo (s : Setup) (u : Text) (p : Path) : Prop :=
  s.project.isSource p = .ok false ∧ (p = s.project.path u ∨ s.project.url p = .ok u)

/-- A single move of a request, with its replies. -/
inductive Shift (s : Setup) : Build C → Build C → List (Reply C) → Prop
  | note (b : Build C) (ctx : Log.Fields) (l : Log.Level) (m : Text) : Shift s b (b.note ctx l m) []
  | fault (b : Build C) (c : Caller C) (f : Fault) : Shift s b (b.goOn (c.resume (.error f))) []
  | external (b : Build C) (c : Caller C) :
      Shift s b (b.goOn (c.resume (.ok []))) [⟨c, none, []⟩]
  | found {b : Build C} {p : Path} {f : File} (h : b.fileAt s p = .ok (some f)) (c : Caller C) :
      Shift s b (b.goOn (c.resume (.ok f.text))) [⟨c, some p, f.text⟩]
  | create {b : Build C} {t u : Text} (h : b.waitlist.current? (s.project.path t) = none)
      (hurl : s.project.url (s.project.path t) = .ok u) :
      Shift s b { b with waitlist := (b.waitlist.create (s.project.path t)).1 } []
  | enqueue (b : Build C) (ctx : Log.Fields) (u : Text) (p : Path) (h : LeadsTo s u p) :
      Shift s b (b.enqueueUrl ctx u p) []
  | await {b : Build C} {p : Path} {n : Nat} (h : b.waitlist.current? p = some n) (c : Caller C) :
      Shift s b (b.await s n p c) (b.awaitReplies n p c)
  | release (b : Build C) (p : Path) : Shift s b (b.release s p) (b.releaseReplies p)

/-- Several moves. -/
inductive Requests (s : Setup) : Build C → Build C → List (Reply C) → Prop
  | refl (b : Build C) : Requests s b b []
  | step {b₁ b₂ b₃ : Build C} {rs rs' : List (Reply C)} (h : Requests s b₁ b₂ rs)
      (hshift : Shift s b₂ b₃ rs') : Requests s b₁ b₃ (rs ++ rs')

theorem Shift.requests (h : Shift s b b' rs) : Requests s b b' rs := (Requests.refl b).step h

theorem Requests.trans (h : Requests s b₁ b₂ rs) (h' : Requests s b₂ b₃ rs') :
    Requests s b₁ b₃ (rs ++ rs') := by
  induction h' with
  | refl => rwa [List.append_nil]
  | step _ hshift ih =>
    rw [← List.append_assoc]
    exact ih.step hshift

theorem requests_releaseUnreachable (b : Build C) (ctx : Log.Fields) (p : Path) :
    Requests s b (b.releaseUnreachable s ctx p) (b.releaseReplies p) :=
  (Shift.note b _ _ _).requests.step (.release _ p)

theorem requests_push (b : Build C) (ctx : Log.Fields) (url : Text) :
    Requests s b (b.push s ctx url).1 (b.pushReplies s url) := by
  unfold push pushReplies
  by_cases hstatus : b.status ≠ .running
  · rw [if_pos hstatus, if_pos hstatus]
    exact (Shift.note b _ _ _).requests
  · rw [if_neg hstatus, if_neg hstatus]
    dsimp only
    split
    · exact (Shift.note b _ _ _).requests
    · cases hsource : s.project.isSource (s.project.path (url.dropLeading (.char '/'))) with
      | error f => exact .refl b
      | ok source =>
        cases source with
        | false => exact (Shift.enqueue b _ _ _ ⟨hsource, .inl rfl⟩).requests
        | true =>
          have hnote := (Shift.note (s := s) b ctx .debug
            ("dependency is a source file, ignoring: " ++ url.dropLeading (.char '/'))).requests
          by_cases hexhausted : b.exhausted
          · rw [if_pos (by exact hexhausted), if_pos hexhausted]
            exact hnote.trans (requests_releaseUnreachable _ ctx _)
          · rw [if_neg (by exact hexhausted), if_neg hexhausted]
            exact hnote

/-- Releasing a ticket leaves it with its path. -/
theorem current?_release (b : Build C) (p q : Path) :
    (b.release s p).waitlist.current? q = b.waitlist.current? q := by
  unfold release
  split
  · rfl
  · rename_i n hn
    simp only [wake, Waitlist.release, hn]
    rfl

theorem waitlist_enqueueUrl (b : Build C) (ctx : Log.Fields) (u : Text) (p : Path) :
    (b.enqueueUrl ctx u p).waitlist = b.waitlist := by
  unfold enqueueUrl enqueue
  split
  · rfl
  · dsimp only
    split <;> rfl

theorem current?_push (b : Build C) (ctx : Log.Fields) (u : Text) (q : Path) :
    (b.push s ctx u).1.waitlist.current? q = b.waitlist.current? q := by
  have hpushed := push_cases (s := s) b ctx u
  generalize b.push s ctx u = r at hpushed ⊢
  cases hpushed with
  | ended | known | unclear | source => rfl
  | unreachable text => exact current?_release _ _ q
  | dependency => rw [waitlist_enqueueUrl]

theorem requests_request (b : Build C) (ctx : Log.Fields) {t u : Text} (c : Caller C)
    (hurl : s.project.url (s.project.path t) = .ok u) :
    Requests s b (b.request s ctx (s.project.path t) c)
      (b.requestReplies s ctx (s.project.path t) c) := by
  unfold request requestReplies
  cases hcurrent : b.waitlist.current? (s.project.path t) with
  | some n => exact (Shift.await hcurrent c).requests
  | none =>
    simp only [hurl]
    have hcreate := (Shift.create hcurrent hurl).requests
    have hpush := requests_push (s := s)
      { b with waitlist := (b.waitlist.create (s.project.path t)).1 } ctx u
    have hticket := current?_push (s := s)
      { b with waitlist := (b.waitlist.create (s.project.path t)).1 } ctx u (s.project.path t)
    rcases heq : push s { b with waitlist := (b.waitlist.create (s.project.path t)).1 } ctx u with
      ⟨b₁, fault⟩
    rw [heq] at hpush hticket
    cases fault with
    | some f =>
      have hfault := (hcreate.trans hpush).step (.fault b₁ c f)
      rwa [List.append_nil] at hfault
    | none =>
      refine (hcreate.trans hpush).step (.await ?_ c)
      refine hticket.trans ((Table.get?_put _ _ _ _).trans ?_)
      exact if_pos rfl

theorem requests_load (b : Build C) (url : Text) (c : Caller C) :
    Requests s b (b.load s url c) (b.loadReplies s url c) := by
  have hnote := (Shift.note (s := s) b (b.contextOf s c) .debug ("loading: " ++ url)).requests
  unfold load loadReplies
  refine hnote.trans ?_
  dsimp only
  cases Url.isExternal url with
  | error f => exact (Shift.fault _ c _).requests
  | ok external =>
    cases external with
    | true => exact (Shift.external _ c).requests
    | false =>
      cases Url.parse url with
      | error f => exact (Shift.fault _ c _).requests
      | ok v =>
        dsimp only
        generalize b.note (b.contextOf s c) .debug ("loading: " ++ url) = b
        cases hfile : b.fileAt s (s.project.path v.path) with
        | error e => exact (Shift.fault _ c _).requests
        | ok found =>
          cases found with
          | some f => exact (Shift.found hfile c).requests
          | none =>  -- A file that is not there is asked for under its URL, since it has one.
            unfold fileAt at hfile
            cases hurl : s.project.url (s.project.path v.path) with
            | error e =>
              rw [hurl] at hfile
              cases hfile
            | ok u => exact requests_request b _ c hurl

theorem requests_releaseSources (b : Build C) (ps : List Path) :
    Requests s b (b.releaseSources s ps).1 (b.releaseSourcesReplies s ps) := by
  induction ps generalizing b with
  | nil => exact .refl b
  | cons p ps ih =>
    unfold releaseSources releaseSourcesReplies
    cases s.project.isSource p with
    | error f => exact .refl b
    | ok source =>
      cases source with
      | true => exact (requests_releaseUnreachable b _ p).trans (ih _)
      | false => exact ih b

/-! ### Nobody else is answered -/

/-- From `b` to `b'` the jobs of these replies are added, and no others but faults of requests and
turns of the dependency pump. -/
structure Tells (b b' : Build C) (rs : List (Reply C)) : Prop where
  kept : ∀ x ∈ b.ready, x ∈ b'.ready
  told : ∀ r ∈ rs, ∃ n, (n, r.caller.resume (.ok r.text)) ∈ b'.ready
  only : ∀ x ∈ b'.ready, x ∈ b.ready ∨ x.2 = .pumpDependencies ∨
    (∃ (c : Caller C) (f : Fault), x.2 = c.resume (.error f)) ∨
      ∃ r ∈ rs, x.2 = r.caller.resume (.ok r.text)

theorem Tells.refl (b : Build C) : Tells b b [] := ⟨fun _ h => h, nofun, fun _ h => .inl h⟩

theorem Tells.trans (h : Tells b₁ b₂ rs) (h' : Tells b₂ b₃ rs') : Tells b₁ b₃ (rs ++ rs') := by
  refine ⟨fun x hx => h'.kept x (h.kept x hx), fun r hr => ?_, fun x hx => ?_⟩
  · rcases List.mem_append.1 hr with hr | hr
    · obtain ⟨n, hn⟩ := h.told r hr
      exact ⟨n, h'.kept _ hn⟩
    · exact h'.told r hr
  · rcases h'.only x hx with hx | hpump | hfault | ⟨r, hr, hx⟩
    · rcases h.only x hx with hx | hpump | hfault | ⟨r, hr, hx⟩
      · exact .inl hx
      · exact .inr (.inl hpump)
      · exact .inr (.inr (.inl hfault))
      · exact .inr (.inr (.inr ⟨r, List.mem_append_left _ hr, hx⟩))
    · exact .inr (.inl hpump)
    · exact .inr (.inr (.inl hfault))
    · exact .inr (.inr (.inr ⟨r, List.mem_append_right _ hr, hx⟩))

theorem tells_of_ready (h : b'.ready = b.ready) : Tells b b' [] :=
  ⟨fun _ hx => h ▸ hx, nofun, fun _ hx => .inl (h ▸ hx)⟩

theorem tells_goOn (b : Build C) (r : Reply C) :
    Tells b (b.goOn (r.caller.resume (.ok r.text))) [r] := by
  refine ⟨fun _ hx => List.mem_cons_of_mem _ hx, fun r' hr => ?_, fun x hx => ?_⟩
  · rw [List.mem_singleton.1 hr]
    exact ⟨0, List.mem_cons_self⟩
  · rcases List.mem_cons.1 hx with rfl | hx
    · exact .inr (.inr (.inr ⟨r, List.mem_cons_self, rfl⟩))
    · exact .inl hx

theorem tells_schedule (b : Build C) (n : Nat) (r : Reply C) :
    Tells b (b.schedule n (r.caller.resume (.ok r.text))) [r] := by
  refine ⟨fun _ hx => List.mem_append_left _ hx, fun r' hr => ?_, fun x hx => ?_⟩
  · rw [List.mem_singleton.1 hr]
    exact ⟨n, List.mem_append_right _ List.mem_cons_self⟩
  · rcases List.mem_append.1 hx with hx | hx
    · exact .inl hx
    · obtain rfl := List.mem_singleton.1 hx
      exact .inr (.inr (.inr ⟨r, List.mem_cons_self, rfl⟩))

/-- Those who wait for a ticket are told its answer. -/
theorem tells_wake (b : Build C) (ticket : Nat) (text : Text) :
    Tells b (b.wake s ticket text) (b.wakeReplies ticket text) := by
  have hready : (b.wake s ticket text).ready = b.ready ++
      (b.wakeReplies ticket text).map fun r => (answerRounds s, r.caller.resume (.ok r.text)) := by
    simp [wake, wakeReplies, List.partition_eq_filter_filter]
  refine ⟨fun x hx => ?_, fun r hr => ?_, fun x hx => ?_⟩
  · rw [hready]
    exact List.mem_append_left _ hx
  · refine ⟨answerRounds s, ?_⟩
    rw [hready]
    exact List.mem_append_right _ (List.mem_map_of_mem hr)
  · rw [hready] at hx
    rcases List.mem_append.1 hx with hx | hx
    · exact .inl hx
    · obtain ⟨r, hr, rfl⟩ := List.mem_map.1 hx
      exact .inr (.inr (.inr ⟨r, hr, rfl⟩))

theorem tells_release (b : Build C) (p : Path) : Tells b (b.release s p) (b.releaseReplies p) := by
  unfold release releaseReplies
  cases b.waitlist.current? p with
  | none => exact .refl b
  | some n =>
    have hwake := tells_wake (s := s) { b with waitlist := b.waitlist.release p } n []
    exact ⟨hwake.kept, hwake.told, hwake.only⟩

theorem Shift.tells (h : Shift s b b' rs) : Tells b b' rs := by
  cases h with  -- A reply is told as soon as its job is ready; a caller that waits is told when it is released.
  | note => exact tells_of_ready rfl
  | fault c f =>
    refine ⟨fun _ hx => List.mem_cons_of_mem _ hx, nofun, fun x hx => ?_⟩
    rcases List.mem_cons.1 hx with rfl | hx
    · exact .inr (.inr (.inl ⟨c, f, rfl⟩))
    · exact .inl hx
  | external c => exact tells_goOn b ⟨c, none, []⟩
  | @found p f _ c => exact tells_goOn b ⟨c, some p, f.text⟩
  | create => exact tells_of_ready rfl
  | enqueue ctx u p =>
    unfold enqueueUrl
    split
    · exact .refl b
    · unfold Build.enqueue
      dsimp only
      split
      · refine ⟨fun _ hx => List.mem_append_left _ hx, nofun, fun x hx => ?_⟩
        rcases List.mem_append.1 hx with hx | hx
        · exact .inl hx
        · obtain rfl := List.mem_singleton.1 hx
          exact .inr (.inl rfl)
      · exact tells_of_ready rfl
  | @await p n _ c =>
    unfold Build.await awaitReplies
    cases b.waitlist.ticket? n with
    | none => exact tells_of_ready rfl
    | some ticket =>
      cases ticket with
      | answered t =>
        dsimp only
        split
        · exact tells_schedule b 1 ⟨c, some p, t⟩
        · exact tells_goOn b ⟨c, some p, t⟩
      | «open» | cancelled => exact tells_of_ready rfl
  | release p => exact tells_release b p

/-- No answer of a request escapes the list of its replies. -/
theorem Requests.tells (h : Requests s b b' rs) : Tells b b' rs := by
  induction h with
  | refl => exact .refl _
  | step _ hshift ih => exact ih.trans hshift.tells

end Build
end HtmlDeps
