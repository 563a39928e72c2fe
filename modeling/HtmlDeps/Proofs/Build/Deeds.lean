import Mathlib.Data.List.Perm.Subperm
import HtmlDeps.Proofs.Build.Fair

/-!
# Deeds

Of all that a build does, its deeds are what decides which files are there and who waits for which: a file
is sought, the loader asks for it to be pushed, a file is registered.  `Build.deeds` lists the deeds of a
job.

A single change in this respect is a `Deal`.  Between deals a build may do whatever it likes, as long as it
spares the files, the tickets and the requests from outside (`Spares`).  A request from outside has its
number in one place at a time: in a job, or with one who waits (`Build.numbers`).
-/

namespace HtmlDeps

/-- What concerns the files of a build and those who ask for them. -/
inductive Deed where
  | seek (p : Path)  -- a load asks for the file at a path
  | push (p : Path)  -- the loader asks for the file at a path to be pushed
  | register (f : File)
  | abandon (n : Nat)  -- the load with a number is cancelled
deriving DecidableEq

/-- The path for which a load of a URL looks, if the URL leads to a file of the project. -/
def Setup.sought? (s : Setup) (url : Text) : Option Path :=
  match Url.isExternal url, Url.parse url with
  | .ok false, .ok u => (s.project.url (s.project.path u.path)).toOption.map fun _ => s.project.path u.path
  | _, _ => none

namespace Build

variable {C : Crawler}

/-! ### The deeds of each job -/

/-- A file that is neither there nor waited for is asked for. -/
def loadDeeds (s : Setup) (b : Build C) (url : Text) : List Deed :=
  match s.sought? url with
  | none => []
  | some p =>
    match b.waitlist.current? p, b.fileAt s p with
    | none, .ok none => [.seek p, .push p]
    | _, _ => [.seek p]

def turnDeeds (s : Setup) (b : Build C) (a : Nat) (t : C.Thread) : List Deed :=
  match b.analyses[a]? with
  | none => []
  | some x =>
    match x.crawl with
    | none => []
    | some (_, memory) =>
      match (C.turn memory t).move with
      | .ask url _ => b.loadDeeds s url
      | _ => []

def pumpSourcesDeeds (b : Build C) : List Deed :=
  match b.incoming with
  | .file f :: _ => if b.status = .failed then [] else [.register f]
  | _ => []

def deliverDeeds (s : Setup) (p : Path) : List Deed :=
  match s.read p with
  | .error _ => []
  | .ok contents => [.register ⟨p, contents⟩]

def pumpDependenciesDeeds (s : Setup) (b : Build C) : List Deed :=
  match b.queue with
  | some p :: _ => if s.gated then [] else deliverDeeds s p
  | _ => []

/-- The deeds of a job. -/
def deeds (s : Setup) (b : Build C) : Job C → List Deed
  | .pumpSources => b.pumpSourcesDeeds
  | .pumpDependencies => b.pumpDependenciesDeeds s
  | .deliver p => deliverDeeds s p
  | .turn a t => b.turnDeeds s a t
  | .load _ url => b.loadDeeds s url
  | .closeSources | .begin _ | .loaded _ _ | .expire _ => []

end Build

/-! ### Requests from outside -/

/-- The number of a request from outside. -/
def Caller.number? {C : Crawler} : Caller C → Option Nat
  | .client n => some n
  | .thread _ _ => none

/-- The request from outside with which a job deals. -/
def Job.number? {C : Crawler} : Job C → Option Nat
  | .load n _ | .loaded n _ => some n
  | .expire w => w.caller.number?
  | _ => none

/-- A job that stands for a request in hand. -/
def Caller.held {C : Crawler} : Caller C → Job C
  | .client n => .load n []
  | .thread a next => .turn a (next (.ok []))

theorem Caller.number?_held {C : Crawler} (c : Caller C) : c.held.number? = c.number? := by
  cases c <;> rfl

theorem Caller.number?_resume {C : Crawler} (c : Caller C) (answer : Except Fault Text) :
    (c.resume answer).number? = c.number? := by
  cases c <;> rfl

namespace Build

variable {C : Crawler} {s : Setup} {b b' b₁ b₂ b₃ : Build C} {j : Job C}

/-- The numbers of the requests from outside that have no answer yet. -/
def numbers (b : Build C) : List Nat :=
  b.ready.filterMap (·.2.number?) ++ b.waiting.filterMap (·.caller.number?)

/-- A request from outside is about to get an answer. -/
def Due (b : Build C) (n : Nat) (answer : Except Fault Text) : Prop :=
  ∃ rounds, (rounds, .loaded n answer) ∈ b.ready

/-- The build with a request in hand. -/
def hold (b : Build C) (c : Caller C) : Build C := b.goOn c.held

/-! ### What lies between the deals -/

/-- The files and the tickets stay as they are, nobody joins those who wait, and of the requests from outside
none but that with the number `m` can get lost. -/
structure Spares (m : Option Nat) (b b' : Build C) : Prop where
  files : b'.files = b.files
  waitlist : b'.waitlist = b.waitlist
  waiting : ∀ w ∈ b'.waiting, w ∈ b.waiting
  loads : b'.loads = b.loads
  numbers : b'.numbers.Subperm b.numbers
  kept : ∀ n a, m ≠ some n → b.Due n a → b'.Due n a

/-- The build goes on as before, or has ended as before. -/
structure Steady (b b' : Build C) : Prop where
  spares : Spares none b b'
  status : b'.status = b.status
  outcome : b'.outcome = b.outcome

/-- The build fails. -/
structure Fails (f : Failure) (b b' : Build C) : Prop where
  spares : Spares none b b'
  status : b'.status = .failed
  outcome : b'.outcome = some (b.outcome.getD (.error f))

/-- A failure that does not report what is missing. -/
def Plain (f : Failure) : Prop := ∀ urls, f ≠ .unresolved urls

/-- A single change, with its deeds. -/
inductive Deal (s : Setup) : Build C → List Deed → Build C → Prop
  | keep {b b' : Build C} (h : Steady b b') : Deal s b [] b'
  -- A load asks for a file that is there, or is waited for already.
  | seek {b : Build C} {t u : Text} (hurl : s.project.url (s.project.path t) = .ok u)
      (h : b.waitlist.current? (s.project.path t) ≠ none ∨
        ∃ f, b.fileAt s (s.project.path t) = .ok (some f)) :
      Deal s b [.seek (s.project.path t)] b
  | create {b : Build C} {t u : Text} (hurl : s.project.url (s.project.path t) = .ok u)
      (h : b.waitlist.current? (s.project.path t) = none)
      (hfile : b.fileAt s (s.project.path t) = .ok none) :
      Deal s b [.seek (s.project.path t), .push (s.project.path t)]
        { b with waitlist := (b.waitlist.create (s.project.path t)).1 }
  -- A request in hand waits, or gets the answer of its ticket.
  | await {b : Build C} {p : Path} {n : Nat} (h : b.waitlist.current? p = some n) (c : Caller C) :
      Deal s (b.hold c) [] (b.await s n p c)
  | release (b : Build C) (p : Path) : Deal s b [] (b.release s p)
  | register (b : Build C) (f : File) : Deal s b [.register f] (b.register s f).1
  | fail {b b' : Build C} {f : Failure} (hf : Plain f) (h : Fails f b b') : Deal s b [] b'
  | succeed {b b' : Build C} (i : Index) (h : Spares none b b') (hstatus : b'.status = .succeeded)
      (houtcome : b'.outcome = some (.ok i)) : Deal s b [] b'
  | settle (b : Build C) (n : Nat) (answer : Except Fault Text) :  -- Somebody outside gets an answer.
      Deal s (b.goOn (.loaded n answer)) [] { b with loads := b.loads.set n (some answer) }
  | ask (b : Build C) (url : Text) : Deal s b [] (b.ask url)
  | abandon {b b' : Build C} {n : Nat} (h : Spares (some n) b b') (hstatus : b'.status = b.status)
      (houtcome : b'.outcome = b.outcome) : Deal s b [.abandon n] b'

/-- Several changes, one after the other. -/
inductive Deals (s : Setup) : Build C → List Deed → Build C → Prop
  | refl (b : Build C) : Deals s b [] b
  | tail {b₁ b₂ b₃ : Build C} {ds es : List Deed} (h : Deals s b₁ ds b₂) (hdeal : Deal s b₂ es b₃) :
      Deals s b₁ (ds ++ es) b₃

/-- The build ends for want of files: it fails with the URLs of all that are waited for. -/
structure Reports (s : Setup) (b b' : Build C) : Prop where
  running : b.status = .running
  keys : b.waitlist.keys ≠ []
  fails : Fails (.unresolved (b.awaited s)) b b'

variable {ds es : List Deed}

theorem Deal.deals (h : Deal s b ds b') : Deals s b ds b' := (Deals.refl b).tail h

theorem Deals.trans (h : Deals s b₁ ds b₂) (h' : Deals s b₂ es b₃) : Deals s b₁ (ds ++ es) b₃ := by
  induction h' with
  | refl => rwa [List.append_nil]
  | tail _ hdeal ih =>
    rw [← List.append_assoc]
    exact ih.tail hdeal

theorem Deals.trans_nil (h : Deals s b₁ ds b₂) (h' : Deals s b₂ [] b₃) : Deals s b₁ ds b₃ := by
  have htrans := h.trans h'
  rwa [List.append_nil] at htrans

/-! ### Sparing -/

theorem Spares.refl (m : Option Nat) (b : Build C) : Spares m b b :=
  ⟨rfl, rfl, fun _ hw => hw, rfl, .refl _, fun _ _ _ h => h⟩

theorem Spares.trans {m : Option Nat} (h : Spares m b₁ b₂) (h' : Spares m b₂ b₃) :
    Spares m b₁ b₃ where
  files := h'.files.trans h.files
  waitlist := h'.waitlist.trans h.waitlist
  waiting w hw := h.waiting w (h'.waiting w hw)
  loads := h'.loads.trans h.loads
  numbers := h'.numbers.trans h.numbers
  kept n a hn hdue := h'.kept n a hn (h.kept n a hn hdue)

theorem Steady.refl (b : Build C) : Steady b b := ⟨.refl none b, rfl, rfl⟩

theorem Steady.trans (h : Steady b₁ b₂) (h' : Steady b₂ b₃) : Steady b₁ b₃ :=
  ⟨h.spares.trans h'.spares, h'.status.trans h.status, h'.outcome.trans h.outcome⟩

theorem Steady.deals (h : Steady b b') : Deals s b [] b' := (Deal.keep h).deals

theorem Deals.keep (h : Deals s b₁ ds b₂) (h' : Steady b₂ b₃) : Deals s b₁ ds b₃ :=
  h.trans_nil h'.deals

theorem Steady.trans_deals (h : Steady b₁ b₂) (h' : Deals s b₂ ds b₃) : Deals s b₁ ds b₃ :=
  h.deals.trans h'

theorem Steady.trans_fails {f : Failure} (h : Steady b₁ b₂) (h' : Fails f b₂ b₃) : Fails f b₁ b₃ :=
  ⟨h.spares.trans h'.spares, h'.status, h.outcome ▸ h'.outcome⟩

/-- Other jobs are ready, but the same requests from outside have their numbers there. -/
theorem spares_of_ready {m : Option Nat} (hfiles : b'.files = b.files)
    (hwaitlist : b'.waitlist = b.waitlist) (hwaiting : b'.waiting = b.waiting)
    (hloads : b'.loads = b.loads)
    (hnumbers : (b'.ready.filterMap (·.2.number?)).Subperm (b.ready.filterMap (·.2.number?)))
    (hkept : ∀ n a, m ≠ some n → b.Due n a → b'.Due n a) : Spares m b b' where
  files := hfiles
  waitlist := hwaitlist
  waiting := by
    rw [hwaiting]
    exact fun _ hw => hw
  loads := hloads
  numbers := by
    unfold Build.numbers
    rw [hwaiting]
    exact (List.subperm_append_right _).2 hnumbers
  kept := hkept

/-- Nothing of what counts is changed. -/
theorem steady_of_eq (hfiles : b'.files = b.files) (hwaitlist : b'.waitlist = b.waitlist)
    (hwaiting : b'.waiting = b.waiting) (hloads : b'.loads = b.loads) (hready : b'.ready = b.ready)
    (hstatus : b'.status = b.status) (houtcome : b'.outcome = b.outcome) : Steady b b' where
  spares := spares_of_ready hfiles hwaitlist hwaiting hloads (hready ▸ .refl _)
    fun _ _ _ hdue => hdue.imp fun _ h => hready ▸ h
  status := hstatus
  outcome := houtcome

theorem steady_note (b : Build C) (ctx : Log.Fields) (l : Log.Level) (m : Text) :
    Steady b (b.note ctx l m) := steady_of_eq rfl rfl rfl rfl rfl rfl rfl

/-- Entries for each of several things. -/
theorem steady_foldl {α : Type} {f : Build C → α → Build C} (h : ∀ b x, Steady b (f b x)) (xs : List α)
    (b : Build C) : Steady b (xs.foldl f b) := by
  induction xs generalizing b with
  | nil => exact .refl b
  | cons x xs ih => exact (h b x).trans (ih _)

/-- Jobs come in that have nothing to do with requests from outside. -/
theorem steady_append {js : List (Nat × Job C)} (hjs : ∀ x ∈ js, x.2.number? = none) :
    Steady b { b with ready := b.ready ++ js } := by
  have hnone : js.filterMap (·.2.number?) = [] := List.filterMap_eq_nil_iff.2 hjs
  refine ⟨spares_of_ready rfl rfl rfl rfl ?_ fun n a _ hdue => ?_, rfl, rfl⟩
  · rw [List.filterMap_append, hnone, List.append_nil]
  · obtain ⟨rounds, hmem⟩ := hdue
    exact ⟨rounds, List.mem_append_left _ hmem⟩

theorem steady_schedule (b : Build C) (n : Nat) (hj : j.number? = none) : Steady b (b.schedule n j) :=
  steady_append fun x hx => by rwa [List.mem_singleton.1 hx]

theorem steady_scheduleAll (b : Build C) {js : List (Job C)} (hjs : ∀ j ∈ js, j.number? = none) :
    Steady b (b.scheduleAll js) := by
  refine steady_append fun x hx => ?_
  obtain ⟨j, hj, rfl⟩ := List.mem_map.1 hx
  exact hjs j hj

/-- One job takes the place of another. -/
theorem steady_goOn_goOn (b : Build C) {j' : Job C} (hj : j'.number? = j.number? ∨ j'.number? = none)
    (hdue : ∀ n a, j = .loaded n a → j' = .loaded n a) : Steady (b.goOn j) (b.goOn j') := by
  refine ⟨spares_of_ready rfl rfl rfl rfl ?_ fun n a _ hdue' => ?_, rfl, rfl⟩
  · simp only [goOn, List.filterMap_cons]
    rcases hj with hj | hj
    · rw [hj]
    · rw [hj]
      cases j.number? with
      | none => exact .refl _
      | some n => exact (List.sublist_cons_self _ _).subperm
  · obtain ⟨rounds, hmem⟩ := hdue'
    rcases List.mem_cons.1 hmem with heq | hmem
    · obtain ⟨-, heq⟩ := Prod.mk.inj heq
      exact ⟨0, List.mem_cons.2 (.inl (by rw [hdue n a heq.symm]))⟩
    · exact ⟨rounds, List.mem_cons_of_mem _ hmem⟩

/-- A job is done with. -/
theorem steady_done (b : Build C) (hdue : ∀ n a, j ≠ .loaded n a) : Steady (b.goOn j) b := by
  refine ⟨spares_of_ready rfl rfl rfl rfl ?_ fun n a _ hdue' => ?_, rfl, rfl⟩
  · simp only [goOn, List.filterMap_cons]
    cases j.number? with
    | none => exact .refl _
    | some n => exact (List.sublist_cons_self _ _).subperm
  · obtain ⟨rounds, hmem⟩ := hdue'
    rcases List.mem_cons.1 hmem with heq | hmem
    · exact absurd (Prod.mk.inj heq).2.symm (hdue n a)
    · exact ⟨rounds, hmem⟩

theorem steady_goOn (b : Build C) (hj : j.number? = none) : Steady b (b.goOn j) := by
  refine ⟨spares_of_ready rfl rfl rfl rfl ?_ fun n a _ hdue => ?_, rfl, rfl⟩
  · simp only [goOn, List.filterMap_cons, hj]
    exact .refl _
  · obtain ⟨rounds, hmem⟩ := hdue
    exact ⟨rounds, List.mem_cons_of_mem _ hmem⟩

/-- A request in hand gets an answer. -/
theorem steady_resume (b : Build C) (c : Caller C) (answer : Except Fault Text) :
    Steady (b.hold c) (b.goOn (c.resume answer)) := by
  refine steady_goOn_goOn b (.inl ?_) fun n a heq => ?_
  · rw [c.number?_held, c.number?_resume]
  · cases c <;> cases heq

end Build
end HtmlDeps
