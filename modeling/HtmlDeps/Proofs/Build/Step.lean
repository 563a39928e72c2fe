import HtmlDeps.Build.Schedule

/-!
# Steps of a build

`Works` is what a build does by itself, in any order: any job may be done at any time, whatever
rounds it still lets pass, or be put off, a read that is under way may end, and a request may wait too
long.  `Touches` is what somebody outside does meanwhile.  A trace lists the states of a run, the last
one first.

In a run that is fed (`Fed`), nobody outside does anything but let given sources arrive, one after the
other, and write to the log.
-/

namespace HtmlDeps.Build

variable {C : Crawler} {s : Setup}

/-- A step of the build's own. -/
inductive Works (s : Setup) : Build C → Build C → Prop
  | job {b : Build C} {before after : List (Nat × Job C)} {rounds : Nat} {j : Job C}
      (h : b.ready = before ++ (rounds, j) :: after) :
      Works s b ({ b with ready := before ++ after }.run s j)
  | delay {b : Build C} {rest : List (Nat × Job C)} {rounds : Nat} {j : Job C}
      (h : b.ready = (rounds + 1, j) :: rest) :
      Works s b { b with ready := rest ++ [(rounds, j)] }
  | deliver {b : Build C} {before after : List Read} {r : Read} (hpending : r.delivery = .pending)
      (h : b.reads = before ++ r :: after) :
      Works s b ({ b with reads := before ++ { r with delivery := .delivered } :: after }.schedule 0
        (.deliver r.path))
  | expire {b : Build C} {before after : List (Waiter C)} {w : Waiter C}
      (htimeout : s.timeout.isSome) (h : b.waiting = before ++ w :: after) :
      Works s b { b with waiting := before ++ after, ready := b.ready ++ [(3, .expire w)] }

/-- Something that somebody outside does: a source arrives, or somebody asks for a file, pushes a
dependency, registers a file, has a fragment analyzed or writes to the log. -/
inductive Touches (s : Setup) : Build C → Build C → Prop
  | arrive (b : Build C) (item : Arrival) : Touches s b (b.arrive item)
  | ask (b : Build C) (url : Text) : Touches s b (b.ask url)
  | push (b : Build C) (ctx : Log.Fields) (url : Text) : Touches s b (b.push s ctx url).1
  | register (b : Build C) (f : File) : Touches s b (b.register s f).1
  | analyze (b : Build C) (p : Path) : Touches s b (b.analyze p true)
  | note (b : Build C) (ctx : Log.Fields) (l : Log.Level) (m : Text) : Touches s b (b.note ctx l m)

/-- A step of a run. -/
def Step (s : Setup) (b b' : Build C) : Prop := Works s b b' ∨ Touches s b b'

/-- The states of a run that starts with `b`, the last one first. -/
inductive Trace (s : Setup) (b : Build C) : List (Build C) → Prop
  | start : Trace s b [b]
  | step {x y : Build C} {past : List (Build C)} (h : Trace s b (x :: past)) (hstep : Step s x y) :
      Trace s b (y :: x :: past)

/-! ### Runs that are fed -/

/-- From `b₀`, with these sources still to come, a run leads to a build with these still to come. -/
inductive Fed (s : Setup) (b₀ : Build C) (items : List Arrival) : Build C → List Arrival → Prop
  | start : Fed s b₀ items b₀ items
  | works {b b' : Build C} {rest : List Arrival} (h : Fed s b₀ items b rest) (hstep : Works s b b') :
      Fed s b₀ items b' rest
  | arrive {b : Build C} {item : Arrival} {rest : List Arrival}
      (h : Fed s b₀ items b (item :: rest)) : Fed s b₀ items (b.arrive item) rest
  | note {b : Build C} {rest : List Arrival} (h : Fed s b₀ items b rest) (ctx : Log.Fields)
      (l : Log.Level) (m : Text) : Fed s b₀ items (b.note ctx l m) rest

theorem Fed.trace {b₀ b : Build C} {items rest : List Arrival} (h : Fed s b₀ items b rest) :
    ∃ past, Trace s b₀ (b :: past) := by
  induction h with
  | start => exact ⟨[], .start⟩
  | works _ hstep ih => exact ih.imp' (_ :: ·) fun _ htrace => htrace.step (.inl hstep)
  | arrive _ ih => exact ih.imp' (_ :: ·) fun _ htrace => htrace.step (.inr (.arrive _ _))
  | note _ ctx l m ih => exact ih.imp' (_ :: ·) fun _ htrace => htrace.step (.inr (.note _ ctx l m))

/-- The next job in the order of the list is a step. -/
theorem works_step {b : Build C} (h : b.ready ≠ []) : Works s b (b.step s) := by
  unfold Build.step
  split
  · exact absurd ‹_› h
  · rename_i j rest hready
    have hready : b.ready = [] ++ (0, j) :: rest := hready
    exact .job hready
  · rename_i n j rest hready
    exact .delay hready

theorem Fed.settle {b₀ b : Build C} {items rest : List Arrival} (limit : Nat)
    (h : Fed s b₀ items b rest) : Fed s b₀ items (b.settle s limit) rest := by
  induction limit generalizing b with
  | zero => exact h
  | succ limit ih =>
    unfold Build.settle
    split
    · exact h
    · rename_i hready
      exact ih (h.works (works_step (mt List.isEmpty_iff.2 hready)))

/-! ### Runs that are picked step by step -/

/-- Which step is next: the job at a position of the list, or an arrival. -/
inductive Pick where
  | job (n : Nat)
  | arrive (item : Arrival)

/-- The state after a step, if there is such a step. -/
def pick? (s : Setup) (b : Build C) : Pick → Option (Build C)
  | .job n => (b.ready[n]?).map fun (_, j) =>
      { b with ready := b.ready.take n ++ b.ready.drop (n + 1) }.run s j
  | .arrive item => some (b.arrive item)

theorem step_of_pick? {b b' : Build C} {p : Pick} (h : b.pick? s p = some b') : Step s b b' := by
  cases p with
  | job n =>
    obtain ⟨⟨rounds, j⟩, hj, rfl⟩ := Option.map_eq_some_iff.1 h
    obtain ⟨hn, hget⟩ := List.getElem?_eq_some_iff.1 hj
    have hready : b.ready = b.ready.take n ++ (rounds, j) :: b.ready.drop (n + 1) := by
      rw [← hget, ← List.drop_eq_getElem_cons hn, List.take_append_drop]
    exact .inl (.job hready)
  | arrive item =>
    obtain rfl := Option.some.inj h
    exact .inr (.arrive b item)

/-- The state after several steps. -/
def play? (s : Setup) (b : Build C) : List Pick → Option (Build C)
  | [] => some b
  | p :: ps => (b.pick? s p).bind fun b => play? s b ps

/-- What is played is a run. -/
theorem trace_of_play? {b₀ b b' : Build C} {past : List (Build C)} {ps : List Pick}
    (h : b.play? s ps = some b') (htrace : Trace s b₀ (b :: past)) :
    ∃ past', Trace s b₀ (b' :: past') := by
  induction ps generalizing b past with
  | nil =>
    obtain rfl := Option.some.inj h
    exact ⟨past, htrace⟩
  | cons p ps ih =>
    obtain ⟨x, hx, hrest⟩ := Option.bind_eq_some_iff.1 h
    exact ih hrest (htrace.step (step_of_pick? hx))

end HtmlDeps.Build
