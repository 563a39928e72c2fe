import HtmlDeps.Proofs.Build.Turns

/-!
# Acts

An act is a step of a build's own or of somebody outside, in any order, with its deeds.  Here belong also
the steps that put an end to something: a load may be cancelled, wherever it has got to, and so may all
work of the build's own.

Whatever is kept by every deal, and by the report of missing files, is kept by every run
(`Runs.preserve`).
-/

namespace HtmlDeps.Build

variable {C : Crawler} {s : Setup} {b b' b₀ : Build C} {ds es : List Deed} {past : List (Build C)} {f : File}

/-- A step of a run, with its deeds. -/
inductive Acts (s : Setup) : Build C → List Deed → Build C → Prop
  | start (b : Build C) : Acts s b [] (b.start s).1
  | job {b : Build C} {before after : List (Nat × Job C)} {rounds : Nat} {j : Job C}
      (h : b.ready = before ++ (rounds, j) :: after) :
      Acts s b ({ b with ready := before ++ after }.deeds s j) ({ b with ready := before ++ after }.run s j)
  | delay {b : Build C} {rest : List (Nat × Job C)} {rounds : Nat} {j : Job C}
      (h : b.ready = (rounds + 1, j) :: rest) : Acts s b [] { b with ready := rest ++ [(rounds, j)] }
  | deliver {b : Build C} {before after : List Read} {r : Read} (hpending : r.delivery = .pending)
      (h : b.reads = before ++ r :: after) :
      Acts s b [] ({ b with reads := before ++ { r with delivery := .delivered } :: after }.schedule 0
        (.deliver r.path))
  | expire {b : Build C} {before after : List (Waiter C)} {w : Waiter C}
      (htimeout : s.timeout.isSome) (h : b.waiting = before ++ w :: after) :
      Acts s b [] { b with waiting := before ++ after, ready := b.ready ++ [(3, .expire w)] }
  | arrive (b : Build C) (item : Arrival) : Acts s b [] (b.arrive item)
  | ask (b : Build C) (url : Text) : Acts s b [] (b.ask url)
  | push (b : Build C) (ctx : Log.Fields) (url : Text) : Acts s b [] (b.push s ctx url).1
  | register (b : Build C) (f : File) : Acts s b [.register f] (b.register s f).1
  | release (b : Build C) (p : Path) : Acts s b [] (b.release s p)
  | analyze (b : Build C) (p : Path) : Acts s b [] (b.analyze p true)
  | note (b : Build C) (ctx : Log.Fields) (l : Log.Level) (m : Text) : Acts s b [] (b.note ctx l m)
  | leave {b : Build C} {before after : List (Waiter C)} {w : Waiter C}  -- A request that waits is cancelled.
      (h : b.waiting = before ++ w :: after) :
      Acts s b (w.caller.number?.toList.map .abandon) { b with waiting := before ++ after }
  -- Something is cancelled that is still to be done.
  | drop {b : Build C} {before after : List (Nat × Job C)} {rounds : Nat} {j : Job C}
      (h : b.ready = before ++ (rounds, j) :: after) :
      Acts s b (j.number?.toList.map .abandon) { b with ready := before ++ after }
  | close (b : Build C) : Acts s b [] (b.cancel none)  -- all work of the build's own is cancelled

/-- The deeds and the states of a run that starts with `b₀`, the last state first. -/
inductive Runs (s : Setup) (b₀ : Build C) : List Deed → List (Build C) → Prop
  | start : Runs s b₀ [] [b₀]
  | act {b b' : Build C} {ds es : List Deed} {past : List (Build C)} (h : Runs s b₀ ds (b :: past))
      (hact : Acts s b es b') : Runs s b₀ (ds ++ es) (b' :: b :: past)

/-- The deeds of the next job in the order of the list. -/
def stepDeeds (s : Setup) (b : Build C) : List Deed :=
  match b.ready with
  | (0, j) :: rest => { b with ready := rest }.deeds s j
  | _ => []

theorem acts_step (h : b.ready ≠ []) : Acts s b (b.stepDeeds s) (b.step s) := by
  unfold Build.step stepDeeds
  cases hready : b.ready with
  | nil => exact absurd hready h
  | cons x rest =>
    obtain ⟨rounds, j⟩ := x
    cases rounds with
    | zero =>
      have hready : b.ready = [] ++ (0, j) :: rest := hready
      exact .job hready
    | succ n => exact .delay hready

/-! ### What an act amounts to -/

theorem deals_start (b : Build C) : Deals s b [] (b.start s).1 ∨ Reports s b (b.start s).1 := by
  have hstarted : Steady b { b with started := true } := steady_of_eq rfl rfl rfl rfl rfl rfl rfl
  unfold Build.start
  split
  · exact .inl (.refl b)
  · dsimp only
    split
    · exact .inl hstarted.deals
    · rename_i extras _
      have hextras := steady_enqueueExtras (s := s) { b with started := true } extras
      split
      · rename_i heq
        rw [heq] at hextras
        exact .inl (hstarted.trans hextras).deals
      · rename_i b₁ heq
        rw [heq] at hextras
        have hpumps := ((hstarted.trans hextras).trans
          (steady_schedule b₁ 0 (j := .pumpSources) rfl)).trans
            (steady_schedule _ 0 (j := .pumpDependencies) rfl)
        dsimp only
        split
        · rcases deals_complete (s := s) _ none with h | h
          · exact .inl (hpumps.trans_deals h)
          · exact .inr (h.of_steady hpumps)
        · exact .inl hpumps.deals

/-- The same jobs in another order. -/
theorem steady_of_perm {js : List (Nat × Job C)} (h : (js.map (·.2)).Perm (b.ready.map (·.2))) :
    Steady b { b with ready := js } := by
  have hnumbers : ∀ xs : List (Nat × Job C),
      xs.filterMap (·.2.number?) = (xs.map (·.2)).filterMap Job.number? := fun xs => by
    rw [List.filterMap_map]
    rfl
  refine ⟨spares_of_ready rfl rfl rfl rfl ?_ fun n a _ hdue => ?_, rfl, rfl⟩
  · rw [hnumbers, hnumbers]
    exact (h.filterMap Job.number?).subperm
  · obtain ⟨rounds, hmem⟩ := hdue
    obtain ⟨⟨r, j⟩, hx, heq⟩ := List.mem_map.1 (h.mem_iff.2 (List.mem_map_of_mem hmem))
    obtain rfl : j = .loaded n a := heq
    exact ⟨r, hx⟩

/-- A request that has waited too long is still in hand. -/
theorem steady_expire {before after : List (Waiter C)} {w : Waiter C} (h : b.waiting = before ++ w :: after) :
    Steady b { b with waiting := before ++ after, ready := b.ready ++ [(3, .expire w)] } := by
  refine ⟨⟨rfl, rfl, fun v hv => ?_, rfl, ?_, fun n a _ hdue => ?_⟩, rfl, rfl⟩
  · rw [h]
    simp only [List.mem_append, List.mem_cons] at hv ⊢
    tauto
  · refine List.Perm.subperm ?_
    have hjob : (Job.expire w).number? = w.caller.number? := rfl
    unfold numbers
    rw [h]
    simp only [List.filterMap_append, List.filterMap_cons, List.filterMap_nil, hjob]
    cases w.caller.number? with
    | none => simp
    | some n =>
      simp only [List.append_assoc, List.singleton_append]
      refine List.Perm.append_left _ ?_
      exact List.perm_middle.symm
  · obtain ⟨rounds, hmem⟩ := hdue
    exact ⟨rounds, List.mem_append_left _ hmem⟩

theorem spares_leave {before after : List (Waiter C)} {w : Waiter C} (m : Option Nat)
    (h : b.waiting = before ++ w :: after) : Spares m b { b with waiting := before ++ after } := by
  refine ⟨rfl, rfl, fun v hv => ?_, rfl, ?_, fun _ _ _ hdue => hdue⟩
  · rw [h]
    simp only [List.mem_append, List.mem_cons] at hv ⊢
    tauto
  · have hsub : (before ++ after).Sublist b.waiting := by
      rw [h]
      exact (List.sublist_cons_self _ _).append_left before
    exact ((List.Sublist.refl _).append (hsub.filterMap _)).subperm

theorem spares_drop {before after : List (Nat × Job C)} {rounds : Nat} {j : Job C}
    (h : b.ready = before ++ (rounds, j) :: after) :
    Spares j.number? b { b with ready := before ++ after } := by
  have hsub : (before ++ after).Sublist b.ready := by
    rw [h]
    exact (List.sublist_cons_self _ _).append_left before
  refine spares_of_ready rfl rfl rfl rfl (hsub.filterMap _).subperm fun n a hn hdue => ?_
  obtain ⟨r, hmem⟩ := hdue
  rw [h] at hmem
  refine ⟨r, ?_⟩
  rcases List.mem_append.1 hmem with hmem | hmem
  · exact List.mem_append_left _ hmem
  · rcases List.mem_cons.1 hmem with heq | hmem
    · obtain ⟨-, rfl⟩ := Prod.mk.inj heq
      exact absurd rfl hn
    · exact List.mem_append_right _ hmem

/-- Something is cancelled that may be a request from outside. -/
theorem Spares.deals (m : Option Nat) (h : Spares m b b') (hstatus : b'.status = b.status)
    (houtcome : b'.outcome = b.outcome) : Deals s b (m.toList.map .abandon) b' := by
  cases m with
  | none => exact (Steady.mk h hstatus houtcome).deals
  | some n => exact (Deal.abandon h hstatus houtcome).deals

/-- An act amounts to some deals, with its deeds, unless it ends the build for want of files. -/
theorem Acts.deals (h : Acts s b es b') : Deals s b es b' ∨ (es = [] ∧ Reports s b b') := by
  cases h with  -- Taking a job off the list is no deal by itself: no caller is lost, since the job is in hand.
  | start => exact (deals_start b).imp_right fun h => ⟨rfl, h⟩
  | @job before after rounds j h =>
    have hnext : Steady b ({ b with ready := before ++ after }.goOn j) := by
      refine steady_of_perm ?_
      rw [h]
      simp only [List.map_cons, List.map_append]
      exact List.perm_middle.symm
    rcases deals_run (s := s) { b with ready := before ++ after } j with h | ⟨hes, h⟩
    · exact .inl (hnext.trans_deals h)
    · exact .inr ⟨hes, h.of_steady hnext⟩
  | @delay rest rounds j h =>
    refine .inl (Steady.deals (steady_of_perm ?_))
    rw [h]
    simp only [List.map_cons, List.map_append, List.map_nil]
    exact List.perm_append_singleton _ _
  | @deliver before after r _ h =>
    have hreads : Steady b { b with reads := before ++ { r with delivery := .delivered } :: after } :=
      steady_of_eq rfl rfl rfl rfl rfl rfl rfl
    exact .inl (hreads.trans (steady_schedule _ 0 rfl)).deals
  | expire _ h => exact .inl (steady_expire h).deals
  | arrive item =>
    left
    have harrived : Steady b { b with incoming := b.incoming ++ [item] } :=
      steady_of_eq rfl rfl rfl rfl rfl rfl rfl
    unfold Build.arrive
    dsimp only
    split
    · have hwoken : Steady b { b with incoming := b.incoming ++ [item], sourcePump := .working } :=
        steady_of_eq rfl rfl rfl rfl rfl rfl rfl
      exact (hwoken.trans (steady_schedule _ 0 rfl)).deals
    · exact harrived.deals
  | ask url => exact .inl (Deal.ask b url).deals
  | push ctx url => exact .inl (deals_push b ctx url)
  | register f => exact .inl (Deal.register b f).deals
  | release p => exact .inl (Deal.release b p).deals
  | analyze p => exact .inl (steady_analyze b p true).deals
  | note ctx l m => exact .inl (steady_note b ctx l m).deals
  | leave h => exact .inl ((spares_leave _ h).deals _ rfl rfl)
  | drop h => exact .inl ((spares_drop h).deals _ rfl rfl)
  | close => exact .inl (Steady.mk (spares_cancel b none) rfl rfl).deals

/-! ### Deeds of an act -/

/-- Deeds that deal with one path, or register one file, or neither. -/
inductive Single : List Deed → Prop
  | none : Single []
  | seek (p : Path) : Single [.seek p]
  | push (p : Path) : Single [.seek p, .push p]
  | register (f : File) : Single [.register f]

theorem single_loadDeeds (b : Build C) (url : Text) : Single (b.loadDeeds s url) := by
  unfold loadDeeds
  split
  · exact .none
  · split
    · exact .push _
    · exact .seek _

theorem single_deliverDeeds (p : Path) : Single (deliverDeeds s p) := by
  unfold deliverDeeds
  split
  · exact .none
  · exact .register _

theorem single_deeds (b : Build C) (j : Job C) : Single (b.deeds s j) := by
  cases j with
  | pumpSources =>
    change Single b.pumpSourcesDeeds
    unfold pumpSourcesDeeds
    split
    · split
      · exact .none
      · exact .register _
    · exact .none
  | pumpDependencies =>
    change Single (b.pumpDependenciesDeeds s)
    unfold pumpDependenciesDeeds
    split
    · split
      · exact .none
      · exact single_deliverDeeds _
    · exact .none
  | deliver p => exact single_deliverDeeds p
  | turn a t =>
    change Single (b.turnDeeds s a t)
    unfold turnDeeds
    split
    · exact .none
    · split
      · exact .none
      · split
        · exact single_loadDeeds b _
        · exact .none
  | load n url => exact single_loadDeeds b url
  | closeSources | begin | loaded | expire => exact .none

/-- An act cancels a load, or deals with one path, or registers one file, or does neither. -/
theorem Acts.single (h : Acts s b es b') : Single es ∨ ∃ n, es = [.abandon n] := by
  have habandon : ∀ n : Option Nat, Single (n.toList.map .abandon) ∨
      ∃ k, (n.toList.map .abandon : List Deed) = [.abandon k] := fun n => by
    cases n with
    | none => exact .inl .none
    | some n => exact .inr ⟨n, rfl⟩
  cases h with
  | job => exact .inl (single_deeds _ _)
  | register f => exact .inl (.register f)
  | leave | drop => exact habandon _
  | _ => exact .inl .none

theorem Acts.eq_of_register (h : Acts s b es b') (hmem : .register f ∈ es) : es = [.register f] := by
  rcases h.single with h | ⟨n, rfl⟩
  · cases h <;> simp_all
  · simp at hmem

/-! ### Runs -/

theorem Deals.preserve {P : List Deed → Build C → Prop}
    (hdeal : ∀ {ds b es b'}, P ds b → Deal s b es b' → P (ds ++ es) b') (hP : P ds b)
    (h : Deals s b es b') : P (ds ++ es) b' := by
  induction h with
  | refl => rwa [List.append_nil]
  | tail _ h ih =>
    rw [← List.append_assoc]
    exact hdeal ih h

/-- What every deal keeps, and the report of missing files, holds in every state of a run. -/
theorem Runs.preserve {P : List Deed → Build C → Prop}
    (hdeal : ∀ {ds b es b'}, P ds b → Deal s b es b' → P (ds ++ es) b')
    (hreports : ∀ {ds b b'}, P ds b → Reports s b b' → P ds b') (hP : P [] b₀)
    (h : Runs s b₀ ds (b :: past)) : P ds b := by
  generalize htrace : b :: past = trace at h
  induction h generalizing b past with
  | start =>
    obtain ⟨rfl, -⟩ := List.cons.inj htrace
    exact hP
  | act _ hact ih =>
    obtain ⟨rfl, -⟩ := List.cons.inj htrace
    rcases hact.deals with h | ⟨rfl, h⟩
    · exact h.preserve hdeal (ih rfl)
    · rw [List.append_nil]
      exact hreports (ih rfl) h

end HtmlDeps.Build
