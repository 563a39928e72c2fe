import HtmlDeps.Proofs.Build.Recorded

/-!
# Requests from outside

A request from outside that has no answer yet has its number in one place (`Numbered`).  Once its answer is
due, the request gets this answer and no other, unless it is cancelled (`Runs.secured`).
-/

namespace HtmlDeps.Build

variable {C : Crawler} {s : Setup} {b b' b₀ : Build C} {ds es : List Deed} {past : List (Build C)}
  {m : Option Nat} {n : Nat} {answer : Except Fault Text}

/-- The requests without an answer are told apart by their numbers. -/
structure Numbered (b : Build C) : Prop where
  nodup : b.numbers.Nodup
  unanswered : ∀ n ∈ b.numbers, b.loads[n]? = some none

/-- A request from outside has got its answer, or is about to. -/
def Answered (b : Build C) (n : Nat) (answer : Except Fault Text) : Prop :=
  b.loads[n]? = some (some answer) ∨ b.Due n answer

theorem numbered_initial (p : Project) : Numbered (initial C p) := ⟨.nil, nofun⟩

/-! ### Numbers change their places -/

theorem Numbered.of_subperm (h : Numbered b) (hnumbers : b'.numbers.Subperm b.numbers)
    (hloads : b'.loads = b.loads) : Numbered b' := by
  obtain ⟨ns, hperm, hsub⟩ := hnumbers
  refine ⟨hperm.nodup_iff.1 (h.nodup.sublist hsub), fun n hn => ?_⟩
  rw [hloads]
  exact h.unanswered n (hsub.subset (hperm.mem_iff.2 hn))

theorem filterMap_number?_map {ws : List (Waiter C)} (rounds : Nat) (text : Text) :
    (ws.map fun w => (rounds, w.caller.resume (.ok text))).filterMap (·.2.number?) =
      ws.filterMap (·.caller.number?) := by
  rw [List.filterMap_map]
  refine List.filterMap_congr fun w _ => ?_
  exact w.caller.number?_resume _

/-- Those who wait for a ticket go on, the others wait on. -/
theorem answered_eq (b : Build C) (l : Waitlist Path) (n : Nat) (text : Text) : b.answered s l n text = { b with
    waitlist := l.answer n text
    waiting := b.waiting.filter (·.ticket ≠ n)
    ready := b.ready ++ (b.waiting.filter (·.ticket = n)).map fun w =>
      (answerRounds s, w.caller.resume (.ok text)) } := by
  have hlater : b.waiting.filter (not ∘ fun w => decide (w.ticket = n)) = b.waiting.filter (·.ticket ≠ n) :=
    List.filter_congr fun w _ => decide_not.symm
  unfold answered wake
  simp only [List.partition_eq_filter_filter, hlater]

/-- Those who are answered keep their numbers. -/
theorem numbers_answered (b : Build C) (l : Waitlist Path) (n : Nat) (text : Text) :
    (b.answered s l n text).numbers.Perm b.numbers := by
  have hsplit := (List.filter_append_perm (fun w : Waiter C => w.ticket = n) b.waiting).filterMap
    (·.caller.number?)
  have hlater : b.waiting.filter (fun w => !decide (w.ticket = n)) = b.waiting.filter (·.ticket ≠ n) :=
    List.filter_congr fun w _ => decide_not.symm
  rw [hlater, List.filterMap_append] at hsplit
  rw [answered_eq]
  simp only [numbers, List.filterMap_append, filterMap_number?_map, List.append_assoc]
  exact List.Perm.append_left _ hsplit

theorem due_answered {l : Waitlist Path} {t : Nat} {text : Text} (h : b.Due n answer) :
    (b.answered s l t text).Due n answer := by
  obtain ⟨rounds, hmem⟩ := h
  rw [answered_eq]
  exact ⟨rounds, List.mem_append_left _ hmem⟩

/-- What a release does to the requests from outside. -/
theorem release_outside (b : Build C) (p : Path) : (b.release s p).numbers.Perm b.numbers ∧
    (b.release s p).loads = b.loads ∧ ∀ n a, b.Due n a → (b.release s p).Due n a := by
  rcases release_cases s b p with ⟨-, heq⟩ | ⟨n, -, heq⟩ <;> rw [heq]
  · exact ⟨.refl _, rfl, fun _ _ h => h⟩
  · exact ⟨numbers_answered b _ n [], rfl, fun _ _ h => due_answered h⟩

theorem register_outside (b : Build C) (f : File) : (b.register s f).1.numbers.Perm b.numbers ∧
    (b.register s f).1.loads = b.loads ∧ ∀ n a, b.Due n a → (b.register s f).1.Due n a := by
  rcases registered_cases s b f with ⟨e, -, heq⟩ | ⟨u, -, ⟨-, heq⟩ | ⟨n, -, heq⟩⟩ <;> rw [heq]
  · exact ⟨.refl _, rfl, fun _ _ h => h⟩
  · exact ⟨.refl _, rfl, fun _ _ h => h⟩
  · refine ⟨numbers_answered (b.stored u f (b.registerLog s f)) _ n f.text, rfl, fun k a h => ?_⟩
    have hstored : (b.stored u f (b.registerLog s f)).Due k a := h
    exact due_answered hstored

theorem numbers_goOn (b : Build C) (j : Job C) : (b.goOn j).numbers = j.number?.toList ++ b.numbers := by
  simp only [numbers, goOn, List.filterMap_cons]
  cases j.number? <;> rfl

theorem numbers_schedule (b : Build C) (k : Nat) (j : Job C) :
    (b.schedule k j).numbers.Perm (j.number?.toList ++ b.numbers) := by
  simp only [numbers, schedule, List.filterMap_append, List.filterMap_cons, List.filterMap_nil]
  cases j.number? with
  | none => simp
  | some n => simp [List.perm_middle]

theorem numbers_wait (b : Build C) (w : Waiter C) :
    ({ b with waiting := b.waiting ++ [w] } : Build C).numbers.Perm (w.caller.number?.toList ++ b.numbers) := by
  simp only [numbers, List.filterMap_append, List.filterMap_cons, List.filterMap_nil]
  cases w.caller.number? with
  | none => simp
  | some n =>
    rw [← List.append_assoc]
    exact List.perm_append_comm

/-- A request in hand waits, or its answer is due. -/
theorem await_outside (b : Build C) (n : Nat) (p : Path) (c : Caller C) :
    (b.await s n p c).numbers.Perm (b.hold c).numbers ∧ (b.await s n p c).loads = b.loads ∧
      ∀ k a, (b.hold c).Due k a → (b.await s n p c).Due k a := by
  have hheld : (b.hold c).numbers = c.number?.toList ++ b.numbers := by
    rw [hold, numbers_goOn, c.number?_held]
  have hdue : ∀ k a, (b.hold c).Due k a → b.Due k a := by  -- the request itself has no answer yet
    rintro k a ⟨rounds, hmem⟩
    rcases List.mem_cons.1 hmem with heq | hmem
    · cases c <;> cases heq
    · exact ⟨rounds, hmem⟩
  unfold Build.await
  rw [hheld]
  split
  · rename_i text _
    have hnumber := c.number?_resume (.ok text)
    split
    · refine ⟨?_, rfl, fun k a h => ?_⟩
      · rw [← hnumber]
        exact numbers_schedule b 1 _
      · obtain ⟨rounds, hmem⟩ := hdue k a h
        exact ⟨rounds, List.mem_append_left _ hmem⟩
    · refine ⟨?_, rfl, fun k a h => ?_⟩
      · rw [numbers_goOn, hnumber]
      · obtain ⟨rounds, hmem⟩ := hdue k a h
        exact ⟨rounds, List.mem_cons_of_mem _ hmem⟩
  · exact ⟨numbers_wait b ⟨n, p, c⟩, rfl, hdue⟩

/-! ### Deals -/

theorem numbered_ask (h : Numbered b) (url : Text) : Numbered (b.ask url) := by
  have hlt : ∀ n ∈ b.numbers, n < b.loads.length := fun n hn =>
    (List.getElem?_eq_some_iff.1 (h.unanswered n hn)).1
  have hperm := numbers_schedule { b with loads := b.loads ++ [none] } 0 (.load b.loads.length url)
  have hnumbers : ∀ n ∈ (b.ask url).numbers, n = b.loads.length ∨ n ∈ b.numbers := fun n hn =>
    List.mem_cons.1 (hperm.mem_iff.1 hn)
  refine ⟨hperm.nodup_iff.2 (List.nodup_cons.2 ⟨fun hmem => ?_, h.nodup⟩), fun n hn => ?_⟩
  · exact Nat.lt_irrefl _ (hlt _ hmem)
  · change (b.loads ++ [none])[n]? = some none
    rcases hnumbers n hn with rfl | hn
    · exact List.getElem?_concat_length
    · rw [List.getElem?_append_left (hlt n hn)]
      exact h.unanswered n hn

theorem numbered_settle (h : Numbered (b.goOn (.loaded n answer))) :
    Numbered { b with loads := b.loads.set n (some answer) } := by
  obtain ⟨hnodup, hunanswered⟩ := h
  rw [numbers_goOn] at hnodup hunanswered
  obtain ⟨hnew, hnodup⟩ := List.nodup_cons.1 hnodup
  refine ⟨hnodup, fun k hk => ?_⟩
  have hne : n ≠ k := fun heq => hnew (heq ▸ hk)
  change (b.loads.set n (some answer))[k]? = some none
  rw [List.getElem?_set_ne hne]
  exact hunanswered k (List.mem_cons_of_mem _ hk)

theorem Deal.numbered (h : Deal s b es b') (hb : Numbered b) : Numbered b' := by
  have hspares : ∀ {m}, Spares m b b' → Numbered b' := fun h => hb.of_subperm h.numbers h.loads
  cases h with
  | keep h => exact hspares h.spares
  | seek => exact hb
  | create => exact ⟨hb.nodup, hb.unanswered⟩
  | await h c =>
    obtain ⟨hnumbers, hloads, -⟩ := await_outside (s := s) _ _ _ c
    exact hb.of_subperm hnumbers.subperm hloads
  | release =>
    obtain ⟨hnumbers, hloads, -⟩ := release_outside (s := s) b _
    exact hb.of_subperm hnumbers.subperm hloads
  | register =>
    obtain ⟨hnumbers, hloads, -⟩ := register_outside (s := s) b _
    exact hb.of_subperm hnumbers.subperm hloads
  | fail _ h => exact hspares h.spares
  | succeed i h => exact hspares h
  | settle => exact numbered_settle hb
  | ask => exact numbered_ask hb _
  | abandon h => exact hspares h

theorem answered_ask (h : Answered b n answer) (url : Text) : Answered (b.ask url) n answer := by
  rcases h with h | ⟨rounds, hmem⟩
  · left
    change (b.loads ++ [none])[n]? = some (some answer)
    rw [List.getElem?_append_left (List.getElem?_eq_some_iff.1 h).1]
    exact h
  · exact .inr ⟨rounds, List.mem_append_left _ hmem⟩

/-- Giving an answer does not touch the other requests. -/
theorem answered_settle {k : Nat} {a : Except Fault Text} (hb : Numbered (b.goOn (.loaded k a)))
    (h : Answered (b.goOn (.loaded k a)) n answer) :
    Answered { b with loads := b.loads.set k (some a) } n answer := by
  have hk : b.loads[k]? = some none := hb.unanswered k (by
    rw [numbers_goOn]
    exact List.mem_cons_self)
  rcases h with h | ⟨rounds, hmem⟩
  · have hne : k ≠ n := fun heq => by
      rw [heq, show b.loads[n]? = some (some answer) from h] at hk
      cases hk
    left
    change (b.loads.set k (some a))[n]? = some (some answer)
    rw [List.getElem?_set_ne hne]
    exact h
  · rcases List.mem_cons.1 hmem with heq | hmem
    · obtain ⟨-, heq⟩ := Prod.mk.inj heq
      obtain ⟨rfl, rfl⟩ := Job.loaded.inj heq
      left
      exact List.getElem?_set_self (List.getElem?_eq_some_iff.1 hk).1
    · exact .inr ⟨rounds, hmem⟩

/-- An answer that is due stays due until it is given, and stays afterwards. -/
theorem Deal.answered (h : Deal s b es b') (hb : Numbered b) (ha : Answered b n answer)
    (hes : .abandon n ∉ es) : Answered b' n answer := by
  have hspares : ∀ {m}, Spares m b b' → m ≠ some n → Answered b' n answer := fun h hm =>
    ha.imp (h.loads ▸ ·) (h.kept n answer hm)
  have hkept : b'.loads = b.loads → (∀ n a, b.Due n a → b'.Due n a) → Answered b' n answer :=
    fun hloads hdue => ha.imp (hloads ▸ ·) (hdue n answer)
  cases h with
  | keep h => exact hspares h.spares nofun
  | seek => exact ha
  | create => exact ha
  | await h c =>
    obtain ⟨-, hloads, hdue⟩ := await_outside (s := s) _ _ _ c
    exact hkept hloads hdue
  | release => exact hkept (release_outside b _).2.1 (release_outside b _).2.2
  | register => exact hkept (register_outside b _).2.1 (register_outside b _).2.2
  | fail _ h => exact hspares h.spares nofun
  | succeed i h => exact hspares h nofun
  | settle => exact answered_settle hb ha
  | ask => exact answered_ask ha _
  | abandon h =>
    refine hspares h fun heq => hes ?_
    rw [Option.some.inj heq]
    exact List.mem_cons_self

/-! ### Runs -/

theorem Reports.numbered (h : Reports s b b') (hb : Numbered b) : Numbered b' :=
  hb.of_subperm h.fails.spares.numbers h.fails.spares.loads

theorem Runs.numbered (h : Runs s b₀ ds (b :: past)) (hb : Numbered b₀) : Numbered b :=
  h.preserve (P := fun _ b => Numbered b) (fun hb hdeal => hdeal.numbered hb) (fun hb h => h.numbered hb) hb

/-- Unless the request is cancelled, it gets the answer. -/
structure Secured (n : Nat) (answer : Except Fault Text) (ds : List Deed) (b : Build C) : Prop where
  numbered : Numbered b
  answered : .abandon n ∉ ds → b.Answered n answer

theorem Deal.secured (h : Deal s b es b') (hb : Secured n answer ds b) : Secured n answer (ds ++ es) b' := by
  refine ⟨h.numbered hb.numbered, fun hes => ?_⟩
  rw [List.mem_append, not_or] at hes
  exact h.answered hb.numbered (hb.answered hes.1) hes.2

/-- Whoever is about to get an answer gets it, unless he is cancelled. -/
theorem Runs.secured (h : Runs s b₀ ds (b :: past)) (hb : Secured n answer [] b₀) : Secured n answer ds b := by
  refine h.preserve (P := fun ds b => Secured n answer ds b) (fun hb hdeal => hdeal.secured hb) ?_ hb
  intro ds b b' hb h
  have hspares := h.fails.spares
  refine ⟨h.numbered hb.numbered, fun hds => (hb.answered hds).imp (hspares.loads ▸ ·) ?_⟩
  exact hspares.kept n answer nofun

end HtmlDeps.Build
