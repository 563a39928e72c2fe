import HtmlDeps.Build.Waitlist
import HtmlDeps.Proofs.Table

/-!
# What happens to a waitlist

A waitlist goes through acts of three kinds: a ticket is created for a key, a key is resolved, a key is
released (`Act`).  What an act answers and which keys are waited for afterwards depends on the current ticket
of its key only.  Resolving a key that nobody waits for is refused, and leaves the list as it was.

An act does the same in single steps, where what was done before a refusal stays done (`actInSteps_eq`).
-/

namespace HtmlDeps

/-! ### Single tickets -/

theorem Ticket.answer_ne_open (text : Text) (t : Ticket) : t.answer text ≠ .open := by
  cases t <;> exact nofun

theorem Ticket.answer_ne_cancelled {text : Text} {t : Ticket} (h : t ≠ .cancelled) :
    t.answer text ≠ .cancelled := by
  cases t with
  | «open» => exact nofun
  | answered contents => exact nofun
  | cancelled => exact absurd rfl h

theorem Ticket.answer_eq_answered_iff {text text' : Text} {t : Ticket} :
    t.answer text = .answered text' ↔ t = .answered text' ∨ t = .open ∧ text = text' := by
  cases t <;> simp [Ticket.answer]

namespace Waitlist

variable {κ : Type} {w : Waitlist κ} {k p q : κ} {n m : Nat} {text : Text}

theorem ticket?_lt {t : Ticket} (h : w.ticket? n = some t) : n < w.tickets.length :=
  (List.getElem?_eq_some_iff.1 h).1

theorem length_tickets_answer (w : Waitlist κ) (n : Nat) (text : Text) :
    (w.answer n text).tickets.length = w.tickets.length := List.length_modify ..

theorem ticket?_answer : (w.answer n text).ticket? m =
    if n = m then (w.ticket? m).map (Ticket.answer text) else w.ticket? m := by
  rw [ticket?, answer, List.getElem?_modify]
  split
  · rfl
  · exact Option.map_id_apply

/-- A ticket with an answer is not open any more. -/
theorem ticket?_answer_ne_open (h : w.ticket? m ≠ some .open) :
    (w.answer n text).ticket? m ≠ some .open := by
  rw [ticket?_answer]
  split
  · rw [Ne, Option.map_eq_some_iff]
    rintro ⟨t, -, ht⟩
    exact Ticket.answer_ne_open text t ht
  · exact h

theorem ticket?_answer_self_ne_open : (w.answer n text).ticket? n ≠ some .open := by
  rw [ticket?_answer, if_pos rfl, Ne, Option.map_eq_some_iff]
  rintro ⟨t, -, ht⟩
  exact Ticket.answer_ne_open text t ht

/-- Answering one ticket answers no other, and no ticket twice. -/
theorem ticket?_answer_eq_answered_iff {contents : Text} :
    (w.answer m contents).ticket? n = some (.answered text) ↔
      w.ticket? n = some (.answered text) ∨ w.ticket? n = some .open ∧ m = n ∧ contents = text := by
  rw [ticket?_answer]
  split
  · rename_i heq
    cases w.ticket? n with
    | none => simp
    | some t => simp [Ticket.answer_eq_answered_iff, heq]
  · rename_i hne
    simp [hne]

theorem ticket?_answer_eq_open_iff {contents : Text} :
    (w.answer m contents).ticket? n = some .open ↔ w.ticket? n = some .open ∧ m ≠ n := by
  rw [ticket?_answer]
  split
  · rename_i heq
    rw [Option.map_eq_some_iff]
    constructor
    · rintro ⟨t, -, ht⟩
      exact absurd ht (Ticket.answer_ne_open contents t)
    · rintro ⟨-, hne⟩
      exact absurd heq hne
  · rename_i hne
    exact (and_iff_left hne).symm

variable [DecidableEq κ]

theorem current?_create :
    (w.create p).1.current? q = if p = q then some w.tickets.length else w.current? q :=
  Table.get?_put _ _ _ _

theorem ticket?_create_of_lt (h : n < w.tickets.length) :
    (w.create p).1.ticket? n = w.ticket? n := List.getElem?_append_left h

theorem ticket?_create_self : (w.create p).1.ticket? w.tickets.length = some .open := by
  simp [create, ticket?]

theorem release_eq (h : w.current? p = some n) : w.release p = w.answer n [] := by
  simp only [release, h]

theorem has_iff : w.has k ↔ ∃ n, w.current? k = some n := Option.isSome_iff_exists

theorem has_eq_false_iff : w.has k = false ↔ w.current? k = none :=
  Option.isSome_eq_false_iff.trans Option.isNone_iff_eq_none

theorem mem_keys_iff_has : k ∈ w.keys ↔ w.has k := Table.mem_keys_iff w.entries k

/-! ### Acts -/

inductive Act (κ : Type) where
  | create (k : κ)
  | resolve (k : κ) (contents : Text)
  | release (k : κ)

/-- Why an act is broken off: nobody waits for the key, or a ticket is to be answered that was settled
before. -/
inductive Refusal (κ : Type) where
  | notAwaited (k : κ)
  | settled (ticket : Nat)

/-- The list after an act, and why the act was broken off, if it was. -/
def act (w : Waitlist κ) : Act κ → Waitlist κ × Option (Refusal κ)
  | .create k => ((w.create k).1, none)
  | .resolve k contents =>
    match w.resolve k contents with
    | .ok w' => (w', none)
    | .error e => (w, some (.notAwaited e.key))
  | .release k => (w.release k, none)

/-- Takes a key off the list and leaves its ticket alone. -/
def strike (w : Waitlist κ) (k : κ) : Waitlist κ := { w with entries := w.entries.erase k }

/-- Answers a ticket, which has to be open. -/
def settle (w : Waitlist κ) (n : Nat) (contents : Text) : Waitlist κ × Option (Refusal κ) :=
  if w.ticket? n = some .open then ({ w with tickets := w.tickets.set n (.answered contents) }, none)
  else (w, some (.settled n))

/-- Answers a ticket, unless a look at it shows that it is settled. -/
def settleIfOpen (w : Waitlist κ) (n : Nat) (contents : Text) : Waitlist κ × Option (Refusal κ) :=
  if w.ticket? n = some .open then w.settle n contents else (w, none)

/-- An act in single steps.  What was done before a refusal stays done: a key is struck off before
anybody knows whether it has a ticket. -/
def actInSteps (w : Waitlist κ) : Act κ → Waitlist κ × Option (Refusal κ)
  | .create k => ((w.create k).1, none)
  | .resolve k contents =>
    match w.current? k with
    | none => (w.strike k, some (.notAwaited k))
    | some n => (w.strike k).settleIfOpen n contents
  | .release k =>
    match w.current? k with
    | none => (w, none)
    | some n => w.settleIfOpen n []

/-- All that an act can do. -/
theorem act_cases (w : Waitlist κ) (a : Act κ) :
    (∃ k, a = .create k ∧ w.act a = ((w.create k).1, none)) ∨
    (∃ k contents n, a = .resolve k contents ∧ w.current? k = some n ∧
      w.act a = ((w.strike k).answer n contents, none)) ∨
    (∃ k contents, a = .resolve k contents ∧ w.current? k = none ∧
      w.act a = (w, some (.notAwaited k))) ∨
    (∃ k n, a = .release k ∧ w.current? k = some n ∧ w.act a = (w.answer n [], none)) ∨
    (∃ k, a = .release k ∧ w.current? k = none ∧ w.act a = (w, none)) := by
  cases a with
  | create k => exact .inl ⟨k, rfl, rfl⟩
  | resolve k contents =>
    cases h : w.current? k with
    | none => exact .inr (.inr (.inl ⟨k, contents, rfl, h, by simp only [act, resolve, h]⟩))
    | some n => exact .inr (.inl ⟨k, contents, n, rfl, h, by simp only [act, resolve, h, strike]⟩)
  | release k =>
    cases h : w.current? k with
    | none => exact .inr (.inr (.inr (.inr ⟨k, rfl, h, by simp only [act, release, h]⟩)))
    | some n => exact .inr (.inr (.inr (.inl ⟨k, n, rfl, h, by simp only [act, release, h]⟩)))

omit [DecidableEq κ] in
/-- An open ticket takes its answer, and one that is settled stays as it is. -/
theorem settleIfOpen_eq (w : Waitlist κ) (n : Nat) (contents : Text) :
    w.settleIfOpen n contents = (w.answer n contents, none) := by
  unfold settleIfOpen settle answer
  split  -- An open ticket is set; for any other, answering is the identity.
  · rename_i hopen
    have hmodify : w.tickets.modify n (Ticket.answer contents) = w.tickets.set n (.answered contents) := by
      apply List.ext_getElem?
      intro i
      rw [List.getElem?_modify, List.getElem?_set]
      by_cases hi : n = i
      · subst hi
        have hget : w.tickets[n]? = some .open := hopen
        rw [if_pos rfl, if_pos (ticket?_lt hopen), hget, Option.map_eq_map, Option.map_some, if_pos rfl]
        rfl
      · simp [hi]
    rw [hmodify]
  · rename_i hopen
    have hmodify : w.tickets.modify n (Ticket.answer contents) = w.tickets := by
      apply List.ext_getElem?
      intro i
      rw [List.getElem?_modify]
      split
      · rename_i hi
        cases ht : w.tickets[i]? with
        | none => rfl
        | some t =>
          cases t with
          | «open» => exact absurd (hi ▸ ht) hopen
          | answered _ => rfl
          | cancelled => rfl
      · exact Option.map_id_apply
    rw [hmodify]

/-- There is nothing to strike off for a key that nobody waits for. -/
theorem strike_eq_self (h : w.current? k = none) : w.strike k = w := by
  have hkeys : ∀ e ∈ w.entries, decide (e.1 ≠ k) := by
    intro e he
    have hmem : e.1 ∈ w.keys := List.mem_map.2 ⟨e, he, rfl⟩
    have hhas := mem_keys_iff_has.1 hmem
    rw [decide_eq_true_eq]
    rintro rfl
    rw [has_eq_false_iff.2 h] at hhas
    cases hhas
  unfold strike Table.erase
  rw [List.filter_eq_self.2 hkeys]

theorem actInSteps_eq (w : Waitlist κ) (a : Act κ) : w.actInSteps a = w.act a := by
  rcases act_cases w a with ⟨k, rfl, h⟩ | ⟨k, contents, n, rfl, hk, h⟩ | ⟨k, contents, rfl, hk, h⟩ |
    ⟨k, n, rfl, hk, h⟩ | ⟨k, rfl, hk, h⟩
  · rfl
  · rw [h]
    simp only [actInSteps, hk, settleIfOpen_eq]
  · rw [h]
    simp only [actInSteps, hk, strike_eq_self hk]
  · rw [h]
    simp only [actInSteps, hk, settleIfOpen_eq]
  · rw [h]
    simp only [actInSteps, hk]

/-! ### What an act does -/

/-- The act answers a ticket with a text, if it is open. -/
def Reaches (w : Waitlist κ) (a : Act κ) (n : Nat) (text : Text) : Prop :=
  ∃ k, w.current? k = some n ∧ (a = .release k ∧ text = [] ∨ a = .resolve k text)

/-- The act takes the key off the list. -/
def Removes (w : Waitlist κ) (a : Act κ) (k : κ) : Prop :=
  (∃ contents, a = .resolve k contents) ∧ (w.act a).2 = none

theorem current?_act_resolve (w : Waitlist κ) (k : κ) (contents : Text) (q : κ) :
    (w.act (.resolve k contents)).1.current? q = if k = q then none else w.current? q := by
  cases h : w.current? k with
  | none =>
    have hact : (w.act (.resolve k contents)).1 = w := by simp only [act, resolve, h]
    rw [hact]
    split
    · rename_i heq
      exact heq ▸ h
    · rfl
  | some n =>
    have hact : (w.act (.resolve k contents)).1 = (w.strike k).answer n contents := by
      simp only [act, resolve, h, strike]
    rw [hact]
    exact Table.get?_erase w.entries k q

theorem current?_act_release (w : Waitlist κ) (k q : κ) :
    (w.act (.release k)).1.current? q = w.current? q := by
  simp only [act, release]
  split <;> rfl

theorem removes_resolve_iff {contents : Text} :
    w.Removes (.resolve k contents) q ↔ k = q ∧ w.has k := by
  simp only [Removes, Act.resolve.injEq, exists_and_left, exists_eq', and_true]
  refine and_congr_right fun _ => ?_
  cases h : w.current? k with
  | none => simp [act, resolve, h, has_eq_false_iff.2 h]
  | some n => simp [act, resolve, h, has_iff.2 ⟨n, h⟩]

theorem not_removes_create : ¬ w.Removes (.create k) q := by
  rintro ⟨⟨_, h⟩, -⟩
  cases h

theorem not_removes_release : ¬ w.Removes (.release k) q := by
  rintro ⟨⟨_, h⟩, -⟩
  cases h

/-- The current ticket of a key is the new one, or the one it had, unless the key leaves the list. -/
theorem current?_act_eq_some_iff (w : Waitlist κ) (a : Act κ) (q : κ) (n : Nat) :
    (w.act a).1.current? q = some n ↔
      a = .create q ∧ n = w.tickets.length ∨
        w.current? q = some n ∧ a ≠ .create q ∧ ¬ w.Removes a q := by
  cases a with
  | create k =>
    change (w.create k).1.current? q = some n ↔ _
    rw [current?_create]
    split
    · rename_i heq
      simp [heq, eq_comm]
    · rename_i hne
      simp [hne, not_removes_create]
  | resolve k contents =>
    rw [removes_resolve_iff, current?_act_resolve]
    split
    · rename_i heq
      subst heq
      constructor
      · nofun
      · rintro (⟨h, -⟩ | ⟨hn, -, hremoves⟩)
        · cases h
        · exact absurd ⟨rfl, has_iff.2 ⟨n, hn⟩⟩ hremoves
    · rename_i hne
      simp [hne]
  | release k =>
    rw [current?_act_release]
    simp [not_removes_release]

/-- A key comes on the list by being created, and leaves it by being resolved. -/
theorem has_act (w : Waitlist κ) (a : Act κ) (q : κ) :
    (w.act a).1.has q ↔ a = .create q ∨ w.has q ∧ ¬ w.Removes a q := by
  rw [has_iff, has_iff]
  constructor
  · rintro ⟨n, hn⟩
    rcases (current?_act_eq_some_iff w a q n).1 hn with ⟨h, -⟩ | ⟨hold, -, hremoves⟩
    · exact .inl h
    · exact .inr ⟨⟨n, hold⟩, hremoves⟩
  · intro h
    by_cases hcreate : a = .create q
    · exact ⟨_, (current?_act_eq_some_iff w a q _).2 (.inl ⟨hcreate, rfl⟩)⟩
    · obtain ⟨⟨n, hn⟩, hremoves⟩ := h.resolve_left hcreate
      exact ⟨n, (current?_act_eq_some_iff w a q n).2 (.inr ⟨hn, hcreate, hremoves⟩)⟩

/-- An act is broken off only if it resolves a key that nobody waits for, and then it does nothing. -/
theorem act_refused_iff (w : Waitlist κ) (a : Act κ) (r : Refusal κ) :
    (w.act a).2 = some r ↔ ∃ k contents, a = .resolve k contents ∧ w.has k = false ∧ r = .notAwaited k := by
  rcases act_cases w a with ⟨k, rfl, h⟩ | ⟨k, contents, n, rfl, hk, h⟩ | ⟨k, contents, rfl, hk, h⟩ |
    ⟨k, n, rfl, hk, h⟩ | ⟨k, rfl, hk, h⟩
  · simp [h]
  · have hhas : w.has k = true := has_iff.2 ⟨n, hk⟩
    simp [h, hhas]
  · rw [h]
    constructor
    · intro hr
      exact ⟨k, contents, rfl, has_eq_false_iff.2 hk, (Option.some.inj hr).symm⟩
    · rintro ⟨q, _, heq, -, rfl⟩
      cases heq
      rfl
  · simp [h]
  · simp [h]

theorem act_of_refused {a : Act κ} {r : Refusal κ} (h : (w.act a).2 = some r) : (w.act a).1 = w := by
  obtain ⟨k, contents, rfl, hhas, -⟩ := (act_refused_iff w a r).1 h
  simp only [act, resolve, has_eq_false_iff.1 hhas]

/-- The tickets that stand on the list have been given out, each for one key. -/
structure Sound (w : Waitlist κ) : Prop where
  given : ∀ k n, w.current? k = some n → n < w.tickets.length
  apart : ∀ k k' n, w.current? k = some n → w.current? k' = some n → k = k'

theorem length_tickets_create (w : Waitlist κ) (k : κ) :
    (w.create k).1.tickets.length = w.tickets.length + 1 := by simp [create]

theorem lt_length_tickets_create (w : Waitlist κ) (k : κ) :
    w.tickets.length < (w.create k).1.tickets.length := by
  rw [length_tickets_create]
  exact Nat.lt_succ_self _

theorem Sound.create (h : Sound w) (k : κ) : Sound (w.create k).1 := by
  have hnew : ∀ q n, (w.create k).1.current? q = some n →
      k = q ∧ n = w.tickets.length ∨ k ≠ q ∧ w.current? q = some n := by
    intro q n hn
    rw [current?_create] at hn
    split at hn
    · rename_i heq
      exact .inl ⟨heq, (Option.some.inj hn).symm⟩
    · rename_i hne
      exact .inr ⟨hne, hn⟩
  constructor
  · intro q n hn
    rw [length_tickets_create]
    rcases hnew q n hn with ⟨-, rfl⟩ | ⟨-, hold⟩
    · exact Nat.lt_succ_self _
    · exact Nat.lt_succ_of_lt (h.given q n hold)
  · intro q q' n hn hn'
    rcases hnew q n hn with ⟨rfl, rfl⟩ | ⟨-, hold⟩ <;> rcases hnew q' _ hn' with ⟨rfl, heq⟩ | ⟨-, hold'⟩
    · rfl
    · exact absurd (h.given q' _ hold') (Nat.lt_irrefl _)
    · exact absurd (heq ▸ h.given q n hold) (Nat.lt_irrefl _)
    · exact h.apart q q' n hold hold'

/-- Fewer keys with the tickets they have. -/
theorem Sound.keep {w' : Waitlist κ} (h : Sound w) (hlength : w'.tickets.length = w.tickets.length)
    (hcurrent : ∀ k n, w'.current? k = some n → w.current? k = some n) : Sound w' where
  given k n hn := by
    rw [hlength]
    exact h.given k n (hcurrent k n hn)
  apart k k' n hn hn' := h.apart k k' n (hcurrent k n hn) (hcurrent k' n hn')

theorem length_tickets_act (w : Waitlist κ) (a : Act κ) :
    (w.act a).1.tickets.length = w.tickets.length ∨
      (∃ k, a = .create k) ∧ (w.act a).1.tickets.length = w.tickets.length + 1 := by
  rcases act_cases w a with ⟨k, rfl, h⟩ | ⟨k, contents, n, rfl, hk, h⟩ | ⟨k, contents, rfl, hk, h⟩ |
    ⟨k, n, rfl, hk, h⟩ | ⟨k, rfl, hk, h⟩ <;> rw [h]
  · exact .inr ⟨⟨k, rfl⟩, length_tickets_create w k⟩
  · exact .inl (length_tickets_answer (w.strike k) n contents)
  · exact .inl rfl
  · exact .inl (length_tickets_answer w n [])
  · exact .inl rfl

theorem Sound.act (h : Sound w) (a : Act κ) : Sound (w.act a).1 := by
  cases a with
  | create k => exact h.create k
  | resolve k contents =>
    refine h.keep ?_ fun q n hn => ?_
    · rcases length_tickets_act w (.resolve k contents) with hlength | ⟨⟨_, hcreate⟩, -⟩
      · exact hlength
      · cases hcreate
    · rw [current?_act_resolve] at hn
      split at hn
      · cases hn
      · exact hn
  | release k =>
    refine h.keep ?_ fun q n hn => ?_
    · rcases length_tickets_act w (.release k) with hlength | ⟨⟨_, hcreate⟩, -⟩
      · exact hlength
      · cases hcreate
    · rwa [current?_act_release] at hn

theorem reaches_resolve_iff {contents : Text} :
    w.Reaches (.resolve k contents) n text ↔ w.current? k = some n ∧ contents = text := by
  constructor
  · rintro ⟨q, hq, ⟨h, -⟩ | h⟩ <;> cases h
    exact ⟨hq, rfl⟩
  · rintro ⟨hk, rfl⟩
    exact ⟨k, hk, .inr rfl⟩

theorem reaches_release_iff : w.Reaches (.release k) n text ↔ w.current? k = some n ∧ text = [] := by
  constructor
  · rintro ⟨q, hq, ⟨h, rfl⟩ | h⟩ <;> cases h
    exact ⟨hq, rfl⟩
  · rintro ⟨hk, rfl⟩
    exact ⟨k, hk, .inl ⟨rfl, rfl⟩⟩

theorem not_reaches_create : ¬ w.Reaches (.create k) n text := by
  rintro ⟨q, -, ⟨h, -⟩ | h⟩ <;> cases h

/-- An act answers the open ticket that it reaches, and no other. -/
theorem ticket?_act_eq_answered_iff (w : Waitlist κ) (a : Act κ) (n : Nat) (text : Text) :
    (w.act a).1.ticket? n = some (.answered text) ↔
      w.ticket? n = some (.answered text) ∨ w.ticket? n = some .open ∧ w.Reaches a n text := by
  rcases act_cases w a with ⟨k, rfl, h⟩ | ⟨k, contents, m, rfl, hk, h⟩ | ⟨k, contents, rfl, hk, h⟩ |
    ⟨k, m, rfl, hk, h⟩ | ⟨k, rfl, hk, h⟩ <;> rw [h]
  · have hnot : ¬ (w.ticket? n = some .open ∧ w.Reaches (.create k) n text) := fun h => not_reaches_create h.2
    rw [or_iff_left hnot]
    constructor
    · intro hn
      rcases Nat.lt_or_ge n w.tickets.length with hlt | hge
      · rwa [ticket?_create_of_lt hlt] at hn
      · have hself : n = w.tickets.length := by
          have hlt := ticket?_lt hn
          rw [length_tickets_create] at hlt
          omega
        rw [hself, ticket?_create_self] at hn
        cases hn
    · intro hn
      rwa [ticket?_create_of_lt (ticket?_lt hn)]
  · rw [ticket?_answer_eq_answered_iff, reaches_resolve_iff, hk, Option.some.injEq]
    rfl
  · rw [reaches_resolve_iff, hk]
    simp
  · rw [ticket?_answer_eq_answered_iff, reaches_release_iff, hk, Option.some.injEq, eq_comm (a := text)]
  · rw [reaches_release_iff, hk]
    simp

/-- A ticket is open when it is given out, and as long as no act reaches it. -/
theorem ticket?_act_eq_open_iff (w : Waitlist κ) (a : Act κ) (n : Nat) :
    (w.act a).1.ticket? n = some .open ↔
      w.ticket? n = some .open ∧ (∀ text, ¬ w.Reaches a n text) ∨
        n = w.tickets.length ∧ ∃ k, a = .create k := by
  rcases act_cases w a with ⟨k, rfl, h⟩ | ⟨k, contents, m, rfl, hk, h⟩ | ⟨k, contents, rfl, hk, h⟩ |
    ⟨k, m, rfl, hk, h⟩ | ⟨k, rfl, hk, h⟩ <;> rw [h]
  · constructor
    · intro hn
      rcases Nat.lt_or_ge n w.tickets.length with hlt | hge
      · rw [ticket?_create_of_lt hlt] at hn
        exact .inl ⟨hn, fun _ => not_reaches_create⟩
      · have hlt := ticket?_lt hn
        rw [length_tickets_create] at hlt
        exact .inr ⟨by omega, k, rfl⟩
    · rintro (⟨hn, -⟩ | ⟨rfl, -⟩)
      · rwa [ticket?_create_of_lt (ticket?_lt hn)]
      · exact ticket?_create_self
  · rw [ticket?_answer_eq_open_iff]
    simp [reaches_resolve_iff, hk, strike, ticket?]
  · simp [reaches_resolve_iff, hk]
  · simp [ticket?_answer_eq_open_iff, reaches_release_iff, hk]
  · simp [reaches_release_iff, hk]

theorem keys_strike (w : Waitlist κ) (k : κ) : (w.strike k).keys = w.keys.filter (· ≠ k) :=
  Table.keys_erase w.entries k

/-- The keys keep their order, and a new one comes last. -/
theorem keys_act (w : Waitlist κ) (a : Act κ) :
    (w.act a).1.keys.Sublist w.keys ∨
      ∃ k, a = .create k ∧ w.has k = false ∧ (w.act a).1.keys = w.keys ++ [k] := by
  rcases act_cases w a with ⟨k, rfl, h⟩ | ⟨k, contents, m, rfl, hk, h⟩ | ⟨k, contents, rfl, hk, h⟩ |
    ⟨k, m, rfl, hk, h⟩ | ⟨k, rfl, hk, h⟩ <;> rw [h]
  · have hkeys := Table.keys_put w.entries k w.tickets.length
    split at hkeys
    · left
      change (Table.keys (Table.put _ _ _)).Sublist w.entries.keys
      simp only [hkeys, List.Sublist.refl]
    · rename_i hnot
      have hhas : w.has k = false := by
        rw [← Bool.not_eq_true, ← mem_keys_iff_has]
        exact hnot
      exact .inr ⟨k, rfl, hhas, hkeys⟩
  · left
    change (w.strike k).keys.Sublist w.keys
    rw [keys_strike]
    exact List.filter_sublist
  · exact .inl (.refl _)
  · exact .inl (.refl _)
  · exact .inl (.refl _)

end Waitlist
end HtmlDeps
