import Mathlib.Data.List.Induction
import HtmlDeps.Proofs.Build.Waitlist

/-!
# The life of a ticket

Acts follow each other on a waitlist, in any order and on any keys.  What the list is in the end can be
told from the acts alone (`kept_after`).  A key is waited for if it was created after it was resolved last;
the keys stand in the order in which the waiting for them began; and a ticket is answered by the first act
that reaches it while it is the current one of its key, and by no other.

This is `DeferredLoadTable` with `has`, `create`, `resolve`, `release` and `paths`.
-/

namespace HtmlDeps.Waitlist

variable {κ : Type} [DecidableEq κ] {w : Waitlist κ} {k : κ} {n : Nat} {text : Text}

/-- The list after acts, from the beginning. -/
def after (as : List (Act κ)) : Waitlist κ := as.foldl (fun w a => (w.act a).1) empty

/-- The list that act number `j` finds. -/
def before (as : List (Act κ)) (j : Nat) : Waitlist κ := after (as.take j)

/-- Act number `j` is as `P` says, seen from the list that it finds. -/
def Does (as : List (Act κ)) (j : Nat) (P : Waitlist κ → Act κ → Prop) : Prop :=
  ∃ a, as[j]? = some a ∧ P (before as j) a

/-- The waiting for `k` began with act number `i` and has not ended. -/
def Since (as : List (Act κ)) (i : Nat) (k : κ) : Prop :=
  Does as i (fun w a => a = .create k ∧ w.has k = false) ∧
    ∀ j, i < j → j ≤ as.length → (before as j).has k

variable {as : List (Act κ)} {a : Act κ} {i j : Nat} {P : Waitlist κ → Act κ → Prop}

theorem after_concat (as : List (Act κ)) (a : Act κ) : after (as ++ [a]) = ((after as).act a).1 := by
  simp [after]

theorem before_length (as : List (Act κ)) : before as as.length = after as := by
  rw [before, List.take_length]

theorem before_concat (h : j ≤ as.length) (a : Act κ) : before (as ++ [a]) j = before as j := by
  rw [before, List.take_append_of_le_length h, before]

theorem Does.lt (h : Does as j P) : j < as.length := by
  obtain ⟨a, ha, -⟩ := h
  exact (List.getElem?_eq_some_iff.1 ha).1

theorem eq_length_concat {α : Type} {xs : List α} {x : α} (h : xs.length < j)
    (hj : j ≤ (xs ++ [x]).length) : j = (xs ++ [x]).length := by
  rw [List.length_append, List.length_singleton] at hj ⊢
  omega

/-- Behind all the others there is only the act that was added. -/
theorem not_does_concat_of_lt (h : as.length < j) : ¬ Does (as ++ [a]) j P := by
  intro hdoes
  have hlt := hdoes.lt
  exact absurd (eq_length_concat h (Nat.le_of_lt hlt)) (Nat.ne_of_lt hlt)

/-- The last act is the one that was added. -/
theorem does_concat : Does (as ++ [a]) j P ↔ Does as j P ∨ j = as.length ∧ P (after as) a := by
  rcases Nat.lt_trichotomy j as.length with hlt | rfl | hgt
  · have hne : ¬ (j = as.length ∧ P (after as) a) := fun h => absurd h.1 (Nat.ne_of_lt hlt)
    rw [or_iff_left hne, Does, Does, before_concat (Nat.le_of_lt hlt), List.getElem?_append_left hlt]
  · have hnot : ¬ Does as as.length P := fun h => absurd h.lt (Nat.lt_irrefl _)
    rw [or_iff_right hnot, Does, before_concat (Nat.le_refl _), before_length]
    simp
  · constructor
    · intro h
      exact absurd h (not_does_concat_of_lt hgt)
    · rintro (h | ⟨rfl, -⟩)
      · exact absurd h.lt (Nat.not_lt.2 (Nat.le_of_lt hgt))
      · exact absurd hgt (Nat.lt_irrefl _)

theorem sound_after (as : List (Act κ)) : Sound (after as) := by
  induction as using List.reverseRecOn with
  | nil => exact ⟨nofun, nofun⟩
  | append_singleton as a ih =>
    rw [after_concat]
    exact ih.act a

/-- A key is waited for if it was created after it was resolved last. -/
theorem has_after_iff (as : List (Act κ)) (k : κ) :
    (after as).has k ↔ ∃ i, Does as i (fun _ a => a = .create k) ∧
      ∀ j, i < j → ¬ Does as j (fun w a => w.Removes a k) := by
  induction as using List.reverseRecOn with
  | nil =>
    constructor
    · nofun
    · rintro ⟨i, h, -⟩
      exact absurd h.lt (Nat.not_lt_zero i)
  | append_singleton as a ih =>
    rw [after_concat, has_act, ih]
    constructor
    · rintro (rfl | ⟨⟨i, hi, hlater⟩, hnow⟩)
      · exact ⟨as.length, does_concat.2 (.inr ⟨rfl, rfl⟩), fun j hj => not_does_concat_of_lt hj⟩
      · refine ⟨i, does_concat.2 (.inl hi), fun j hj h => ?_⟩
        rcases does_concat.1 h with h | ⟨-, h⟩
        · exact hlater j hj h
        · exact hnow h
    · rintro ⟨i, hi, hlater⟩
      rcases does_concat.1 hi with hi | ⟨-, rfl⟩
      · refine .inr ⟨⟨i, hi, fun j hj h => hlater j hj (does_concat.2 (.inl h))⟩, fun h => ?_⟩
        exact hlater as.length hi.lt (does_concat.2 (.inr ⟨rfl, h⟩))
      · exact .inl rfl

/-- The current ticket of a key is the one given out by its last creation, unless it was resolved
later. -/
theorem current?_after_eq_some_iff (as : List (Act κ)) (k : κ) (n : Nat) :
    (after as).current? k = some n ↔
      ∃ i, Does as i (fun w a => a = .create k ∧ (w.create k).2 = n) ∧
        ∀ j, i < j → ¬ Does as j (fun w a => a = .create k ∨ w.Removes a k) := by
  induction as using List.reverseRecOn with
  | nil =>
    constructor
    · nofun
    · rintro ⟨i, h, -⟩
      exact absurd h.lt (Nat.not_lt_zero i)
  | append_singleton as a ih =>
    rw [after_concat, current?_act_eq_some_iff, ih]
    constructor
    · rintro (⟨rfl, rfl⟩ | ⟨⟨i, hi, hlater⟩, hcreate, hremoves⟩)
      · exact ⟨as.length, does_concat.2 (.inr ⟨rfl, rfl, rfl⟩), fun j hj => not_does_concat_of_lt hj⟩
      · refine ⟨i, does_concat.2 (.inl hi), fun j hj h => ?_⟩
        rcases does_concat.1 h with h | ⟨-, h⟩
        · exact hlater j hj h
        · exact h.elim hcreate hremoves
    · rintro ⟨i, hi, hlater⟩
      rcases does_concat.1 hi with hi | ⟨-, rfl, rfl⟩
      · have hnow := fun h => hlater as.length hi.lt (does_concat.2 (.inr ⟨rfl, h⟩))
        refine .inr ⟨⟨i, hi, fun j hj h => hlater j hj (does_concat.2 (.inl h))⟩, ?_, ?_⟩
        · exact fun h => hnow (.inl h)
        · exact fun h => hnow (.inr h)
      · exact .inl ⟨rfl, rfl⟩

theorem length_tickets_mono (h : j ≤ as.length) :
    (before as j).tickets.length ≤ (after as).tickets.length := by
  induction as using List.reverseRecOn with
  | nil =>
    rw [Nat.le_zero.1 h]
    exact Nat.le_refl _
  | append_singleton as a ih =>
    rcases Nat.lt_or_ge as.length j with hlt | hle
    · have hj := eq_length_concat hlt h
      exact Nat.le_of_eq (by rw [hj, before_length])
    · rw [before_concat hle, after_concat]
      have hact := length_tickets_act (after as) a
      have hbefore := ih hle
      omega

theorem Does.given (h : Does as j (fun w a => w.Reaches a n text)) : n < (after as).tickets.length := by
  have hlength := length_tickets_mono (Nat.le_of_lt h.lt)
  obtain ⟨a, -, k, hk, -⟩ := h
  exact Nat.lt_of_lt_of_le ((sound_after _).given k n hk) hlength

/-- A ticket is open as long as no act has reached it. -/
theorem ticket?_after_eq_open_iff (as : List (Act κ)) (n : Nat) :
    (after as).ticket? n = some .open ↔
      n < (after as).tickets.length ∧ ∀ j text, ¬ Does as j (fun w a => w.Reaches a n text) := by
  -- By induction from the end: the last act is the one whose effect is known.
  induction as using List.reverseRecOn with
  | nil =>
    constructor
    · nofun
    · rintro ⟨hlt, -⟩
      exact absurd hlt (Nat.not_lt_zero n)
  | append_singleton as a ih =>
    rw [after_concat, ticket?_act_eq_open_iff, ih]
    constructor
    · rintro (⟨⟨hlt, hold⟩, hnow⟩ | ⟨rfl, k, rfl⟩)
      · have hact := length_tickets_act (after as) a
        refine ⟨by omega, fun j text h => ?_⟩
        rcases does_concat.1 h with h | ⟨-, h⟩
        · exact hold j text h
        · exact hnow text h
      · refine ⟨?_, fun j text h => ?_⟩
        · exact lt_length_tickets_create (after as) k
        · rcases does_concat.1 h with h | ⟨-, h⟩
          · exact absurd h.given (Nat.lt_irrefl _)
          · exact not_reaches_create h
    · rintro ⟨hlt, hnone⟩
      have hold : ∀ j text, ¬ Does as j (fun w a => w.Reaches a n text) := fun j text h =>
        hnone j text (does_concat.2 (.inl h))
      rcases Nat.lt_or_ge n (after as).tickets.length with hn | hn
      · exact .inl ⟨⟨hn, hold⟩, fun text h => hnone _ text (does_concat.2 (.inr ⟨rfl, h⟩))⟩
      · rcases length_tickets_act (after as) a with heq | ⟨hcreate, heq⟩
        · omega
        · exact .inr ⟨by omega, hcreate⟩

/-- A ticket has the answer of the first act that reached it. -/
theorem ticket?_after_eq_answered_iff (as : List (Act κ)) (n : Nat) (text : Text) :
    (after as).ticket? n = some (.answered text) ↔
      ∃ j, Does as j (fun w a => w.Reaches a n text) ∧
        ∀ i < j, ∀ text', ¬ Does as i (fun w a => w.Reaches a n text') := by
  induction as using List.reverseRecOn with
  | nil =>
    constructor
    · nofun
    · rintro ⟨j, h, -⟩
      exact absurd h.lt (Nat.not_lt_zero j)
  | append_singleton as a ih =>
    rw [after_concat, ticket?_act_eq_answered_iff, ih, ticket?_after_eq_open_iff]
    constructor
    · rintro (⟨j, hj, hfirst⟩ | ⟨⟨-, hnone⟩, hnow⟩)
      · refine ⟨j, does_concat.2 (.inl hj), fun i hi text' h => ?_⟩
        rcases does_concat.1 h with h | ⟨rfl, -⟩
        · exact hfirst i hi text' h
        · exact absurd (Nat.lt_trans hi hj.lt) (Nat.lt_irrefl _)
      · refine ⟨as.length, does_concat.2 (.inr ⟨rfl, hnow⟩), fun i hi text' h => ?_⟩
        rcases does_concat.1 h with h | ⟨rfl, -⟩
        · exact hnone i text' h
        · exact absurd hi (Nat.lt_irrefl _)
    · rintro ⟨j, hj, hfirst⟩
      have hold : ∀ i < j, ∀ text', ¬ Does as i (fun w a => w.Reaches a n text') := fun i hi text' h =>
        hfirst i hi text' (does_concat.2 (.inl h))
      rcases does_concat.1 hj with hj | ⟨rfl, hnow⟩
      -- The first act to reach the ticket came before the last one, or is the last one.
      · exact .inl ⟨j, hj, hold⟩
      · have hgiven : n < (after as).tickets.length := by
          obtain ⟨k, hk, -⟩ := hnow
          exact (sound_after as).given k n hk
        exact .inr ⟨⟨hgiven, fun i text' h => hold i h.lt text' h⟩, hnow⟩

theorem Does.numbered (h : Does as j (fun w a => ∃ k, a = .create k ∧ (w.create k).2 = n)) :
    n < (after as).tickets.length := by
  induction as using List.reverseRecOn with
  | nil => exact absurd h.lt (Nat.not_lt_zero j)
  | append_singleton as a ih =>
    rw [after_concat]
    rcases does_concat.1 h with h | ⟨-, k, rfl, rfl⟩
    · have hlt := ih h
      have hact := length_tickets_act (after as) a
      omega
    · exact lt_length_tickets_create (after as) k

/-- Each ticket was given out by one creation. -/
theorem existsUnique_creation (h : n < (after as).tickets.length) :
    ∃! i, Does as i (fun w a => ∃ k, a = .create k ∧ (w.create k).2 = n) := by
  induction as using List.reverseRecOn with
  | nil => exact absurd h (Nat.not_lt_zero n)
  | append_singleton as a ih =>
    rw [after_concat] at h
    rcases Nat.lt_or_ge n (after as).tickets.length with hlt | hge
    · obtain ⟨i, hi, hunique⟩ := ih hlt
      refine ⟨i, does_concat.2 (.inl hi), fun j hj => ?_⟩
      rcases does_concat.1 hj with hj | ⟨-, k, -, hn⟩
      · exact hunique j hj
      · exact absurd hlt (Nat.not_lt.2 (Nat.le_of_eq hn))
    · rcases length_tickets_act (after as) a with heq | ⟨⟨k, rfl⟩, heq⟩
      · omega
      · have hn : ((after as).create k).2 = n := by
          change (after as).tickets.length = n
          omega
        refine ⟨as.length, does_concat.2 (.inr ⟨rfl, k, rfl, hn⟩), fun j hj => ?_⟩
        rcases does_concat.1 hj with hj | ⟨heq, -⟩
        · exact absurd hj.numbered (Nat.not_lt.2 hge)
        · exact heq

/-- An answer is for ever. -/
theorem ticket?_after_of_before (h : (before as i).ticket? n = some (.answered text)) :
    (after as).ticket? n = some (.answered text) := by
  induction as using List.reverseRecOn with
  | nil => exact (List.take_nil (i := i)) ▸ h
  | append_singleton as a ih =>
    rcases Nat.lt_or_ge as.length i with hlt | hle
    · have hlength : (as ++ [a]).length ≤ i := by
        rw [List.length_append, List.length_singleton]
        exact hlt
      have hall : (as ++ [a]).take i = as ++ [a] := List.take_of_length_le hlength
      rwa [before, hall] at h
    · rw [before_concat hle] at h
      rw [after_concat, ticket?_act_eq_answered_iff]
      exact .inl (ih h)

/-! ### Tickets that nobody reaches -/

/-- The ticket was given out and is the current one of no key. -/
def Retired (w : Waitlist κ) (n : Nat) : Prop :=
  n < w.tickets.length ∧ ∀ k, w.current? k ≠ some n

theorem Retired.act (h : Retired w n) (a : Act κ) : Retired (w.act a).1 n := by
  refine ⟨?_, fun q hq => ?_⟩
  · have hact := length_tickets_act w a
    have hlt := h.1
    omega
  · cases a with
    | create k =>
      change (w.create k).1.current? q = some n at hq
      rw [current?_create] at hq
      split at hq
      · exact absurd (Option.some.inj hq ▸ h.1) (Nat.lt_irrefl _)
      · exact h.2 q hq
    | resolve k contents =>
      rw [current?_act_resolve] at hq
      split at hq
      · cases hq
      · exact h.2 q hq
    | release k =>
      rw [current?_act_release] at hq
      exact h.2 q hq

theorem Retired.ticket?_act (h : Retired w n) (a : Act κ) : (w.act a).1.ticket? n = w.ticket? n := by
  rcases act_cases w a with ⟨k, rfl, hact⟩ | ⟨k, contents, m, rfl, hk, hact⟩ |
    ⟨k, contents, rfl, hk, hact⟩ | ⟨k, m, rfl, hk, hact⟩ | ⟨k, rfl, hk, hact⟩ <;> rw [hact]
  · exact ticket?_create_of_lt h.1
  · have hne : m ≠ n := fun heq => h.2 k (heq ▸ hk)
    rw [ticket?_answer, if_neg hne]
    rfl
  · have hne : m ≠ n := fun heq => h.2 k (heq ▸ hk)
    rw [ticket?_answer, if_neg hne]

/-- Whoever gets a new ticket for a key leaves the old one behind. -/
theorem Sound.retired (h : Sound w) (hk : w.current? k = some n) : Retired (w.create k).1 n := by
  have hlt := h.given k n hk
  refine ⟨?_, fun q hq => ?_⟩
  · rw [length_tickets_create]
    omega
  · rw [current?_create] at hq
    split at hq
    · exact absurd (Option.some.inj hq ▸ hlt) (Nat.lt_irrefl _)
    · rename_i hne
      exact hne (h.apart k q n hk hq)

/-- A ticket that was replaced stays as it was. -/
theorem ticket?_of_replaced (h : Does as i (fun w a => a = .create k ∧ w.current? k = some n)) :
    Retired (after as) n ∧ (after as).ticket? n = (before as i).ticket? n := by
  induction as using List.reverseRecOn with
  | nil => exact absurd h.lt (Nat.not_lt_zero i)
  | append_singleton as a ih =>
    rw [after_concat]
    rcases does_concat.1 h with h | ⟨rfl, rfl, hk⟩
    · obtain ⟨hretired, hticket⟩ := ih h
      rw [before_concat (Nat.le_of_lt h.lt), hretired.ticket?_act]
      exact ⟨hretired.act a, hticket⟩
    · have hsound := sound_after as
      rw [before_concat (Nat.le_refl _), before_length]
      exact ⟨hsound.retired hk, ticket?_create_of_lt (hsound.given k n hk)⟩

/-! ### The order of the keys -/

theorem Since.concat (h : Since as i k) (hhas : ((after as).act a).1.has k) : Since (as ++ [a]) i k := by
  refine ⟨does_concat.2 (.inl h.1), fun j hij hj => ?_⟩
  rcases Nat.lt_or_ge as.length j with hlt | hle
  · rw [eq_length_concat hlt hj, before_length, after_concat]
    exact hhas
  · rw [before_concat hle]
    exact h.2 j hij hle

theorem since_new (h : (after as).has k = false) : Since (as ++ [.create k]) as.length k := by
  refine ⟨does_concat.2 (.inr ⟨rfl, rfl, h⟩), fun j hij hj => ?_⟩
  rw [eq_length_concat hij hj, before_length, after_concat, has_act]
  exact .inl rfl

/-- Each waiting began once. -/
theorem exists_since (h : (after as).has k) : ∃ i, Since as i k := by
  induction as using List.reverseRecOn with
  | nil => cases h
  | append_singleton as a ih =>
    rw [after_concat] at h
    cases hold : (after as).has k with
    | false =>
      rcases (has_act _ _ _).1 h with rfl | ⟨hhas, -⟩
      · exact ⟨_, since_new hold⟩
      · rw [hold] at hhas
        cases hhas
    | true =>
      obtain ⟨i, hi⟩ := ih hold
      exact ⟨i, hi.concat h⟩

theorem pairwise_keys (as : List (Act κ)) :
    (after as).keys.Pairwise fun k k' => ∃ i j, i < j ∧ Since as i k ∧ Since as j k' := by
  induction as using List.reverseRecOn with
  | nil => exact .nil
  | append_singleton as a ih =>
    -- keys that stay keep their places
    have hstay : ∀ ks : List κ, ks.Sublist (after as).keys → (∀ k ∈ ks, ((after as).act a).1.has k) →
        ks.Pairwise fun k k' => ∃ i j, i < j ∧ Since (as ++ [a]) i k ∧ Since (as ++ [a]) j k' := by
      intro ks hks hhas
      refine (ih.sublist hks).imp_of_mem fun hk hk' ⟨i, j, hij, hi, hj⟩ => ?_
      exact ⟨i, j, hij, hi.concat (hhas _ hk), hj.concat (hhas _ hk')⟩
    rw [after_concat]
    rcases keys_act (after as) a with hsub | ⟨k, rfl, hnew, hkeys⟩
    · exact hstay _ hsub fun k hk => mem_keys_iff_has.1 hk
    · have hhas : ∀ q ∈ (after as).keys, ((after as).act (.create k)).1.has q := fun q hq =>
        mem_keys_iff_has.1 (hkeys ▸ List.mem_append_left _ hq)
      rw [hkeys, List.pairwise_append]
      refine ⟨hstay _ (.refl _) hhas, List.pairwise_singleton _ k, fun q hq k' hk' => ?_⟩
      obtain ⟨i, hi⟩ := exists_since (mem_keys_iff_has.1 hq)
      rw [List.mem_singleton.1 hk']
      exact ⟨i, as.length, hi.1.lt, hi.concat (hhas q hq), since_new hnew⟩

/-! ### What the acts tell -/

structure Kept (as : List (Act κ)) : Prop where
  -- A key is waited for if it was created after it was resolved last.
  has : ∀ k, (after as).has k ↔ ∃ i, Does as i (fun _ a => a = .create k) ∧
    ∀ j, i < j → ¬ Does as j (fun w a => w.Removes a k)
  -- Only resolving a key that nobody waits for is broken off, and then it changes nothing.
  refused : ∀ a r, ((after as).act a).2 = some r ↔
    ∃ k contents, a = .resolve k contents ∧ (after as).has k = false ∧ r = .notAwaited k
  unchanged : ∀ a r, ((after as).act a).2 = some r → ((after as).act a).1 = after as
  -- The same comes of single steps, in which a second answer to a ticket would be refused.
  inSteps : ∀ a, (after as).actInSteps a = (after as).act a
  -- The current ticket of a key is that of its last creation, if it was not resolved later.
  current : ∀ k n, (after as).current? k = some n ↔
    ∃ i, Does as i (fun w a => a = .create k ∧ (w.create k).2 = n) ∧
      ∀ j, i < j → ¬ Does as j (fun w a => a = .create k ∨ w.Removes a k)
  -- A ticket that was given out is open as long as no act has reached it.
  opened : ∀ n, (after as).ticket? n = some .open ↔
    (∃! i, Does as i (fun w a => ∃ k, a = .create k ∧ (w.create k).2 = n)) ∧
      ∀ j text, ¬ Does as j (fun w a => w.Reaches a n text)
  -- After that it has the answer of the first act that reached it, for ever.
  answered : ∀ n text, (after as).ticket? n = some (.answered text) ↔
    ∃ j, Does as j (fun w a => w.Reaches a n text) ∧
      ∀ i < j, ∀ text', ¬ Does as i (fun w a => w.Reaches a n text')
  forever : ∀ i n text, (before as i).ticket? n = some (.answered text) →
    (after as).ticket? n = some (.answered text)
  -- A ticket that is replaced stays as it is then.
  replaced : ∀ i k n, Does as i (fun w a => a = .create k ∧ w.current? k = some n) →
    (after as).ticket? n = (before as i).ticket? n
  -- The keys that are waited for stand in the order in which the waiting began.
  listed : ∀ k, k ∈ (after as).keys ↔ (after as).has k
  ordered : (after as).keys.Pairwise fun k k' => ∃ i j, i < j ∧ Since as i k ∧ Since as j k'

/-- **The life of a ticket.**  After any sequence of acts, the keys that are waited for, their order and
the state of every ticket are told by the acts. -/
theorem kept_after (as : List (Act κ)) : Kept as where
  has := has_after_iff as
  refused := act_refused_iff (after as)
  unchanged _ _ h := act_of_refused h
  inSteps := actInSteps_eq (after as)
  current := current?_after_eq_some_iff as
  opened n := by
    rw [ticket?_after_eq_open_iff]
    refine and_congr_left fun _ => ⟨existsUnique_creation, ?_⟩
    rintro ⟨i, hi, -⟩
    exact hi.numbered
  answered := ticket?_after_eq_answered_iff as
  forever _ _ _ h := ticket?_after_of_before h
  replaced _ _ _ h := (ticket?_of_replaced h).2
  listed _ := mem_keys_iff_has
  ordered := pairwise_keys as

end HtmlDeps.Waitlist
