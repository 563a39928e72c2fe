import HtmlDeps.Proofs.Build.Replies
import HtmlDeps.Proofs.Build.Waitlist
import HtmlDeps.Proofs.Path.Project

/-!
# Tickets

Every path that is waited for has a ticket of its own, and those who wait hold the open ticket of
their path (`Ticketed`).  Requests keep this so, whatever they do, and so does the registration of a
file, which takes its path off the list.
-/

namespace HtmlDeps

namespace Build

variable {C : Crawler} {s : Setup} {b b' : Build C} {p : Path} {n : Nat} {u : Text}
  {rs : List (Reply C)}

structure Ticketed (s : Setup) (b : Build C) : Prop where
  inside : ∀ p n, b.waitlist.current? p = some n → s.project.Inside p
  ticket : ∀ p n, b.waitlist.current? p = some n →
    ∃ t, b.waitlist.ticket? n = some t ∧ t ≠ .cancelled
  apart : ∀ p q n, b.waitlist.current? p = some n → b.waitlist.current? q = some n → p = q
  waiting : ∀ w ∈ b.waiting, b.waitlist.current? w.path = some w.ticket ∧
    b.waitlist.ticket? w.ticket = some .open

/-- Only the tickets and those who wait matter. -/
theorem Ticketed.keep (h : Ticketed s b) (hwaitlist : b'.waitlist = b.waitlist)
    (hwaiting : ∀ w ∈ b'.waiting, w ∈ b.waiting) : Ticketed s b' := by
  refine ⟨?_, ?_, ?_, fun w hw => ?_⟩
  · rw [hwaitlist]
    exact h.inside
  · rw [hwaitlist]
    exact h.ticket
  · rw [hwaitlist]
    exact h.apart
  · rw [hwaitlist]
    exact h.waiting w (hwaiting w hw)

theorem ticketed_initial (s : Setup) : Ticketed s (initial C s.project) :=
  ⟨nofun, nofun, nofun, nofun⟩

/-! ### Answers -/

/-- A ticket of a waitlist has got its answer, and those who wait for it go on. -/
def answered (s : Setup) (b : Build C) (l : Waitlist Path) (n : Nat) (text : Text) : Build C :=
  Build.wake s { b with waitlist := l.answer n text } n text

theorem mem_waiting_answered {l : Waitlist Path} {text : Text} {w : Waiter C} :
    w ∈ (b.answered s l n text).waiting ↔ w ∈ b.waiting ∧ w.ticket ≠ n := by
  simp [answered, wake, List.partition_eq_filter_filter]

theorem Ticketed.answered (h : Ticketed s b) (n : Nat) (text : Text) :
    Ticketed s (b.answered s b.waitlist n text) := by
  refine ⟨h.inside, fun q m hq => ?_, h.apart, fun w hw => ?_⟩
  · obtain ⟨t, ht, hcancelled⟩ := h.ticket q m hq
    change ∃ t, (b.waitlist.answer n text).ticket? m = some t ∧ t ≠ .cancelled
    rw [Waitlist.ticket?_answer]
    split
    · rw [ht]
      exact ⟨_, rfl, Ticket.answer_ne_cancelled hcancelled⟩
    · exact ⟨t, ht, hcancelled⟩
  · obtain ⟨hw, hne⟩ := mem_waiting_answered.1 hw
    obtain ⟨hcurrent, hopen⟩ := h.waiting w hw
    refine ⟨hcurrent, ?_⟩
    change (b.waitlist.answer n text).ticket? w.ticket = some .open
    rw [Waitlist.ticket?_answer, if_neg (Ne.symm hne)]
    exact hopen

/-- A release is an answer to the current ticket, if there is one. -/
theorem release_cases (s : Setup) (b : Build C) (p : Path) :
    (b.waitlist.current? p = none ∧ b.release s p = b) ∨
      ∃ n, b.waitlist.current? p = some n ∧ b.release s p = b.answered s b.waitlist n [] := by
  unfold release
  split
  · rename_i hnone
    exact .inl ⟨hnone, rfl⟩
  · rename_i n hn
    rw [Waitlist.release_eq hn]
    exact .inr ⟨n, hn, rfl⟩

theorem Ticketed.release (h : Ticketed s b) (p : Path) : Ticketed s (b.release s p) := by
  rcases release_cases s b p with ⟨-, heq⟩ | ⟨n, -, heq⟩ <;> rw [heq]
  · exact h
  · exact h.answered n []

/-- A path that nobody waits for is taken off the list. -/
theorem Ticketed.erase (h : Ticketed s b) (hp : ∀ w ∈ b.waiting, w.path ≠ p) :
    Ticketed s { b with waitlist := ⟨b.waitlist.entries.erase p, b.waitlist.tickets⟩ } := by
  have hcurrent : ∀ q m, Table.get? (b.waitlist.entries.erase p) q = some m →
      b.waitlist.current? q = some m := by
    intro q m hq
    rw [Table.get?_erase] at hq
    split at hq
    · cases hq
    · exact hq
  refine ⟨fun q m hq => h.inside q m (hcurrent q m hq), fun q m hq => h.ticket q m (hcurrent q m hq),
    fun q r m hq hr => h.apart q r m (hcurrent q m hq) (hcurrent r m hr), fun w hw => ?_⟩
  obtain ⟨hticket, hopen⟩ := h.waiting w hw
  refine ⟨?_, hopen⟩
  change Table.get? (b.waitlist.entries.erase p) w.path = some w.ticket
  rw [Table.get?_erase, if_neg (Ne.symm (hp w hw))]
  exact hticket

/-! ### Requests -/

theorem Ticketed.create (h : Ticketed s b) (hinside : s.project.Inside p)
    (hp : b.waitlist.current? p = none) :
    Ticketed s { b with waitlist := (b.waitlist.create p).1 } := by
  have hlt : ∀ q m, b.waitlist.current? q = some m → m < b.waitlist.tickets.length := by
    intro q m hq
    obtain ⟨t, ht, -⟩ := h.ticket q m hq
    exact (List.getElem?_eq_some_iff.1 ht).1
  -- Tickets are numbered as they come, so a new one differs from all in use.
  have hold : ∀ q m, (b.waitlist.create p).1.current? q = some m →
      q = p ∧ m = b.waitlist.tickets.length ∨ b.waitlist.current? q = some m := by
    intro q m hq
    rw [Waitlist.current?_create] at hq
    split at hq
    · exact .inl ⟨(‹p = q› :).symm, (Option.some.inj hq).symm⟩
    · exact .inr hq
  refine ⟨fun q m hq => ?_, fun q m hq => ?_, fun q r m hq hr => ?_, fun w hw => ?_⟩
  · rcases hold q m hq with ⟨rfl, -⟩ | hq
    · exact hinside
    · exact h.inside q m hq
  · rcases hold q m hq with ⟨rfl, rfl⟩ | hq
    · exact ⟨.open, Waitlist.ticket?_create_self, Ticket.noConfusion⟩
    · obtain ⟨t, ht, hcancelled⟩ := h.ticket q m hq
      exact ⟨t, (Waitlist.ticket?_create_of_lt (hlt q m hq)).trans ht, hcancelled⟩
  · rcases hold q m hq with ⟨rfl, hm⟩ | hq
    · rcases hold r m hr with ⟨rfl, -⟩ | hr
      · rfl
      · exact absurd hm (Nat.ne_of_lt (hlt r m hr))
    · rcases hold r m hr with ⟨-, hm⟩ | hr
      · exact absurd hm (Nat.ne_of_lt (hlt q m hq))
      · exact h.apart q r m hq hr
  · obtain ⟨hcurrent, hopen⟩ := h.waiting w hw
    have hne : p ≠ w.path := by
      rintro rfl
      rw [hp] at hcurrent
      cases hcurrent
    refine ⟨?_, (Waitlist.ticket?_create_of_lt (hlt _ _ hcurrent)).trans hopen⟩
    change (b.waitlist.create p).1.current? w.path = some w.ticket
    rw [Waitlist.current?_create, if_neg hne]
    exact hcurrent

theorem Ticketed.wait (h : Ticketed s b) (hn : b.waitlist.current? p = some n)
    (hanswered : ∀ t, b.waitlist.ticket? n ≠ some (.answered t)) (c : Caller C) :
    Ticketed s { b with waiting := b.waiting ++ [⟨n, p, c⟩] } := by
  have hopen : b.waitlist.ticket? n = some .open := by
    obtain ⟨t, ht, hcancelled⟩ := h.ticket p n hn
    cases t with
    | «open» => exact ht
    | answered text => exact absurd ht (hanswered text)
    | cancelled => exact absurd rfl hcancelled
  refine ⟨h.inside, h.ticket, h.apart, fun w hw => ?_⟩
  rcases List.mem_append.1 hw with hw | hw
  · exact h.waiting w hw
  · obtain rfl := List.mem_singleton.1 hw
    exact ⟨hn, hopen⟩

theorem Ticketed.await (h : Ticketed s b) (hn : b.waitlist.current? p = some n) (c : Caller C) :
    Ticketed s (b.await s n p c) := by
  unfold Build.await
  split
  · split
    · exact h.keep rfl fun _ hw => hw
    · exact h.keep rfl fun _ hw => hw
  · rename_i hanswered
    exact h.wait hn hanswered c

theorem waiting_enqueueUrl (b : Build C) (ctx : Log.Fields) (u : Text) (p : Path) :
    (b.enqueueUrl ctx u p).waiting = b.waiting := by
  unfold enqueueUrl
  split
  · rfl
  · unfold enqueue
    dsimp only
    split <;> rfl

theorem Shift.ticketed (h : Shift s b b' rs) (hb : Ticketed s b) :
    Ticketed s b' := by
  cases h with
  | note | fault | external | found => exact hb.keep rfl fun _ hw => hw
  | create h hurl => exact hb.create (s.project.inside_path _) h
  | enqueue ctx u p =>
    exact hb.keep (waitlist_enqueueUrl b ctx u p) fun w hw => waiting_enqueueUrl b ctx u p ▸ hw
  | await h c => exact hb.await h c
  | release p => exact hb.release p

theorem Requests.ticketed (h : Requests s b b' rs) (hb : Ticketed s b) :
    Ticketed s b' := by
  induction h with
  | refl => exact hb
  | step _ hshift ih => exact hshift.ticketed ih

/-! ### Files -/

/-- Without a slash in front, a URL is looked up as it is. -/
theorem file?_eq (b : Build C) {u : Text} (h : u.dropLeading (.char '/') = u) :
    b.file? u = b.files.get? u := by
  unfold file?
  split
  · rename_i r
    have hle := (List.dropWhile_suffix (l := r) (· == Glyph.char '/')).length_le
    have hlength := congrArg List.length h
    simp only [Text.dropLeading, List.dropWhile_cons, beq_self_eq_true, if_true,
      List.length_cons] at hlength
    omega
  · rfl

/-- A file has been stored, and something was noted. -/
def stored (b : Build C) (u : Text) (f : File) (log : List Log.Entry) : Build C :=
  { b with files := b.files.put u f, log := log }

/-- A file is stored, and those who wait for it get its text. -/
theorem register_stored {f : File} (h : b.register s f = (b', none)) :
    ∃ u log, s.project.url f.path.normal = .ok u ∧
      (b.waitlist.current? f.path.normal = none ∧ b' = b.stored u f log ∨
        ∃ n, b.waitlist.current? f.path.normal = some n ∧ b' = (b.stored u f log).answered s
          ⟨b.waitlist.entries.erase f.path.normal, b.waitlist.tickets⟩ n f.text) := by
  unfold Build.register at h
  dsimp only at h
  split at h
  · cases h
  · rename_i u hurl
    refine ⟨u, (b.note s.context .debug ("register_file: " ++ f.path.normal.toText)).log, hurl, ?_⟩
    split at h
    · rename_i n w hn hw
      have hcurrent : b.waitlist.current? f.path.normal = some n := hn
      have hresolve : b.waitlist.resolve f.path.normal f.text = .ok w := hw
      simp only [Waitlist.resolve, hcurrent] at hresolve
      obtain rfl := Except.ok.inj hresolve
      exact .inr ⟨n, hcurrent, (Prod.mk.inj h).1.symm⟩
    · rename_i hnone
      refine .inl ⟨?_, (Prod.mk.inj h).1.symm⟩
      cases hcurrent : b.waitlist.current? f.path.normal with
      | none => rfl
      | some n =>
        have hresolve : b.waitlist.resolve f.path.normal f.text = .ok (Waitlist.answer
            ⟨b.waitlist.entries.erase f.path.normal, b.waitlist.tickets⟩ n f.text) := by
          simp only [Waitlist.resolve, hcurrent]
        exact absurd hresolve (hnone n _ hcurrent)

theorem Ticketed.register {f : File} (h : Ticketed s b) (hregister : b.register s f = (b', none)) :
    Ticketed s b' := by
  obtain ⟨u, log, -, ⟨-, rfl⟩ | ⟨n, hcurrent, rfl⟩⟩ := register_stored hregister
  · exact h.keep rfl fun _ hw => hw
  · have hstored : Ticketed s (b.stored u f log) := h.keep rfl fun _ hw => hw
    -- whoever waits for the path holds its ticket, and has just been answered
    refine (hstored.answered n f.text).erase (p := f.path.normal) fun w hw hpath => ?_
    obtain ⟨hw, hne⟩ := mem_waiting_answered.1 hw
    have hticket := (h.waiting w hw).1
    rw [hpath, hcurrent] at hticket
    exact hne (Option.some.inj hticket).symm

end Build
end HtmlDeps
