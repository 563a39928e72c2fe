import HtmlDeps.Proofs.Build.Pumping
import HtmlDeps.Proofs.Build.Ticketed

/-!
# Who answers those that wait

A request waits for the open ticket of a path.  The path is that of a file on its way to the build,
or of a source that may still arrive (`Covered`); only if its URL leads elsewhere is nobody there to
answer (`Project.Twisted`).  `Waked` says so of all tickets, but those of excused paths.
-/

namespace HtmlDeps

/-- The URL of a path leads to another path. -/
def Project.Twisted (pr : Project) (p : Path) : Prop := ∃ u, pr.url p = .ok u ∧ pr.path u ≠ p

namespace Build

variable {s : Setup} {b b' : Build importer} {excused excused' : Path → Prop} {p : Path} {u : Text}
  {n : Nat} {c : Caller importer}

/-- Somebody will answer for a path, if anybody can. -/
def Covered (s : Setup) (b : Build importer) (p : Path) : Prop :=
  b.Coming p ∨ (s.project.isSource p = .ok true ∧ b.exhausted = false) ∨ s.project.Twisted p

/-- Everybody who waits is waiting for a path that is covered or excused; and what was pushed is
registered or on its way, unless its URL leads to another path. -/
structure Waked (s : Setup) (b : Build importer) (excused : Path → Prop) : Prop extends
    Ticketed s b where
  covered : ∀ p n, b.waitlist.current? p = some n → b.waitlist.ticket? n = some .open →
    Covered s b p ∨ excused p
  pushed : ∀ u ∈ b.pushed, b.files.has u ∨
    (∃ p, s.project.Regular p ∧ b.Coming p ∧ s.project.url p = .ok u) ∨
      s.project.url (s.project.path u) ≠ .ok u

theorem Coming.keep (h : b.Coming p) (hqueue : b'.queue = b.queue) (hreads : b'.reads = b.reads)
    (hkept : ∀ y ∈ b.ready, y ∈ b'.ready) : b'.Coming p :=
  h.imp (fun hp => hqueue ▸ hp) fun hp => hp.keep hreads fun n hn => ⟨n, hkept _ hn⟩

theorem Waked.mono (h : Waked s b excused) (hexcused : ∀ q, excused q → excused' q) :
    Waked s b excused' :=
  ⟨h.toTicketed, fun p n hp hn => (h.covered p n hp hn).imp_right (hexcused p), h.pushed⟩

/-- Besides the tickets, only a part of the state matters. -/
theorem Waked.of_ticketed (h : Waked s b excused) (hticketed : Ticketed s b')
    (hwaitlist : b'.waitlist = b.waitlist) (hpushed : b'.pushed = b.pushed)
    (hfiles : ∀ u, b.files.has u → b'.files.has u) (hexhausted : b'.exhausted = b.exhausted)
    (hcoming : ∀ p, b.Coming p → b'.Coming p) : Waked s b' excused := by
  refine ⟨hticketed, fun p n hp hn => ?_, fun u hu => ?_⟩
  · rw [hwaitlist] at hp hn
    refine (h.covered p n hp hn).imp_left (Or.imp (hcoming p) (Or.imp_left ?_))
    rw [hexhausted]
    exact id
  · rw [hpushed] at hu
    exact (h.pushed u hu).imp (hfiles u) (Or.imp_left fun ⟨p, hp, hcomes, hurl⟩ =>
      ⟨p, hp, hcoming p hcomes, hurl⟩)

theorem Waked.keep (h : Waked s b excused) (hwaitlist : b'.waitlist = b.waitlist)
    (hwaiting : ∀ w ∈ b'.waiting, w ∈ b.waiting) (hpushed : b'.pushed = b.pushed)
    (hfiles : ∀ u, b.files.has u → b'.files.has u) (hexhausted : b'.exhausted = b.exhausted)
    (hcoming : ∀ p, b.Coming p → b'.Coming p) : Waked s b' excused :=
  h.of_ticketed (h.toTicketed.keep hwaitlist hwaiting) hwaitlist hpushed hfiles hexhausted hcoming

theorem Waked.note (h : Waked s b excused) (ctx : Log.Fields) (l : Log.Level) (m : Text) :
    Waked s (b.note ctx l m) excused :=
  h.keep rfl (fun _ hw => hw) rfl (fun _ hu => hu) rfl fun _ hp => hp

theorem Waked.goOn (h : Waked s b excused) (j : Job importer) : Waked s (b.goOn j) excused :=
  h.keep rfl (fun _ hw => hw) rfl (fun _ hu => hu) rfl fun _ hp =>
    hp.keep rfl rfl fun _ hy => List.mem_cons_of_mem _ hy

theorem Waked.schedule (h : Waked s b excused) (n : Nat) (j : Job importer) :
    Waked s (b.schedule n j) excused :=
  h.keep rfl (fun _ hw => hw) rfl (fun _ hu => hu) rfl fun _ hp =>
    hp.keep rfl rfl fun _ hy => List.mem_append_left _ hy

/-- A path that nobody waits for needs no excuse. -/
theorem Waked.of_current?_eq_none (h : Waked s b fun q => excused q ∨ q = p)
    (hp : b.waitlist.current? p = none) : Waked s b excused := by
  refine ⟨h.toTicketed, fun q n hq hn => ?_, h.pushed⟩
  rcases h.covered q n hq hn with hcovered | hexcused | rfl
  · exact .inl hcovered
  · exact .inr hexcused
  · rw [hp] at hq
    cases hq

/-! ### Answers -/

/-- With its answer, a ticket needs no excuse. -/
theorem Waked.answered (h : Waked s b fun q => excused q ∨ b.waitlist.current? q = some n)
    (text : Text) : Waked s (b.answered s b.waitlist n text) excused := by
  have hticket : ∀ m t, (b.waitlist.answer n text).ticket? m = some t → t = .open →
      n ≠ m ∧ b.waitlist.ticket? m = some t := by
    rintro m t hm rfl
    rw [Waitlist.ticket?_answer] at hm
    split at hm
    · obtain ⟨t, -, ht⟩ := Option.map_eq_some_iff.1 hm
      exact absurd ht (Ticket.answer_ne_open text t)
    · exact ⟨‹_›, hm⟩
  have hcoming : ∀ q, b.Coming q → (b.answered s b.waitlist n text).Coming q := fun q hq =>
    hq.keep rfl rfl fun y hy => List.mem_append_left _ hy
  refine ⟨h.toTicketed.answered n text, fun q m hq hm => ?_, fun v hv => ?_⟩
  · obtain ⟨hne, hopen⟩ := hticket m _ hm rfl
    rcases h.covered q m hq hopen with hcovered | hexcused | hself
    · exact .inl (hcovered.imp_left (hcoming q))
    · exact .inr hexcused
    · exact absurd (Option.some.inj (hself.symm.trans hq)) hne
  · exact (h.pushed v hv).imp_right (Or.imp_left fun ⟨q, hq, hcomes, hurl⟩ =>
      ⟨q, hq, hcoming q hcomes, hurl⟩)

theorem Waked.release (h : Waked s b fun q => excused q ∨ q = p) :
    Waked s (b.release s p) excused := by
  rcases release_cases s b p with ⟨hnone, heq⟩ | ⟨n, hn, heq⟩ <;> rw [heq]
  · exact h.of_current?_eq_none hnone
  · refine Waked.answered (h.mono fun q => Or.imp_right ?_) []
    rintro rfl
    exact hn

theorem Waked.releaseUnreachable (h : Waked s b fun q => excused q ∨ q = p) (ctx : Log.Fields) :
    Waked s (b.releaseUnreachable s ctx p) excused := (h.note _ _ _).release

/-- A file that has arrived is stored; those who wait for it are still to be answered. -/
theorem Waked.stored {f : File} (h : Waked s (b.goOn (.deliver f.path)) excused)
    (hurl : s.project.url f.path = .ok u) (log : List Log.Entry) :
    Waked s (b.stored u f log) fun q => excused q ∨ q = f.path := by
  have hcoming : ∀ q, (b.goOn (.deliver f.path)).Coming q →
      q = f.path ∨ (b.stored u f log).Coming q := by
    rintro q (hq | hq | ⟨n, hn⟩)
    · exact .inr (.inl hq)
    · exact .inr (.inr (.inl hq))
    · rcases List.mem_cons.1 hn with hn | hn
      · exact .inl (Job.deliver.inj (Prod.mk.inj hn).2)
      · exact .inr (.inr (.inr ⟨n, hn⟩))
  refine ⟨h.toTicketed.keep rfl fun _ hw => hw, fun q n hq hn => ?_, fun v hv => ?_⟩
  · rcases h.covered q n hq hn with (hcomes | hcovered) | hexcused
    · rcases hcoming q hcomes with hself | hcomes
      · exact .inr (.inr hself)
      · exact .inl (.inl hcomes)
    · exact .inl (.inr hcovered)
    · exact .inr (.inl hexcused)
  · rcases h.pushed v hv with hfile | ⟨q, hq, hcomes, hqurl⟩ | htwisted
    · exact .inl (Table.has_put_of_has f hfile)
    · rcases hcoming q hcomes with rfl | hcomes
      · obtain rfl := Except.ok.inj (hurl.symm.trans hqurl)
        exact .inl (Table.has_put_self _ _ _)
      · exact .inr (.inl ⟨q, hq, hcomes, hqurl⟩)
    · exact .inr (.inr htwisted)

theorem Waked.register {f : File} (h : Waked s (b.goOn (.deliver f.path)) excused)
    (hplain : f.path.Plain) (hregister : b.register s f = (b', none)) : Waked s b' excused := by
  have hticketed : Ticketed s b := h.toTicketed.keep rfl fun _ hw => hw
  replace hticketed := hticketed.register hregister
  obtain ⟨u, log, hurl, ⟨hcurrent, rfl⟩ | ⟨n, hcurrent, rfl⟩⟩ := register_stored hregister
  all_goals rw [hplain.normal_eq] at hurl hcurrent
  · exact (h.stored hurl log).of_current?_eq_none hcurrent
  · have hstored := h.stored hurl log
    have hanswered : Waked s ((b.stored u f log).answered s b.waitlist n f.text) excused := by
      refine Waked.answered (hstored.mono fun q => Or.imp_right ?_) f.text
      rintro rfl
      exact hcurrent
    refine ⟨hticketed, fun q m hq hm => hanswered.covered q m ?_ hm, hanswered.pushed⟩
    -- what is on the list without the path was on it before
    change Table.get? (b.waitlist.entries.erase f.path.normal) q = some m at hq
    rw [Table.get?_erase] at hq
    split at hq
    · cases hq
    · exact hq

/-! ### Requests -/

/-- A dependency has been put on the queue, and something was noted. -/
def queued (b : Build importer) (u : Text) (p : Path) (log : List Log.Entry) : Build importer :=
  Build.enqueue { b with pushed := b.pushed ++ [u], log := log } (some p)

theorem queued_eq (b : Build importer) (u : Text) (p : Path) (log : List Log.Entry) :
    (b.queued u p log).waitlist = b.waitlist ∧ (b.queued u p log).waiting = b.waiting ∧
      (b.queued u p log).pushed = b.pushed ++ [u] ∧ (b.queued u p log).files = b.files ∧
      (b.queued u p log).exhausted = b.exhausted ∧ (b.queued u p log).Coming p ∧
      ∀ q, b.Coming q → (b.queued u p log).Coming q := by
  have hcoming : ∀ b' : Build importer, b'.queue = b.queue ++ [some p] → b'.reads = b.reads →
      (∀ y ∈ b.ready, y ∈ b'.ready) → b'.Coming p ∧ ∀ q, b.Coming q → b'.Coming q := by
    intro b' hqueue hreads hkept
    refine ⟨.inl ?_, fun q hq => ?_⟩
    · rw [hqueue]
      exact List.mem_append_right _ List.mem_cons_self
    · refine hq.imp (fun hq => ?_) fun hq => hq.keep hreads fun n hn => ⟨n, hkept _ hn⟩
      rw [hqueue]
      exact List.mem_append_left _ hq
  unfold queued enqueue
  dsimp only
  split
  · exact ⟨rfl, rfl, rfl, rfl, rfl, hcoming _ rfl rfl fun y hy => List.mem_append_left _ hy⟩
  · exact ⟨rfl, rfl, rfl, rfl, rfl, hcoming _ rfl rfl fun y hy => hy⟩

theorem Waked.queued (h : Waked s b excused) (hp : s.project.Regular p)
    (hurl : s.project.url p = .ok u ∨ p = s.project.path u) (log : List Log.Entry) :
    Waked s (b.queued u p log) excused := by
  obtain ⟨hwaitlist, hwaiting, hpushed, hfiles, hexhausted, hself, hcoming⟩ := queued_eq b u p log
  refine ⟨h.toTicketed.keep hwaitlist fun w hw => hwaiting ▸ hw, fun q n hq hn => ?_, fun v hv => ?_⟩
  · rw [hwaitlist] at hq hn
    refine (h.covered q n hq hn).imp_left (Or.imp (hcoming q) (Or.imp_left ?_))
    rw [hexhausted]
    exact id
  · rw [hpushed] at hv
    rw [hfiles]
    rcases List.mem_append.1 hv with hv | hv
    · exact (h.pushed v hv).imp_right (Or.imp_left fun ⟨q, hq, hcomes, hqurl⟩ =>
        ⟨q, hq, hcoming q hcomes, hqurl⟩)
    · obtain rfl := List.mem_singleton.1 hv
      rcases hurl with hurl | rfl
      · exact .inr (.inl ⟨p, hp, hself, hurl⟩)
      · by_cases hurl : s.project.url (s.project.path v) = .ok v
        · exact .inr (.inl ⟨_, hp, hself, hurl⟩)
        · exact .inr (.inr hurl)

theorem enqueueUrl_eq (b : Build importer) (ctx : Log.Fields) (u : Text) (p : Path) :
    u ∈ b.pushed ∧ b.enqueueUrl ctx u p = b ∨ ∃ log, b.enqueueUrl ctx u p = b.queued u p log := by
  unfold Build.enqueueUrl
  split
  · rename_i hpushed
    exact .inl ⟨List.contains_iff_mem.1 hpushed, rfl⟩
  · exact .inr ⟨_, rfl⟩

theorem Waked.enqueueUrl (h : Waked s b excused) (ctx : Log.Fields) (hp : s.project.Regular p)
    (hurl : s.project.url p = .ok u ∨ p = s.project.path u) :
    Waked s (b.enqueueUrl ctx u p) excused := by
  rcases enqueueUrl_eq b ctx u p with ⟨-, heq⟩ | ⟨log, heq⟩
  · rw [heq]
    exact h
  · rw [heq]
    exact h.queued hp hurl log

/-- A path that is covered needs no excuse any more. -/
theorem Waked.cover (h : Waked s b fun q => excused q ∨ q = p) (hcovered : Covered s b p) :
    Waked s b excused := by
  refine ⟨h.toTicketed, fun q n hq hn => ?_, h.pushed⟩
  rcases h.covered q n hq hn with hq | hq | rfl
  · exact .inl hq
  · exact .inr hq
  · exact .inl hcovered

/-- A URL that has been pushed before comes, since the pushes go by the path. -/
theorem Waked.covered_of_pushed (hp : s.project.Rooted) (h : Waked s b excused)
    (hinside : s.project.Inside p) (hurl : s.project.url p = .ok u)
    (hfile : b.files.get? u = none) (hmem : u ∈ b.pushed) : Covered s b p := by
  rcases h.pushed u hmem with hfile' | ⟨q, hq, hcomes, hqurl⟩ | htwisted
  · rw [Table.has, hfile] at hfile'
    cases hfile'
  · obtain rfl := hq.eq_of_url_eq hp (hinside.regular hp) hqurl hurl
    exact .inl hcomes
  · refine .inr (.inr ⟨u, hurl, fun heq => htwisted ?_⟩)
    rw [heq]
    exact hurl

/-- A path that is asked for needs no excuse any more, unless a fault comes up. -/
theorem Waked.push (hp : s.project.Rooted) (h : Waked s b fun q => excused q ∨ q = p)
    (hrunning : b.status = .running) (hinside : s.project.Inside p)
    (hurl : s.project.url p = .ok u) (hfile : b.files.get? u = none) (ctx : Log.Fields)
    {fault : Option Fault} (hpush : b.push s ctx u = (b', fault)) :
    Waked s b' fun q => excused q ∨ q = p ∧ fault ≠ none := by
  have hslash := hinside.dropLeading_url hp hurl
  have hpushed := push_cases (s := s) b ctx u
  rw [hpush, hslash] at hpushed
  have hcover : Covered s b' p → Waked s b' (fun q => excused q ∨ q = p) →
      Waked s b' fun q => excused q ∨ q = p ∧ fault ≠ none := fun hcovered h =>
    (h.cover hcovered).mono fun q hq => .inl hq
  -- the path that is asked for goes by the URL decoded once more
  have htwisted : s.project.path u ≠ p → Covered s b' p := fun hne => .inr (.inr ⟨u, hurl, hne⟩)
  cases hpushed with
  | ended hstatus => exact absurd hrunning hstatus
  | known hknown =>
    refine hcover ?_ (h.note _ _ _)
    have hmem : u ∈ b.pushed := by
      refine hknown.resolve_left ?_
      rw [file?_eq b hslash, hfile]
      exact Bool.false_ne_true
    exact (h.note _ _ _).covered_of_pushed hp hinside hurl hfile hmem
  | unclear => exact h.mono fun q => Or.imp_right fun hq => ⟨hq, Option.some_ne_none _⟩
  | source hsource hexhausted =>
    refine hcover ?_ (h.note _ _ _)
    by_cases hpath : s.project.path u = p
    · exact .inr (.inl ⟨hpath ▸ hsource, hexhausted⟩)
    · exact htwisted hpath
  | unreachable text =>
    by_cases hpath : s.project.path u = p
    · rw [hpath]
      exact ((h.note _ _ _).releaseUnreachable ctx).mono fun q hq => .inl hq
    · refine hcover (htwisted hpath) (Waked.releaseUnreachable ?_ ctx)
      exact (h.note _ _ _).mono fun q hq => .inl hq
  | dependency hfresh =>
    refine hcover ?_ (h.enqueueUrl ctx (Project.regular_path hp u) (.inr rfl))
    by_cases hpath : s.project.path u = p
    · rcases enqueueUrl_eq b ctx u (s.project.path u) with ⟨hpushed, -⟩ | ⟨log, heq⟩
      · exact absurd hpushed hfresh
      · rw [heq, hpath]
        exact .inl (queued_eq b u p log).2.2.2.2.2.1
    · exact htwisted hpath

end Build
end HtmlDeps
