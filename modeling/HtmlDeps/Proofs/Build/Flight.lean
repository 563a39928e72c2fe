import HtmlDeps.Proofs.Build.Ticketed
import HtmlDeps.Proofs.Crawl.Turn
import HtmlDeps.Proofs.Path.Project
import HtmlDeps.Proofs.Table

/-!
# What is under way in an analysis

The threads of a crawl are spread over the jobs and the requests of a build.  `Build.flight` collects
them, each request as the thread that an empty text would let go on.  An answer only moves a thread
from the requests to the jobs (`still_wake`); a thread that asks for a URL comes back with an answer,
at once or later, and with a text only if the file was sought (`asks_load`).
-/

namespace HtmlDeps

/-- The crawler of a build on disk. -/
abbrev importer : Crawler := Crawler.imports fun _ => true

/-- The thread with which a caller would go on in an analysis. -/
def Caller.errand? (a : Nat) : Caller importer → Option Imports.Thread
  | .thread b next => if b = a then some (Imports.Thread.emptied (next (.ok []))) else none
  | .client _ => none

/-- The thread that a job lets go on in an analysis; to begin it is to scan its first document. -/
def Job.errand? (a : Nat) : Job importer → Option Imports.Thread
  | .begin b => if b = a then some (.scan 0) else none
  | .turn b t => if b = a then some (Imports.Thread.emptied t) else none
  | .expire w => w.caller.errand? a
  | _ => none

theorem Job.errand?_begin (a : Nat) : (Job.begin a : Job importer).errand? a = some (.scan 0) :=
  if_pos rfl

theorem Job.errand?_begin_of_ne {a k : Nat} (h : k ≠ a) :
    (Job.begin k : Job importer).errand? a = none := if_neg h

theorem Job.errand?_turn (a : Nat) (t : Imports.Thread) :
    (Job.turn a t : Job importer).errand? a = some t.emptied := if_pos rfl

theorem Job.errand?_turn_of_ne {a k : Nat} (h : k ≠ a) (t : Imports.Thread) :
    (Job.turn k t : Job importer).errand? a = none := if_neg h

/-- A thread of an analysis that waits for an answer. -/
def Caller.Steady : Caller importer → Prop
  | .thread _ next => Imports.Steady next
  | .client _ => False

theorem Caller.Steady.errand?_resume {c : Caller importer} (h : c.Steady) (text : Text) (a : Nat) :
    (c.resume (.ok text)).errand? a = c.errand? a := by
  cases c with
  | thread b next =>
    simp only [Caller.resume, Job.errand?, Caller.errand?]
    rw [Imports.Steady.text h text]
  | client n => exact h.elim

namespace Build

variable {s : Setup} {b b' : Build importer}

/-- The threads under way in an analysis. -/
def flight (b : Build importer) (a : Nat) : List Imports.Thread :=
  b.ready.filterMap (fun x => x.2.errand? a) ++ b.waiting.filterMap fun w => w.caller.errand? a

/-- A URL is that of a file that is registered or waited for. -/
def Sought (s : Setup) (b : Build importer) (u : Text) : Prop :=
  ∃ v w, Url.parse u = .ok v ∧ s.project.url (s.project.path v.path) = .ok w ∧
    (b.files.has w ∨ b.waitlist.has (s.project.path v.path))

/-- A URL need not be asked for, or was. -/
def Asked (s : Setup) (b : Build importer) (u : Text) : Prop :=
  Url.isExternal u = .ok true ∨ Sought s b u

/-- Nobody new waits, nothing that was sought is forgotten, and the threads under way are the
same. -/
structure Still (s : Setup) (b b' : Build importer) : Prop where
  waiting : ∀ w ∈ b'.waiting, w ∈ b.waiting
  sought : ∀ u, Sought s b u → Sought s b' u
  flight : (∀ w ∈ b.waiting, w.caller.Steady) → ∀ a, (b'.flight a).Perm (b.flight a)

theorem Still.refl (b : Build importer) : Still s b b :=
  ⟨fun _ h => h, fun _ h => h, fun _ _ => .refl _⟩

theorem Still.trans {b₁ b₂ b₃ : Build importer} (h : Still s b₁ b₂) (h' : Still s b₂ b₃) :
    Still s b₁ b₃ where
  waiting w hw := h.waiting w (h'.waiting w hw)
  sought u hu := h'.sought u (h.sought u hu)
  flight hsteady a :=
    (h'.flight (fun w hw => hsteady w (h.waiting w hw)) a).trans (h.flight hsteady a)

theorem Still.asked (h : Still s b b') {u : Text} (hu : Asked s b u) : Asked s b' u :=
  hu.imp_right (h.sought u)

/-! ### Operations that leave the threads alone -/

theorem still_note (b : Build importer) (ctx : Log.Fields) (l : Log.Level) (m : Text) :
    Still s b (b.note ctx l m) :=
  ⟨fun _ h => h, fun _ h => h, fun _ _ => .refl _⟩

/-- Jobs that let no thread go on. -/
theorem flight_schedule (b : Build importer) (n : Nat) {j : Job importer} {a : Nat} :
    ((b.schedule n j).flight a).Perm ((j.errand? a).toList ++ b.flight a) := by
  simp only [flight, schedule, List.filterMap_append, List.append_assoc]
  cases h : j.errand? a with
  | none => simp [h]
  | some t =>
    simp only [List.filterMap_cons, h, List.filterMap_nil, Option.toList_some, List.singleton_append]
    exact List.perm_middle

theorem flight_goOn (b : Build importer) (j : Job importer) (a : Nat) :
    (b.goOn j).flight a = (j.errand? a).toList ++ b.flight a := by
  simp only [flight, goOn]
  cases h : j.errand? a <;> simp [h]

theorem still_enqueue (b : Build importer) (item : Option Path) : Still s b (b.enqueue item) := by
  unfold enqueue
  dsimp only
  split
  · exact ⟨fun _ h => h, fun _ h => h, fun _ a => flight_schedule _ 0⟩
  · exact ⟨fun _ h => h, fun _ h => h, fun _ _ => .refl _⟩

/-- An answer lets those who wait for it go on. -/
theorem still_wake (b : Build importer) (n : Nat) (text : Text) : Still s b (b.wake s n text) := by
  refine ⟨fun w hw => ?_, fun _ h => h, fun hsteady a => ?_⟩
  · simp only [wake, List.partition_eq_filter_filter, List.mem_filter] at hw
    exact hw.1
  · have hresume : ∀ ws : List (Waiter importer), (∀ w ∈ ws, w.caller.Steady) →
        (ws.map fun w => (answerRounds s, w.caller.resume (.ok text))).filterMap
          (fun x => x.2.errand? a) = ws.filterMap fun w => w.caller.errand? a := by
      intro ws hws
      rw [List.filterMap_map]
      exact List.filterMap_congr fun w hw => (hws w hw).errand?_resume text a
    have hnow := List.filter_append_perm (fun w : Waiter importer => decide (w.ticket = n)) b.waiting
    simp only [flight, wake, List.partition_eq_filter_filter, List.filterMap_append,
      List.append_assoc]
    rw [hresume _ fun w hw => hsteady w (List.mem_of_mem_filter hw), ← List.filterMap_append]
    exact (hnow.filterMap _).append_left _

theorem has_release (l : Waitlist Path) (p q : Path) : (l.release p).has q = l.has q := by
  unfold Waitlist.release
  split <;> rfl

/-- Keys may be released as long as they stay on the list. -/
theorem still_waitlist (b : Build importer) {l : Waitlist Path}
    (h : ∀ p, b.waitlist.has p → l.has p) : Still s b { b with waitlist := l } where
  waiting _ hw := hw
  sought := fun _ ⟨v, w, hv, hw, hsought⟩ => ⟨v, w, hv, hw, hsought.imp_right (h _)⟩
  flight _ _ := .refl _

theorem still_release (b : Build importer) (p : Path) : Still s b (b.release s p) := by
  unfold release
  split
  · exact .refl b
  · exact (still_waitlist b fun q hq => (has_release _ p q).trans hq).trans (still_wake _ _ _)

theorem still_releaseUnreachable (b : Build importer) (ctx : Log.Fields) (p : Path) :
    Still s b (b.releaseUnreachable s ctx p) := (still_note b _ _ _).trans (still_release _ p)

/-- A file is registered under its URL, and taken off the list of those that are waited for. -/
theorem still_files (b : Build importer) {f : File} {p : Path} {u : Text} {l : Waitlist Path}
    (hurl : s.project.url p = .ok u) (h : ∀ q, b.waitlist.has q → q = p ∨ l.has q) :
    Still s b { b with files := b.files.put u f, waitlist := l } where
  waiting _ hw := hw
  sought := fun x ⟨v, w, hv, hw, hsought⟩ => by
    refine ⟨v, w, hv, hw, ?_⟩
    rcases hsought with hfile | hwaits
    · exact .inl (Table.has_put_of_has f hfile)
    · rcases h _ hwaits with rfl | hrest
      · obtain rfl := Except.ok.inj (hurl.symm.trans hw)
        exact .inl (Table.has_put_self _ _ _)
      · exact .inr hrest
  flight _ _ := .refl _

theorem has_of_resolve {l l' : Waitlist Path} {p q : Path} {text : Text}
    (h : l.resolve p text = .ok l') (hq : l.has q) : q = p ∨ l'.has q := by
  by_cases hp : q = p
  · exact .inl hp
  · right
    unfold Waitlist.resolve at h
    split at h
    · cases h
    · obtain rfl := Except.ok.inj h
      simp only [Waitlist.has, Waitlist.answer, Table.has, Table.get?_erase, if_neg (Ne.symm hp)]
      exact hq

theorem still_register (b : Build importer) (f : File) : Still s b (b.register s f).1 := by
  unfold register
  dsimp only
  split
  · exact still_note b _ _ _
  · rename_i u hurl
    split
    · rename_i n l _ hresolve
      have hfiles := still_files (f := f)
        (b.note s.context .debug ("register_file: " ++ f.path.normal.toText)) hurl
        fun q hq => has_of_resolve hresolve hq
      exact ((still_note b _ _ _).trans hfiles).trans (still_wake _ _ _)
    · exact (still_note b _ _ _).trans (still_files (l := b.waitlist) _ hurl fun q hq => .inr hq)

theorem still_enqueueUrl (b : Build importer) (ctx : Log.Fields) (url : Text) (p : Path) :
    Still s b (b.enqueueUrl ctx url p) := by
  unfold enqueueUrl
  split
  · exact .refl b
  · have hpushed : ∀ us (b : Build importer), Still s b { b with pushed := us } := fun us b =>
      ⟨fun _ h => h, fun _ h => h, fun _ _ => .refl _⟩
    exact ((still_note b _ _ _).trans (hpushed _ _)).trans (still_enqueue _ _)

theorem still_push (b : Build importer) (ctx : Log.Fields) (url : Text) :
    Still s b (b.push s ctx url).1 := by
  have hpushed := push_cases (s := s) b ctx url
  generalize b.push s ctx url = r at hpushed ⊢
  cases hpushed with
  | ended | known | source => exact still_note b _ _ _
  | unclear => exact .refl b
  | unreachable text => exact (still_note b _ _ text).trans (still_releaseUnreachable _ _ _)
  | dependency => exact still_enqueueUrl b _ _ _

theorem still_releaseSources (b : Build importer) (ps : List Path) :
    Still s b (b.releaseSources s ps).1 := by
  induction ps generalizing b with
  | nil => exact .refl b
  | cons p ps ih =>
    unfold releaseSources
    split
    · exact .refl b
    · exact (still_releaseUnreachable b _ p).trans (ih _)
    · exact ih b

theorem still_enqueueExtras (b : Build importer) (ps : List Path) :
    Still s b (b.enqueueExtras s ps).1 := by
  induction ps generalizing b with
  | nil => exact .refl b
  | cons p ps ih =>
    unfold enqueueExtras
    split
    · exact .refl b
    · exact (still_note b _ _ _).trans (ih _)
    · exact .refl b
    · exact (still_enqueueUrl b _ _ p).trans (ih _)

/-! ### Threads that ask -/

/-- A caller's question for a URL is answered, or will be: with a fault, or with a text if the file
was sought. -/
structure Asks (s : Setup) (url : Text) (c : Caller importer) (b b' : Build importer) : Prop where
  waiting : ∀ w ∈ b'.waiting, w ∈ b.waiting ∨ w.caller = c
  sought : ∀ u, Sought s b u → Sought s b' u
  flight : c.Steady → (∀ w ∈ b.waiting, w.caller.Steady) →
    ∃ answer : Except Fault Text, (answer.isOk → Asked s b' url) ∧
      ∀ a, (b'.flight a).Perm (((c.resume answer).errand? a).toList ++ b.flight a)

theorem Still.trans_asks {b₁ b₂ b₃ : Build importer} {url : Text} {c : Caller importer}
    (h : Still s b₁ b₂) (h' : Asks s url c b₂ b₃) : Asks s url c b₁ b₃ where
  waiting w hw := (h'.waiting w hw).imp_left (h.waiting w)
  sought u hu := h'.sought u (h.sought u hu)
  flight hc hsteady := by
    obtain ⟨answer, hok, hflight⟩ := h'.flight hc fun w hw => hsteady w (h.waiting w hw)
    exact ⟨answer, hok, fun a => (hflight a).trans ((h.flight hsteady a).append_left _)⟩

theorem asks_goOn (b : Build importer) {url : Text} (c : Caller importer)
    {answer : Except Fault Text} (hok : answer.isOk → Asked s b url) :
    Asks s url c b (b.goOn (c.resume answer)) where
  waiting _ hw := .inl hw
  sought _ hu := hu
  flight _ _ := ⟨answer, hok, fun a => .of_eq (flight_goOn b _ a)⟩

theorem asks_await (b : Build importer) {url : Text} (n : Nat) (p : Path) (c : Caller importer)
    (h : Asked s b url) : Asks s url c b (b.await s n p c) := by
  unfold await
  split
  · rename_i text _
    split
    · exact ⟨fun _ hw => .inl hw, fun _ hu => hu,
        fun _ _ => ⟨.ok text, fun _ => h, fun a => flight_schedule b 1⟩⟩
    · exact asks_goOn b c fun _ => h
  · refine ⟨fun w hw => ?_, fun _ hu => hu, fun hc _ => ⟨.ok [], fun _ => h, fun a => ?_⟩⟩
    · rcases List.mem_append.1 hw with hw | hw
      · exact .inl hw
      · rw [List.mem_singleton] at hw
        rw [hw]
        exact .inr rfl
    · rw [hc.errand?_resume]
      simp only [flight, List.filterMap_append, ← List.append_assoc]
      cases herrand : c.errand? a with
      | none => simp [herrand]
      | some t =>
        simp only [List.filterMap_cons, herrand, List.filterMap_nil, Option.toList_some]
        exact List.perm_append_comm

theorem asks_request (b : Build importer) {url : Text} {v : Url} {w : Text} (ctx : Log.Fields)
    (c : Caller importer) (hv : Url.parse url = .ok v)
    (hw : s.project.url (s.project.path v.path) = .ok w) :
    Asks s url c b (b.request s ctx (s.project.path v.path) c) := by
  unfold request
  split
  · rename_i n hn
    have hhas : b.waitlist.has (s.project.path v.path) := Option.isSome_iff_exists.2 ⟨n, hn⟩
    exact asks_await b n _ c (.inr ⟨v, w, hv, hw, .inr hhas⟩)
  · dsimp only
    have hcreate : Still s b { b with waitlist := (b.waitlist.create (s.project.path v.path)).1 } :=
      still_waitlist b fun q hq => Table.has_put_of_has _ hq
    refine hcreate.trans_asks ?_
    rw [hw]
    dsimp only
    have hpush := still_push (s := s)
      { b with waitlist := (b.waitlist.create (s.project.path v.path)).1 } ctx w
    have hasked : Asked s { b with waitlist := (b.waitlist.create (s.project.path v.path)).1 } url :=
      .inr ⟨v, w, hv, hw, .inr (Table.has_put_self _ _ _)⟩
    split
    · rename_i heq
      rw [heq] at hpush
      exact hpush.trans_asks (asks_goOn _ c nofun)
    · rename_i heq
      rw [heq] at hpush
      exact hpush.trans_asks (asks_await _ _ _ c (hpush.asked hasked))

/-- A caller asks for the text behind a URL. -/
theorem asks_load (hp : s.project.Rooted) (b : Build importer) (url : Text) (c : Caller importer) :
    Asks s url c b (b.load s url c) := by
  refine (still_note b (b.contextOf s c) .debug ("loading: " ++ url)).trans_asks ?_
  unfold load
  dsimp only
  split
  · exact asks_goOn _ c nofun
  · exact asks_goOn _ c fun _ => .inl ‹_›
  · exact asks_goOn _ c nofun
  · rename_i v _ hv
    -- A file that is found stands under the URL of its path, which makes it one that was sought.
    have hfile : ∀ b : Build importer, ∀ found, b.fileAt s (s.project.path v.path) = .ok found →
        ∃ w, s.project.url (s.project.path v.path) = .ok w ∧ b.file? w = found := by
      intro b found hfound
      unfold fileAt at hfound
      cases hw : s.project.url (s.project.path v.path) with
      | error e =>
        rw [hw] at hfound
        cases hfound
      | ok w =>
        rw [hw] at hfound
        exact ⟨w, rfl, Except.ok.inj hfound⟩
    split
    · exact asks_goOn _ c nofun
    · rename_i f hfound
      obtain ⟨w, hw, hf⟩ := hfile _ _ hfound
      rw [file?_eq _ ((s.project.inside_path _).dropLeading_url hp hw)] at hf
      exact asks_goOn _ c fun _ => .inr ⟨v, w, hv, hw, .inl (Option.isSome_iff_exists.2 ⟨f, hf⟩)⟩
    · rename_i hfound
      obtain ⟨w, hw, -⟩ := hfile _ _ hfound
      exact asks_request _ _ c hv hw

/-- The file that a request has waited for too long is released. -/
theorem still_giveUp (b : Build importer) (w : Waiter importer) :
    Still s b ((b.note (b.contextOf s w.caller) .error
      ("Timed out after " ++ s.timeout.getD [] ++ "s waiting for " ++ w.path.toText)).release s
        w.path) := (still_note b _ _ _).trans (still_release _ w.path)

end Build
end HtmlDeps
