import HtmlDeps.Proofs.Build.Closure
import HtmlDeps.Proofs.Url.Literal

/-!
# Asking for a registered file

The crawl of a fragment asks for the fragment under the URL that it is registered under.  That works if
this URL stands for itself (`Url.Literal`); otherwise, not even a file that is the only one registered is
found under its URL (`load_of_register`).

This is how `analyze_fragment` hands a fragment to its parser: by `url_from_path` into `StreamLoader.load`.
-/

namespace HtmlDeps.Build

variable {C : Crawler} {s : Setup} {b : Build C} {p : Path} {f : File} {u text : Text}

/-- A request is answered at once: but for the log, nothing happens to the build except that the caller
goes on, and nobody waits for a file. -/
def AnswersAtOnce (s : Setup) (b : Build C) (u : Text) (caller : Caller C) (text : Text) : Prop :=
  b.load s u caller = (b.note (b.contextOf s caller) .debug ("loading: " ++ u)).goOn
    (caller.resume (.ok text))

theorem files_register (hurl : s.project.url f.path.normal = .ok u) :
    (b.register s f).1.files = b.files.put u f := by
  have hdone : (b.register s f).2 = none := by
    unfold register
    dsimp only
    rw [hurl]
    dsimp only
    split <;> rfl
  obtain ⟨v, hv, hcalm⟩ := register_eq (Prod.ext rfl hdone : b.register s f = (_, none))
  obtain rfl := Except.ok.inj (hurl.symm.trans hv)
  exact hcalm.files

/-- No URL of the project has a slash in front. -/
theorem file?_of_inside (hp : s.project.Rooted) (h : s.project.Inside p) (hurl : s.project.url p = .ok u) :
    b.file? u = b.files.get? u := by
  have hdrop := h.dropLeading_url hp hurl
  unfold file?
  split
  · rename_i r
    have hle := (List.dropWhile_sublist (l := r) (· == .char '/')).length_le
    have hlength := congrArg List.length hdrop
    rw [Text.dropLeading, List.dropWhile_cons_of_pos (by simp), List.length_cons] at hlength
    omega
  · rfl

/-- How a request for a URL that leads to a path inside the project goes on. -/
theorem load_of_path {v : Url} {w : Text} (hlocal : Url.isExternal u = .ok false)
    (hparse : Url.parse u = .ok v) (hurl : s.project.url (s.project.path v.path) = .ok w)
    (caller : Caller C) : b.load s u caller =
      let ctx := b.contextOf s caller
      let b := b.note ctx .debug ("loading: " ++ u)
      match b.file? w with
      | some f => b.goOn (caller.resume (.ok f.text))
      | none => b.request s ctx (s.project.path v.path) caller := by
  unfold load fileAt
  rw [hlocal, hparse]
  dsimp only
  rw [hurl]
  dsimp only [Except.map]
  cases (b.note _ _ _).file? w <;> rfl

/-- A file is found under a URL that leads back to its path. -/
theorem answers_of_reads_back {v : Url} (hp : s.project.Rooted) (hinside : s.project.Inside f.path.normal)
    (hurl : s.project.url f.path.normal = .ok u) (hlocal : Url.isExternal u = .ok false)
    (hparse : Url.parse u = .ok v) (hpath : s.project.path v.path = f.path.normal) (caller : Caller C) :
    AnswersAtOnce s (b.register s f).1 u caller f.text := by
  have hfile : ∀ b : Build C, b.files.get? u = some f → b.file? u = some f := fun b hget =>
    (file?_of_inside hp hinside hurl).trans hget
  unfold AnswersAtOnce
  rw [load_of_path hlocal hparse (hpath ▸ hurl)]
  dsimp only
  rw [hfile]
  change (b.register s f).1.files.get? u = some f
  rw [files_register hurl, Table.get?_put, if_pos rfl]

/-! ### A request that is not answered -/

theorem tickets_push (b : Build C) (ctx : Log.Fields) (url : Text) :
    (b.push s ctx url).1.waitlist.tickets.length = b.waitlist.tickets.length := by
  have hpushed := push_cases (s := s) b ctx url
  generalize b.push s ctx url = r at hpushed ⊢
  cases hpushed with
  | ended | known | unclear | source => rfl
  | unreachable text =>
    unfold releaseUnreachable release
    split
    · rfl
    · rename_i n hcurrent
      have hrelease : ∀ (w : Waitlist Path) (p : Path),
          (w.release p).tickets.length = w.tickets.length := by
        intro w p
        unfold Waitlist.release
        split
        · rfl
        · exact List.length_modify ..
      exact hrelease _ _
  | dependency =>
    unfold enqueueUrl enqueue
    split
    · rfl
    · dsimp only
      split <;> rfl

/-- A path that nobody waits for yet gets a ticket. -/
theorem tickets_request (h : b.waitlist.current? p = none) (ctx : Log.Fields) (caller : Caller C) :
    (b.request s ctx p caller).waitlist.tickets.length = b.waitlist.tickets.length + 1 := by
  have hcreated : (b.waitlist.create p).1.tickets.length = b.waitlist.tickets.length + 1 :=
    List.length_append
  have hawait : ∀ (b : Build C) (n : Nat), (b.await s n p caller).waitlist = b.waitlist := by
    intro b n
    unfold await
    split
    · split <;> rfl
    · rfl
  unfold request
  rw [h]
  dsimp only
  split
  · exact hcreated
  · rename_i u _
    have hpush := tickets_push (s := s) { b with waitlist := (b.waitlist.create p).1 } ctx u
    split
    · rename_i b' f heq
      rw [heq] at hpush
      exact hpush.trans hcreated
    · rename_i b' heq
      rw [heq] at hpush
      rw [hawait]
      exact hpush.trans hcreated

theorem goOn_client_inj {n : Nat} {a a' : Except Fault Text}
    (h : b.goOn ((Caller.client n).resume a) = b.goOn ((Caller.client n).resume a')) : a = a' := by
  have hjob := congrArg (fun b : Build C => b.ready.head?) h
  simpa [goOn, Caller.resume] using hjob

/-- A build in which one file is registered. -/
theorem register_initial (hurl : s.project.url f.path.normal = .ok u) :
    ((initial C s.project).register s f).1.files = [(u, f)] ∧
      ((initial C s.project).register s f).1.waitlist = Waitlist.empty := by
  refine ⟨files_register hurl, ?_⟩
  unfold register
  dsimp only
  rw [hurl]
  rfl

/-- Who is given the text of the only file has asked for a URL that leads back to it. -/
theorem reads_back_of_answers {n : Nat} (hp : s.project.Rooted) (hinside : s.project.Inside f.path.normal)
    (hurl : s.project.url f.path.normal = .ok u) (htext : f.text ≠ [])
    (h : AnswersAtOnce s ((initial C s.project).register s f).1 u (.client n) f.text) :
    ∃ v, Url.isExternal u = .ok false ∧ Url.parse u = .ok v ∧
      s.project.path v.path = f.path.normal := by
  obtain ⟨hfiles, hwaitlist⟩ := register_initial (C := C) hurl
  unfold AnswersAtOnce at h
  generalize ((initial C s.project).register s f).1 = b at h hfiles hwaitlist
  have hload := h
  unfold load at hload
  dsimp only at hload
  split at hload
  · cases goOn_client_inj hload
  · exact absurd (Except.ok.inj (goOn_client_inj hload)).symm htext
  · cases goOn_client_inj hload
  · rename_i v hlocal hparse
    refine ⟨v, hlocal, hparse, ?_⟩
    cases hw : s.project.url (s.project.path v.path) with
    | error e =>
      unfold fileAt at hload
      rw [hw] at hload
      cases goOn_client_inj hload
    | ok w =>
      have hfound := s.project.inside_path v.path
      by_cases hkey : u = w
      · exact hfound.eq_of_url_eq hp hinside (hw.trans (hkey ▸ hurl.symm))
      · -- another file would be asked for, and nobody waits for any
        have hnone : ∀ b' : Build C, b'.files = b.files → b'.file? w = none := fun b' hsame => by
          rw [file?_of_inside hp hfound hw, hsame, hfiles, Table.get?, if_neg hkey]
          rfl
        rw [load_of_path hlocal hparse hw] at h
        dsimp only at h
        rw [hnone (b.note _ _ _) rfl] at h
        have hticket := congrArg (fun b : Build C => b.waitlist.tickets.length) h
        dsimp only at hticket
        rw [tickets_request] at hticket
        · exact absurd hticket (Nat.succ_ne_self _)
        · change b.waitlist.current? _ = none
          rw [hwaitlist]
          rfl

/-- **A registered file under its own URL.**  If the URL stands for itself, a request for it is answered at
once with the text of the file, whatever else has happened.  If it does not, then such a request is not
answered with that text even where the file is the only one that was ever registered. -/
theorem load_of_register (hp : s.project.Rooted) (hwritten : p.Written)
    (hinside : s.project.Inside p.normal) (hurl : s.project.url p.normal = .ok u) :
    (Url.Literal u → ∀ (C : Crawler) (b : Build C) (contents : Bytes) (caller : Caller C),
      AnswersAtOnce s (b.register s ⟨p, contents⟩).1 u caller (Text.decode contents)) ∧
    (¬ Url.Literal u → ∀ (C : Crawler) (contents : Bytes) (n : Nat), contents ≠ [] →
      ¬ AnswersAtOnce s ((initial C s.project).register s ⟨p, contents⟩).1 u (.client n)
        (Text.decode contents)) := by
  have hback := Project.reads_back_iff hp hinside hwritten.normal hurl
  refine ⟨fun hliteral C b contents caller => ?_, fun hliteral C contents n hcontents hanswers => ?_⟩
  · obtain ⟨v, hlocal, hparse, hpath⟩ := hback.1 hliteral
    exact answers_of_reads_back (f := ⟨p, contents⟩) hp hinside hurl hlocal hparse hpath caller
  · have htext : Text.decode contents ≠ [] := fun hempty => hcontents (by
      rw [← Text.encode_decode contents, hempty, Text.encode_nil])
    exact hliteral (hback.2 (reads_back_of_answers (f := ⟨p, contents⟩) hp hinside hurl htext hanswers))

/-- A script is found under its name, and one with an escape in its name is not. -/
theorem load_of_register_script :
    Url.Literal "a.js" ∧ AnswersAtOnce (pageDisk.setup pagePlan)
      (pageStart.register (pageDisk.setup pagePlan) ⟨"/app/a.js", Text.encode "x"⟩).1 "a.js" (.client 0)
      "x" ∧
    ¬ Url.Literal "a%41.js" ∧ ¬ AnswersAtOnce (pageDisk.setup pagePlan)
      ((initial importer pagePlan.project).register (pageDisk.setup pagePlan)
        ⟨"/app/a%41.js", Text.encode "x"⟩).1 "a%41.js" (.client 0) "x" := by
  have hp : (pageDisk.setup pagePlan).project.Rooted := Project.rooted_of_anchor (by decide) anchor_page
  have hinside : ∀ n : Text, n ≠ [] ∧ n ≠ Path.dotDot ∧ .char '/' ∉ n →
      pagePlan.project.Inside (pagePlan.project.root.normal.extend [n]) := fun n h =>
    ⟨[n], rfl, List.forall_mem_singleton.2 ⟨h.1, h.2.1, h.2.2⟩⟩
  have hliteral : Url.Literal "a.js" :=
    ⟨by decide, by decide, by decide, Percent.decode_eq_self_iff.1 (by decide +kernel)⟩
  have hescaped : ¬ Url.Literal "a%41.js" := fun h =>
    absurd (Percent.decode_eq_self_iff.2 h.unescaped) (by decide)
  refine ⟨hliteral, ?_, hescaped, ?_⟩
  · exact (load_of_register (p := "/app/a.js") hp (Path.written_ofText _) (hinside "a.js" (by decide))
      (by decide)).1 hliteral _ pageStart _ _
  · exact (load_of_register (p := "/app/a%41.js") hp (Path.written_ofText _)
      (hinside "a%41.js" (by decide)) (by decide)).2 hescaped _ _ 0 (by decide +kernel)

/-- The file with the escape in its name is registered, but another file is waited for and fetched. -/
theorem not_load_of_register :
    pagePlan.project.url (Path.ofText "/app/a%41.js").normal = .ok "a%41.js" ∧
    ∃ b b' : Build importer,
      (initial importer pagePlan.project).register (pageDisk.setup pagePlan)
        ⟨"/app/a%41.js", Text.encode "x"⟩ = (b, none) ∧
      b.load (pageDisk.setup pagePlan) "a%41.js" (.client 0) = b' ∧
      b.waitlist.keys = [] ∧ b'.waitlist.keys = ["/app/aA.js"] ∧ b'.pushed = ["aA.js"] ∧
      b'.ready.isEmpty :=
  ⟨by decide, _, _, rfl, rfl, by decide +kernel, by decide +kernel, by decide +kernel,
    by decide⟩

end HtmlDeps.Build
