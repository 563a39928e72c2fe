import Mathlib.Data.List.Nodup
import HtmlDeps.Proofs.Build.Recorded

/-!
# The report of missing files

A build that ends for want of files fails with the URLs of just those paths that were sought and at which
no file was registered, each once, in the order in which they were sought first
(`Runs.reports_unmet`).  For that the files have to be registered at the paths of their URLs.

What is waited for is told by the deeds of the run (`unmet`).  Joining a ticket, giving it up and a
timeout are no deeds, and make no difference.

The report is made by `_done`, with an `UnresolvedReferencesError`.  What a parser or a source raises of its own,
whatever its class, is passed on by `_guard` as it is; that is a `Fault.crawler` and no report of the build.
-/

namespace HtmlDeps

/-- The path that a load asks for. -/
def Deed.sought? : Deed → Option Path
  | .seek p => some p
  | _ => none

/-- The path at which a file is registered. -/
def Deed.registered? : Deed → Option Path
  | .register f => some f.path.normal
  | _ => none

namespace Build

variable {C : Crawler} {s : Setup} {b b' : Build C} {ds es : List Deed} {past : List (Build C)} {f : File}
  {p : Path} {t u : Text} {urls : List Text}

/-! ### What is sought and not registered -/

def sought (ds : List Deed) : List Path := ds.filterMap Deed.sought?

def arrived (ds : List Deed) : List Path := ds.filterMap Deed.registered?

/-- The paths that were sought and at which no file was registered, in the order in which they were sought
first. -/
def unmet (ds : List Deed) : List Path := (sought ds).eraseDups.filter (· ∉ arrived ds)

theorem sought_append (ds es : List Deed) : sought (ds ++ es) = sought ds ++ sought es :=
  List.filterMap_append

theorem arrived_append (ds es : List Deed) : arrived (ds ++ es) = arrived ds ++ arrived es :=
  List.filterMap_append

theorem mem_unmet : p ∈ unmet ds ↔ p ∈ sought ds ∧ p ∉ arrived ds := by
  rw [unmet, List.mem_filter, List.mem_eraseDups, decide_eq_true_eq]

/-- Nothing is sought, and nothing is registered. -/
theorem unmet_append (hsought : sought es = []) (harrived : arrived es = []) : unmet (ds ++ es) = unmet ds := by
  rw [unmet, unmet, sought_append, arrived_append, hsought, harrived, List.append_nil, List.append_nil]

theorem eraseDups_concat (ps : List Path) (p : Path) :
    (ps ++ [p]).eraseDups = if p ∈ ps then ps.eraseDups else ps.eraseDups ++ [p] := by
  rw [List.eraseDups_append]
  split
  · rename_i hp
    simp [List.removeAll, hp]
  · rename_i hp
    simp [List.removeAll, hp, List.eraseDups_cons]

/-- What is sought once more, or has been registered, does not become unmet. -/
theorem unmet_seek (h : p ∈ unmet ds ∨ p ∈ arrived ds) : unmet (ds ++ [.seek p]) = unmet ds := by
  have hsought : sought (ds ++ [.seek p]) = sought ds ++ [p] := sought_append ds _
  have harrived : arrived (ds ++ [.seek p]) = arrived ds := (arrived_append ds _).trans (List.append_nil _)
  rw [unmet, hsought, harrived, eraseDups_concat]
  split
  · rfl
  · -- what was never sought is not unmet, so it has been registered
    rename_i hnew
    have hp : p ∈ arrived ds := h.resolve_left fun hmem => hnew (mem_unmet.1 hmem).1
    simp [unmet, hp]

/-- What is sought for the first time comes last. -/
theorem unmet_push (hunmet : p ∉ unmet ds) (hp : p ∉ arrived ds) :
    unmet (ds ++ [.seek p, .push p]) = unmet ds ++ [p] := by
  have hsought : sought (ds ++ [.seek p, .push p]) = sought ds ++ [p] := sought_append ds _
  have harrived : arrived (ds ++ [.seek p, .push p]) = arrived ds :=
    (arrived_append ds _).trans (List.append_nil _)
  have hnew : p ∉ sought ds := fun hmem => hunmet (mem_unmet.2 ⟨hmem, hp⟩)
  rw [unmet, hsought, harrived, eraseDups_concat, if_neg hnew, List.filter_append]
  simp [unmet, hp]

theorem unmet_register (ds : List Deed) (f : File) :
    unmet (ds ++ [.register f]) = (unmet ds).filter (· ≠ f.path.normal) := by
  have hsought : sought (ds ++ [.register f]) = sought ds := (sought_append ds _).trans (List.append_nil _)
  have harrived : arrived (ds ++ [.register f]) = arrived ds ++ [f.path.normal] := arrived_append ds _
  rw [unmet, unmet, hsought, harrived, List.filter_filter]
  refine List.filter_congr fun p _ => ?_
  simp [Bool.and_comm]

/-! ### What is waited for -/

/-- What is waited for is what is unmet, and the files that are there are those that were registered. -/
structure Owes (s : Setup) (ds : List Deed) (b : Build C) : Prop where
  keys : b.waitlist.keys = unmet ds
  sought : ∀ p ∈ sought ds, ∃ t u, p = s.project.path t ∧ s.project.url p = .ok u
  files : ∀ t u, s.project.url (s.project.path t) = .ok u →
    (u ∈ b.files.keys ↔ s.project.path t ∈ arrived ds)

theorem Owes.files_append (h : Owes s ds b) (hes : arrived es = []) (t u : Text)
    (hurl : s.project.url (s.project.path t) = .ok u) :
    u ∈ b.files.keys ↔ s.project.path t ∈ arrived (ds ++ es) := by
  rw [arrived_append, hes, List.append_nil]
  exact h.files t u hurl

/-- A change without deeds of a load or a registration. -/
theorem Owes.keep (h : Owes s ds b) (hsought : Build.sought es = []) (harrived : arrived es = [])
    (hfiles : b'.files = b.files) (hkeys : b'.waitlist.keys = b.waitlist.keys) : Owes s (ds ++ es) b' := by
  refine ⟨?_, ?_, ?_⟩
  · rw [hkeys, unmet_append hsought harrived, h.keys]
  · rw [sought_append, hsought, List.append_nil]
    exact h.sought
  · rw [hfiles]
    exact h.files_append harrived

theorem Owes.sought_append (h : Owes s ds b) (hes : Build.sought es = [s.project.path t])
    (hurl : s.project.url (s.project.path t) = .ok u) :
    ∀ p ∈ Build.sought (ds ++ es), ∃ t u, p = s.project.path t ∧ s.project.url p = .ok u := by
  intro p hp
  rw [Build.sought_append, hes] at hp
  rcases List.mem_append.1 hp with hp | hp
  · exact h.sought p hp
  · obtain rfl := List.mem_singleton.1 hp
    exact ⟨t, u, rfl, hurl⟩

/-- What is there, or is waited for already, is sought once more. -/
theorem Owes.seek (hproject : s.project.Rooted) (h : Owes s ds b)
    (hurl : s.project.url (s.project.path t) = .ok u)
    (hhere : b.waitlist.current? (s.project.path t) ≠ none ∨ ∃ f, b.fileAt s (s.project.path t) = .ok (some f)) :
    Owes s (ds ++ [.seek (s.project.path t)]) b := by
  refine ⟨?_, h.sought_append rfl hurl, h.files_append rfl⟩
  rw [h.keys]
  refine (unmet_seek (hhere.imp (fun hcurrent => ?_) fun ⟨f, hfile⟩ => ?_)).symm
  · rw [← h.keys]
    exact mem_keys_iff.2 hcurrent
  · exact (h.files t u hurl).1 (mem_keys_of_fileAt hproject hurl hfile)

theorem Owes.create (hproject : s.project.Rooted) (h : Owes s ds b)
    (hurl : s.project.url (s.project.path t) = .ok u) (hcurrent : b.waitlist.current? (s.project.path t) = none)
    (hfile : b.fileAt s (s.project.path t) = .ok none) :
    Owes s (ds ++ [.seek (s.project.path t), .push (s.project.path t)])
      { b with waitlist := (b.waitlist.create (s.project.path t)).1 } := by
  have hkeys := (Deal.create hurl hcurrent hfile).recorded.2
  have hunmet : s.project.path t ∉ unmet ds := by
    rw [← h.keys]
    exact fun hmem => mem_keys_iff.1 hmem hcurrent
  have hmissing : s.project.path t ∉ arrived ds := fun hmem =>
    not_mem_keys_of_fileAt hproject hurl hfile ((h.files t u hurl).2 hmem)
  refine ⟨?_, h.sought_append rfl hurl, h.files_append rfl⟩
  rw [unmet_push hunmet hmissing, ← h.keys]
  exact hkeys

/-- A file that is registered at the path of a URL is the one that is sought there. -/
theorem Owes.register (hproject : s.project.Rooted) (h : Owes s ds b) (hplaced : f.path.normal = s.project.path t) :
    Owes s (ds ++ [.register f]) (b.register s f).1 := by
  obtain ⟨hfiles, hkeys⟩ := register_recorded (s := s) b f
  have hsought : Build.sought (ds ++ [.register f]) = Build.sought ds :=
    (Build.sought_append ds _).trans (List.append_nil _)
  have harrived : arrived (ds ++ [.register f]) = arrived ds ++ [s.project.path t] :=
    (arrived_append ds _).trans (hplaced ▸ rfl)
  simp only [Setup.filesAfter, Setup.pendingAfter, hplaced] at hfiles hkeys
  have hmem : ∀ q, q ∈ arrived (ds ++ [.register f]) ↔ q ∈ arrived ds ∨ q = s.project.path t := fun q => by
    rw [harrived, List.mem_append, List.mem_singleton]
  cases hurl : s.project.url (s.project.path t) with
  | error e =>
    rw [hurl] at hfiles hkeys
    refine ⟨?_, hsought ▸ h.sought, fun t' u' hurl' => ?_⟩  -- no other path that counts is without a URL
    · rw [unmet_register, hplaced, hkeys, h.keys]
      refine (List.filter_eq_self.2 fun q hq => decide_eq_true ?_).symm
      rintro rfl
      obtain ⟨_, v, -, hv⟩ := h.sought _ (mem_unmet.1 hq).1
      rw [hurl] at hv
      cases hv
    · rw [hfiles, hmem, or_iff_left]
      · exact h.files t' u' hurl'
      · intro heq
        rw [heq, hurl] at hurl'
        cases hurl'
  | ok v =>
    rw [hurl] at hfiles hkeys
    refine ⟨?_, hsought ▸ h.sought, fun t' u' hurl' => ?_⟩
    · rw [unmet_register, hplaced, hkeys, h.keys]
    · have hsame : u' = v ↔ s.project.path t' = s.project.path t := by
        constructor
        · rintro rfl
          exact (Project.regular_path hproject t').eq_of_url_eq hproject (Project.regular_path hproject t) hurl' hurl
        · intro heq
          rw [heq, hurl] at hurl'
          exact (Except.ok.inj hurl').symm
      rw [hfiles, Table.mem_keys_put, hmem, h.files t' u' hurl', hsame, or_comm]

theorem verdict_await (b : Build C) (n : Nat) (p : Path) (c : Caller C) :
    (b.await s n p c).status = b.status ∧ (b.await s n p c).outcome = b.outcome := by
  unfold Build.await
  split
  · split <;> exact ⟨rfl, rfl⟩
  · exact ⟨rfl, rfl⟩

theorem verdict_release (b : Build C) (p : Path) :
    (b.release s p).status = b.status ∧ (b.release s p).outcome = b.outcome := by
  rcases release_cases s b p with ⟨-, heq⟩ | ⟨n, -, heq⟩ <;> rw [heq] <;> exact ⟨rfl, rfl⟩

theorem verdict_register (b : Build C) (f : File) :
    (b.register s f).1.status = b.status ∧ (b.register s f).1.outcome = b.outcome := by
  rcases registered_cases s b f with ⟨e, -, heq⟩ | ⟨u, -, ⟨-, heq⟩ | ⟨n, -, heq⟩⟩ <;> rw [heq] <;>
    exact ⟨rfl, rfl⟩

/-- A deal leaves the verdict alone, or it ends the build, but not with a report of missing files. -/
theorem Deal.verdict (h : Deal s b es b') (urls : List Text) : (b'.status = b.status ∧ b'.outcome = b.outcome) ∨
    b'.status ≠ .running ∧ (b'.outcome = some (.error (.unresolved urls)) →
      b.outcome = some (.error (.unresolved urls))) := by
  -- A build fails with what it is given, unless it had an outcome before.
  have hfails : ∀ {f}, Fails f b b' → b'.status ≠ .running ∧
      (b'.outcome = some (.error (.unresolved urls)) →
        b.outcome = some (.error (.unresolved urls)) ∨ f = .unresolved urls) := by
    intro f h
    refine ⟨h.status ▸ nofun, fun houtcome => ?_⟩
    rw [h.outcome] at houtcome
    cases hbefore : b.outcome with
    | none =>
      rw [hbefore] at houtcome
      exact .inr (Except.error.inj (Option.some.inj houtcome))
    | some o =>
      rw [hbefore] at houtcome
      exact .inl houtcome
  cases h with
  | keep h => exact .inl ⟨h.status, h.outcome⟩
  | seek | create | settle | ask => exact .inl ⟨rfl, rfl⟩
  | await h c => exact .inl (verdict_await _ _ _ c)
  | release => exact .inl (verdict_release b _)
  | register => exact .inl (verdict_register b _)
  | fail hf h =>
    obtain ⟨hstatus, houtcome⟩ := hfails h
    exact .inr ⟨hstatus, fun h => (houtcome h).resolve_right (hf urls)⟩
  | succeed i _ hstatus houtcome =>
    refine .inr ⟨hstatus ▸ nofun, fun h => ?_⟩
    rw [houtcome] at h
    cases h
  | abandon _ hstatus houtcome => exact .inl ⟨hstatus, houtcome⟩

/-- The URLs of the paths that are waited for. -/
theorem Owes.awaited (h : Owes s ds b) : (b.awaited s).map .ok = (unmet ds).map s.project.url := by
  unfold Build.awaited
  rw [h.keys, List.map_map]
  refine List.map_congr_left fun p hp => ?_
  obtain ⟨t, u, -, hu⟩ := h.sought p (mem_unmet.1 hp).1
  simp [hu, Except.toOption]

end Build
end HtmlDeps
