import HtmlDeps.Proofs.Build.Acts
import HtmlDeps.Proofs.Build.Honest

/-!
# What the deeds tell

The files that are registered and the paths that are waited for depend on the deeds of a run alone
(`Acts.recorded`).  The tickets of a run are in order in all its states (`Runs.ticketed`).
-/

namespace HtmlDeps

/-- The paths that are waited for after a deed. -/
def Setup.pendingAfter (s : Setup) (ks : List Path) : Deed → List Path
  | .push p => ks ++ [p]
  | .register f =>
    match s.project.url f.path.normal with
    | .ok _ => ks.filter (· ≠ f.path.normal)
    | .error _ => ks
  | _ => ks

/-- The files that are registered after a deed. -/
def Setup.filesAfter (s : Setup) (t : Table Text File) : Deed → Table Text File
  | .register f =>
    match s.project.url f.path.normal with
    | .ok u => t.put u f
    | .error _ => t
  | _ => t

namespace Build

variable {C : Crawler} {s : Setup} {b b' b₀ : Build C} {ds es : List Deed} {past : List (Build C)} {f : File}
  {p : Path} {n : Nat} {u : Text}

theorem mem_keys_iff : p ∈ b.waitlist.keys ↔ b.waitlist.current? p ≠ none := by
  rw [Waitlist.keys, Table.mem_keys_iff, Option.isSome_iff_ne_none]
  rfl

theorem fileAt_path (hproject : s.project.Rooted) {t : Text} (hurl : s.project.url (s.project.path t) = .ok u) :
    b.fileAt s (s.project.path t) = .ok (b.files.get? u) := by
  have hinside := s.project.inside_path t
  unfold fileAt
  rw [hurl]
  exact congrArg Except.ok (file?_eq b (hinside.dropLeading_url hproject hurl))

/-- What is looked for in vain is not registered. -/
theorem not_mem_keys_of_fileAt (hproject : s.project.Rooted) {t : Text}
    (hurl : s.project.url (s.project.path t) = .ok u) (hfile : b.fileAt s (s.project.path t) = .ok none) :
    u ∉ b.files.keys := by
  rw [fileAt_path hproject hurl] at hfile
  rw [Table.mem_keys_iff, Except.ok.inj hfile]
  nofun

theorem mem_keys_of_fileAt (hproject : s.project.Rooted) {t : Text}
    (hurl : s.project.url (s.project.path t) = .ok u) (hfile : b.fileAt s (s.project.path t) = .ok (some f)) :
    u ∈ b.files.keys := by
  rw [fileAt_path hproject hurl] at hfile
  exact (Table.mem_keys_iff _ _).2 (Option.isSome_of_eq_some (Except.ok.inj hfile))

/-! ### Registration -/

/-- The log when a file is registered. -/
def registerLog (s : Setup) (b : Build C) (f : File) : List Log.Entry :=
  (b.note s.context .debug ("register_file: " ++ f.path.normal.toText)).log

/-- A file that lies nowhere is refused. -/
theorem register_of_error {e : OutsideRoot} (h : s.project.url f.path.normal = .error e) :
    (b.register s f).1 = { b with log := b.registerLog s f } := by
  simp only [Build.register, h]
  rfl

theorem register_of_none (hurl : s.project.url f.path.normal = .ok u)
    (h : b.waitlist.current? f.path.normal = none) : (b.register s f).1 = b.stored u f (b.registerLog s f) := by
  simp only [Build.register, hurl, note, noteWith, h]
  rfl

theorem register_of_some (hurl : s.project.url f.path.normal = .ok u)
    (h : b.waitlist.current? f.path.normal = some n) : (b.register s f).1 =
      (b.stored u f (b.registerLog s f)).answered s
        ⟨b.waitlist.entries.erase f.path.normal, b.waitlist.tickets⟩ n f.text := by
  simp only [Build.register, hurl, note, noteWith, Waitlist.resolve, h]
  rfl

/-- What registering a file may amount to. -/
theorem registered_cases (s : Setup) (b : Build C) (f : File) :
    (∃ e, s.project.url f.path.normal = .error e ∧ (b.register s f).1 = { b with log := b.registerLog s f }) ∨
    ∃ u, s.project.url f.path.normal = .ok u ∧
      (b.waitlist.current? f.path.normal = none ∧ (b.register s f).1 = b.stored u f (b.registerLog s f) ∨
        ∃ n, b.waitlist.current? f.path.normal = some n ∧ (b.register s f).1 =
          (b.stored u f (b.registerLog s f)).answered s
            ⟨b.waitlist.entries.erase f.path.normal, b.waitlist.tickets⟩ n f.text) := by
  cases hurl : s.project.url f.path.normal with
  | error e => exact .inl ⟨e, rfl, register_of_error hurl⟩
  | ok u =>
    refine .inr ⟨u, rfl, ?_⟩
    cases hcurrent : b.waitlist.current? f.path.normal with
    | none => exact .inl ⟨rfl, register_of_none hurl hcurrent⟩
    | some n => exact .inr ⟨n, rfl, register_of_some hurl hcurrent⟩

/-- A file is stored, and nobody waits for its path any more. -/
theorem register_recorded (b : Build C) (f : File) :
    (b.register s f).1.files = s.filesAfter b.files (.register f) ∧
      (b.register s f).1.waitlist.keys = s.pendingAfter b.waitlist.keys (.register f) := by
  simp only [Setup.filesAfter, Setup.pendingAfter]
  rcases registered_cases s b f with ⟨e, hurl, heq⟩ | ⟨u, hurl, ⟨hnone, heq⟩ | ⟨n, -, heq⟩⟩ <;> rw [heq, hurl]
  · exact ⟨rfl, rfl⟩
  · -- there is nothing to take off the list
    have hmem : ∀ q ∈ b.waitlist.keys, q ≠ f.path.normal := by
      rintro q hq rfl
      exact mem_keys_iff.1 hq hnone
    exact ⟨rfl, (List.filter_eq_self.2 fun q hq => decide_eq_true (hmem q hq)).symm⟩
  · exact ⟨rfl, Table.keys_erase b.waitlist.entries f.path.normal⟩

theorem Ticketed.exists_url (hproject : s.project.Rooted) (hb : Ticketed s b)
    (hp : b.waitlist.current? p = some n) : ∃ u, s.project.url p = .ok u := by
  obtain ⟨names, rfl, hnames⟩ := hb.inside p n hp
  exact ⟨_, Project.url_extend hproject hnames⟩

theorem ticketed_register (h : Ticketed s b) (f : File) : Ticketed s (b.register s f).1 := by
  cases hregister : (b.register s f).2 with
  | none => exact h.register (Prod.ext rfl hregister)
  | some e =>
    rcases registered_cases s b f with ⟨e, -, heq⟩ | ⟨u, hurl, -⟩
    · rw [heq]
      exact h.keep rfl fun _ hw => hw
    · simp only [Build.register, hurl] at hregister
      split at hregister <;> cases hregister

/-! ### Deals -/

theorem release_recorded (b : Build C) (p : Path) :
    (b.release s p).files = b.files ∧ (b.release s p).waitlist.keys = b.waitlist.keys := by
  rcases release_cases s b p with ⟨-, heq⟩ | ⟨n, -, heq⟩ <;> rw [heq]
  · exact ⟨rfl, rfl⟩
  · exact ⟨rfl, rfl⟩

theorem await_recorded (b : Build C) (n : Nat) (p : Path) (c : Caller C) :
    (b.await s n p c).files = b.files ∧ (b.await s n p c).waitlist.keys = b.waitlist.keys := by
  unfold Build.await
  split
  · split <;> exact ⟨rfl, rfl⟩
  · exact ⟨rfl, rfl⟩

/-- The files and the paths waited for change by the deeds alone. -/
theorem Deal.recorded (h : Deal s b es b') :
    b'.files = es.foldl s.filesAfter b.files ∧ b'.waitlist.keys = es.foldl s.pendingAfter b.waitlist.keys := by
  have hspares : ∀ {m}, Spares m b b' → b'.files = b.files ∧ b'.waitlist.keys = b.waitlist.keys := fun h =>
    ⟨h.files, congrArg Waitlist.keys h.waitlist⟩
  cases h with
  | keep h => exact hspares h.spares
  | seek => exact ⟨rfl, rfl⟩
  | create _ h =>
    refine ⟨rfl, ?_⟩
    change Table.keys (Table.put _ _ _) = _
    rw [Table.put_of_get?_eq_none _ h, Table.keys, List.map_append]
    rfl
  | await h c => exact await_recorded _ _ _ c
  | release => exact release_recorded b _
  | register => exact register_recorded b _
  | fail _ h => exact hspares h.spares
  | succeed i h => exact hspares h
  | settle => exact ⟨rfl, rfl⟩
  | ask => exact ⟨rfl, rfl⟩
  | abandon h => exact hspares h

theorem Deal.ticketed (h : Deal s b es b') (hb : Ticketed s b) : Ticketed s b' := by
  have hspares : ∀ {m}, Spares m b b' → Ticketed s b' := fun h => hb.keep h.waitlist h.waiting
  cases h with
  | keep h => exact hspares h.spares
  | seek => exact hb
  | create hurl h => exact hb.create (s.project.inside_path _) h
  | @await b₁ p n h c =>
    have hbefore : Ticketed s b₁ := hb.keep rfl fun _ hw => hw
    exact hbefore.await h c
  | release => exact hb.release _
  | register => exact ticketed_register hb _
  | fail _ h => exact hspares h.spares
  | succeed i h => exact hspares h
  | settle => exact hb.keep rfl fun _ hw => hw
  | ask => exact hb.keep rfl fun _ hw => hw
  | abandon h => exact hspares h

theorem Deals.recorded (h : Deals s b es b') :
    b'.files = es.foldl s.filesAfter b.files ∧ b'.waitlist.keys = es.foldl s.pendingAfter b.waitlist.keys := by
  induction h with
  | refl => exact ⟨rfl, rfl⟩
  | tail _ hdeal ih =>
    rw [List.foldl_append, List.foldl_append, ← ih.1, ← ih.2]
    exact hdeal.recorded

theorem Deals.ticketed (h : Deals s b es b') (hb : Ticketed s b) :
    Ticketed s b' := by
  induction h with
  | refl => exact hb
  | tail _ hdeal ih => exact hdeal.ticketed ih

/-! ### Acts and runs -/

theorem Acts.recorded (h : Acts s b es b') :
    b'.files = es.foldl s.filesAfter b.files ∧ b'.waitlist.keys = es.foldl s.pendingAfter b.waitlist.keys := by
  rcases h.deals with hdeals | ⟨rfl, hreports⟩
  · exact hdeals.recorded
  · have hspares := hreports.fails.spares
    exact ⟨hspares.files, congrArg Waitlist.keys hspares.waitlist⟩

theorem Runs.ticketed (hb : Ticketed s b₀) (h : Runs s b₀ ds (b :: past)) :
    Ticketed s b :=
  h.preserve (P := fun _ b => Ticketed s b) (fun hb hdeal => hdeal.ticketed hb)
    (fun hb h => hb.keep h.fails.spares.waitlist h.fails.spares.waiting) hb

/-! ### A script that is waited for -/

/-- The deeds of the next jobs in the order of the list. -/
def settleDeeds (s : Setup) : Nat → Build C → List Deed
  | 0, _ => []
  | limit + 1, b => if b.ready.isEmpty then [] else b.stepDeeds s ++ settleDeeds s limit (b.step s)

theorem Runs.settle (h : Runs s b₀ ds (b :: past)) (limit : Nat) :
    Runs s b₀ (ds ++ b.settleDeeds s limit) (b.settle s limit :: (b.passed s limit ++ past)) := by
  induction limit generalizing b ds past with
  | zero =>
    have hnone : ds ++ b.settleDeeds s 0 = ds := List.append_nil ds
    rw [hnone]
    exact h
  | succ limit ih =>
    unfold Build.settle settleDeeds passed
    split
    · rw [List.append_nil]
      exact h
    · rename_i hready
      have hnext := ih (h.act (acts_step (mt List.isEmpty_iff.2 hready)))
      rwa [List.append_assoc, ← List.append_assoc ds]

/-- The script is being read, and whoever asked for it waits. -/
def scriptSetup : Setup := askedSetup true none

def scriptAwaited : Build needless := (askedStart scriptSetup).settle scriptSetup 3

def scriptPast : List (Build needless) :=
  (askedStart scriptSetup).passed scriptSetup 3 ++
    [((initial needless scriptSetup.project).start scriptSetup).1, initial needless scriptSetup.project]

theorem runs_scriptAwaited : Runs scriptSetup (initial needless scriptSetup.project)
    [.seek "/app/a.js", .push "/app/a.js"] (scriptAwaited :: scriptPast) := by
  have hasked : Runs scriptSetup (initial needless scriptSetup.project) [] [askedStart scriptSetup,
      ((initial needless scriptSetup.project).start scriptSetup).1, initial needless scriptSetup.project] :=
    (Runs.start.act (.start _)).act (.ask _ "a.js")
  have hdeeds : [] ++ (askedStart scriptSetup).settleDeeds scriptSetup 3 =
      [.seek "/app/a.js", .push "/app/a.js"] := by decide
  rw [← hdeeds]
  exact hasked.settle 3

/-- Then the script is registered at a path. -/
def scriptAt (p : Path) : Build needless := (scriptAwaited.register scriptSetup ⟨p, Text.encode "x"⟩).1

theorem runs_scriptAt (p : Path) : Runs scriptSetup (initial needless scriptSetup.project)
    [.seek "/app/a.js", .push "/app/a.js", .register ⟨p, Text.encode "x"⟩]
      (scriptAt p :: scriptAwaited :: scriptPast) :=
  runs_scriptAwaited.act (.register scriptAwaited ⟨p, Text.encode "x"⟩)

end Build
end HtmlDeps
