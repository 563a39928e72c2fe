import HtmlDeps.Proofs.Build.Recorded
import HtmlDeps.Proofs.Path.Written

/-!
# Registered or waited for

A file is registered under its URL, but those who wait for it are found by its path.  So a path that is
waited for while its URL is registered comes about in one way only: a file is registered at another path
with the same URL (`Runs.exclusive_iff`).  Paths below the root do not share their URLs; such a file
has a path that starts elsewhere, at the working directory or with two slashes.

The comment in `register_file` promises more: “Store file and release any content request waiting for it”.
-/

namespace HtmlDeps.Build

open HtmlDeps.Path

variable {C : Crawler} {s : Setup} {b b' : Build C} {ds es : List Deed} {past : List (Build C)} {f : File}
  {p : Path} {u t : Text}

/-- No path that is waited for has its URL among the registered files. -/
def Exclusive (s : Setup) (b : Build C) : Prop :=
  ∀ p ∈ b.waitlist.keys, ∀ u, s.project.url p = .ok u → u ∉ b.files.keys

/-- A check for all paths that are waited for. -/
def exclusive (s : Setup) (b : Build C) : Bool :=
  b.waitlist.keys.all fun p =>
    match s.project.url p with
    | .ok u => !b.files.keys.contains u
    | .error _ => true

theorem exclusive_eq_true_iff : b.exclusive s = true ↔ Exclusive s b := by
  refine List.all_eq_true.trans (forall₂_congr fun p _ => ?_)
  cases s.project.url p <;> simp

instance (s : Setup) (b : Build C) : Decidable (Exclusive s b) := decidable_of_iff _ exclusive_eq_true_iff

/-- Another path is waited for that has the URL of a file. -/
def Astray (s : Setup) (b : Build C) (f : File) : Prop :=
  ∃ p ∈ b.waitlist.keys, p ≠ f.path.normal ∧
    ∃ u, s.project.url p = .ok u ∧ s.project.url f.path.normal = .ok u

/-- A file is registered while another path is waited for that has its URL. -/
def GoesAstray (s : Setup) (b b' : Build C) : Prop := ∃ f, Acts s b [.register f] b' ∧ Astray s b f

/-! ### Which state is exclusive -/

theorem mem_pendingAfter {ks : List Path} (h : p ∈ es.foldl s.pendingAfter ks) : p ∈ ks ∨ .push p ∈ es := by
  induction es generalizing ks with
  | nil => exact .inl h
  | cons e es ih =>
    rcases ih h with h | h
    · cases e with
      | push q =>
        rcases List.mem_append.1 h with h | h
        · exact .inl h
        · rw [List.mem_singleton.1 h]
          exact .inr List.mem_cons_self
      | register f =>
        simp only [Setup.pendingAfter] at h
        split at h
        · exact .inl (List.mem_of_mem_filter h)
        · exact .inl h
      | _ => exact .inl h
    · exact .inr (List.mem_cons_of_mem _ h)

/-- Without a path that is new on the list, a file that goes astray later does so now. -/
theorem Astray.of_deals (h : Astray s b' f) (hdeals : Deals s b es b') (hpush : ∀ p, .push p ∉ es) :
    Astray s b f := by
  obtain ⟨p, hp, hne, hurl⟩ := h
  rw [hdeals.recorded.2] at hp
  exact ⟨p, (mem_pendingAfter hp).resolve_right (hpush p), hne, hurl⟩

theorem Exclusive.keep (h : Exclusive s b) (hfiles : b'.files = b.files)
    (hkeys : b'.waitlist.keys = b.waitlist.keys) : Exclusive s b' := by
  unfold Exclusive
  rw [hfiles, hkeys]
  exact h

theorem exclusive_register (hx : Exclusive s b) (hastray : ¬ Astray s b f) :
    Exclusive s (b.register s f).1 := by
  obtain ⟨hfiles, hkeys⟩ := register_recorded (s := s) b f
  simp only [Setup.filesAfter, Setup.pendingAfter] at hfiles hkeys
  cases hurl : s.project.url f.path.normal with
  | error e =>
    rw [hurl] at hfiles hkeys
    exact hx.keep hfiles hkeys
  | ok v =>
    rw [hurl] at hfiles hkeys
    intro p hp u hu hmem
    rw [hkeys, List.mem_filter, decide_eq_true_eq] at hp
    rw [hfiles, Table.mem_keys_put] at hmem
    rcases hmem with rfl | hmem
    · exact hastray ⟨p, hp.1, hp.2, u, hu, hurl⟩
    · exact hx p hp.1 u hu hmem

/-- What is asked for is not registered. -/
theorem exclusive_create (hproject : s.project.Rooted) (hx : Exclusive s b)
    (hurl : s.project.url (s.project.path t) = .ok u) (hcurrent : b.waitlist.current? (s.project.path t) = none)
    (hfile : b.fileAt s (s.project.path t) = .ok none) :
    Exclusive s { b with waitlist := (b.waitlist.create (s.project.path t)).1 } := by
  have hkeys := (Deal.create hurl hcurrent hfile).recorded.2
  intro p hp v hv
  rw [hkeys] at hp
  rcases List.mem_append.1 hp with hp | hp
  · exact hx p hp v hv
  · obtain rfl := List.mem_singleton.1 hp
    obtain rfl : u = v := Except.ok.inj (hurl.symm.trans hv)
    exact not_mem_keys_of_fileAt hproject hurl hfile

theorem Deal.exclusive (hproject : s.project.Rooted) (h : Deal s b es b') (hx : Exclusive s b)
    (hastray : ∀ f, .register f ∈ es → ¬ Astray s b f) : Exclusive s b' := by
  have hrecorded := h.recorded
  cases h with
  | create hurl h hfile => exact exclusive_create hproject hx hurl h hfile
  | register => exact exclusive_register hx (hastray _ List.mem_cons_self)
  | _ => exact hx.keep hrecorded.1 hrecorded.2

theorem Deals.exclusive (hproject : s.project.Rooted) (h : Deals s b es b') (hx : Exclusive s b)
    (hastray : ∀ f, .register f ∈ es → (∀ p, .push p ∉ es) ∧ ¬ Astray s b f) : Exclusive s b' := by
  induction h with
  | refl => exact hx
  | @tail b₂ b₃ ds es h hdeal ih =>
    have hmiddle : Exclusive s b₂ := ih fun f hf => by
      obtain ⟨hpush, hf⟩ := hastray f (List.mem_append_left _ hf)
      exact ⟨fun p hp => hpush p (List.mem_append_left _ hp), hf⟩
    refine hdeal.exclusive hproject hmiddle fun f hf hlater => ?_
    obtain ⟨hpush, hf⟩ := hastray f (List.mem_append_right _ hf)
    exact hf (hlater.of_deals h fun p hp => hpush p (List.mem_append_left _ hp))

theorem Acts.exclusive (hproject : s.project.Rooted) (h : Acts s b es b') (hx : Exclusive s b)
    (hastray : ¬ GoesAstray s b b') : Exclusive s b' := by
  rcases h.deals with hdeals | ⟨-, hreports⟩
  · refine hdeals.exclusive hproject hx fun f hf => ?_
    obtain rfl := h.eq_of_register hf
    exact ⟨nofun, fun hlost => hastray ⟨f, h, hlost⟩⟩
  · have hspares := hreports.fails.spares
    exact hx.keep hspares.files (congrArg Waitlist.keys hspares.waitlist)

/-- A file that goes astray leaves those behind who wait for it. -/
theorem GoesAstray.not_exclusive (h : GoesAstray s b b') : ¬ Exclusive s b' := by
  obtain ⟨f, hact, p, hp, hne, u, hu, hurl⟩ := h
  obtain ⟨hfiles, hkeys⟩ := hact.recorded
  simp only [List.foldl_cons, List.foldl_nil, Setup.filesAfter, Setup.pendingAfter, hurl] at hfiles hkeys
  intro hx
  have hpending : p ∈ b'.waitlist.keys := by
    rw [hkeys]
    exact List.mem_filter.2 ⟨hp, decide_eq_true hne⟩
  refine hx p hpending u hu ?_
  rw [hfiles]
  exact Table.mem_keys_put.2 (.inl rfl)

/-! ### Where a file goes astray -/

/-- A path that starts where the root does, and has a URL, lies below the root. -/
theorem inside_normal {q : Path} (hproject : s.project.Rooted) (hwritten : q.Written)
    (hanchor : q.anchor = s.project.root.anchor) (hurl : s.project.url q.normal = .ok u) :
    s.project.Inside q.normal := by
  have habsolute : q.isAbsolute := by
    unfold isAbsolute
    rw [hanchor]
    exact hproject.absolute
  have hplain := plain_normal habsolute
  rw [Project.url_of_plain hproject hplain] at hurl
  split at hurl
  · rename_i hprefix
    obtain ⟨names, hnames⟩ := List.isPrefixOf_iff_prefix.1 hprefix
    refine ⟨names, ?_, fun n hn => ?_⟩
    · exact congrArg₂ Path.mk hanchor hnames.symm
    · have hmem : n ∈ q.normal.parts := hnames ▸ List.mem_append_right _ hn
      have hpart : n ∈ q.parts := mem_of_mem_resolveParts hmem
      have hsettled : n ≠ dotDot := fun heq => hplain.settled (heq ▸ hmem)
      exact ⟨(hwritten n hpart).1, hsettled, (hwritten n hpart).2.2⟩
  · cases hurl

/-- A file goes astray just if another path with its URL is waited for and its own path starts somewhere
else than the root. -/
theorem astray_iff (hproject : s.project.Rooted) (hb : Ticketed s b) (hwritten : f.path.Written) :
    Astray s b f ↔ f.path.anchor ≠ s.project.root.anchor ∧
      ∃ p ∈ b.waitlist.keys, ∃ u, s.project.url p = .ok u ∧ s.project.url f.path.normal = .ok u := by
  have hinside : ∀ p ∈ b.waitlist.keys, s.project.Inside p := fun p hp => by
    obtain ⟨n, hn⟩ := Option.ne_none_iff_exists'.1 (mem_keys_iff.1 hp)
    exact hb.inside p n hn
  constructor
  · rintro ⟨p, hp, hne, u, hu, hurl⟩
    refine ⟨fun hanchor => hne ?_, p, hp, u, hu, hurl⟩
    have hbelow := inside_normal hproject hwritten hanchor hurl
    exact (hinside p hp).eq_of_url_eq hproject hbelow (hu.trans hurl.symm)
  · rintro ⟨hanchor, p, hp, u, hu, hurl⟩
    refine ⟨p, hp, fun heq => hanchor ?_, u, hu, hurl⟩
    obtain ⟨names, hnames, -⟩ := hinside p hp
    have hroot : p.anchor = s.project.root.anchor := by
      rw [hnames]
      rfl
    rw [← hroot, heq]
    rfl

/-! ### Runs -/

theorem exclusive_initial (s : Setup) : Exclusive s (initial C s.project) := nofun

/-- Nothing goes astray just if all states are exclusive. -/
theorem Runs.all_exclusive_iff (hproject : s.project.Rooted) (h : Runs s (initial C s.project) ds past) :
    (∀ x ∈ past, Exclusive s x) ↔ ¬ Somewhere (GoesAstray s) past := by
  induction h with
  | start =>
    refine iff_of_true (fun x hx => ?_) (not_somewhere_singleton _ _)
    rw [List.mem_singleton.1 hx]
    exact exclusive_initial s
  | @act b b' ds es past h hact ih =>
    rw [somewhere_cons, List.forall_mem_cons, ih, not_or]
    refine ⟨fun ⟨hx, hpast⟩ => ⟨fun hlost => hlost.not_exclusive hx, hpast⟩, fun ⟨hkept, hpast⟩ => ⟨?_, hpast⟩⟩
    exact hact.exclusive hproject (ih.2 hpast b List.mem_cons_self) hkept

/-- **Registered or waited for.**  In a run the paths that are waited for and the registered files exclude
each other just if no file is registered at another path than the one that is waited for.  Such a path
starts elsewhere than the root.  As long as they exclude each other, nobody waits for a file that is
registered. -/
theorem Runs.exclusive_iff (hproject : s.project.Rooted) (h : Runs s (initial C s.project) ds (b :: past)) :
    ((∀ x ∈ b :: past, Exclusive s x) ↔ ¬ Somewhere (GoesAstray s) (b :: past)) ∧
    (∀ f, f.path.Written →
      (Astray s b f ↔ f.path.anchor ≠ s.project.root.anchor ∧ ∃ p ∈ b.waitlist.keys, ∃ u,
        s.project.url p = .ok u ∧ s.project.url f.path.normal = .ok u)) ∧
    (Exclusive s b → ∀ w ∈ b.waiting, ∀ u, s.project.url w.path = .ok u → u ∉ b.files.keys) := by
  have hb := h.ticketed (ticketed_initial s)
  refine ⟨h.all_exclusive_iff hproject, fun f hwritten => astray_iff hproject hb hwritten,
    fun hx w hw => hx w.path (mem_keys_iff.2 ?_)⟩
  rw [(hb.waiting w hw).1]
  nofun

/-! ### A script that is waited for -/

theorem exclusive_scriptAwaited : ∀ x ∈ scriptAwaited :: scriptPast, Exclusive scriptSetup x := by decide

/-- However its path is spelled, if it starts at the root then the file reaches whoever waits for it. -/
theorem exclusive_spelled : ∃ ds past,
    Runs scriptSetup (initial needless scriptSetup.project) ds (scriptAt "/app//x/../a.js" :: past) ∧
    (∀ x ∈ scriptAt "/app//x/../a.js" :: past, Exclusive scriptSetup x) ∧
    ¬ Somewhere (GoesAstray scriptSetup) (scriptAt "/app//x/../a.js" :: past) ∧
    scriptAwaited.waiting.length = 1 ∧ (scriptAt "/app//x/../a.js").waiting.length = 0 ∧
    (scriptAt "/app//x/../a.js").files.keys = [("a.js" : Text)] := by
  have hproject : scriptSetup.project.Rooted := ⟨by decide⟩
  have hlast : Exclusive scriptSetup (scriptAt "/app//x/../a.js") := by decide
  have hall := List.forall_mem_cons.2 ⟨hlast, exclusive_scriptAwaited⟩
  have hregister := runs_scriptAt "/app//x/../a.js"
  exact ⟨_, _, hregister, hall, (hregister.exclusive_iff hproject).1.1 hall, by decide, by decide, by decide⟩

/-- A file that is registered at a relative path leaves behind whoever waits for it. -/
theorem not_exclusive_relative : ∃ ds past,
    Runs scriptSetup (initial needless scriptSetup.project) ds (scriptAt "app/a.js" :: past) ∧
    (scriptAwaited.register scriptSetup ⟨"app/a.js", Text.encode "x"⟩).2 = none ∧
    ¬ Exclusive scriptSetup (scriptAt "app/a.js") ∧ (scriptAt "app/a.js").files.keys = [("a.js" : Text)] ∧
    (scriptAt "app/a.js").waiting.map (fun w => (w.path, scriptSetup.project.url w.path)) =
      [(("/app/a.js" : Path), .ok ("a.js" : Text))] := by
  exact ⟨_, _, runs_scriptAt "app/a.js", by decide, by decide, by decide, by decide⟩

end HtmlDeps.Build
