import Mathlib.Data.List.Nodup
import Mathlib.Data.List.Perm.Subperm
import HtmlDeps.Proofs.Build.Placed
import HtmlDeps.Proofs.Build.Roster

/-!
# Which dependencies are fetched

A dependency is put on the queue under a URL, and under each URL once.  Nothing else is kept of what was
put there, so that a file is fetched once for every URL under which it stands (`Booked`), and sent once
for every time that it was fetched.  Whether a file can be sent twice is therefore a matter of its URLs
(`Reached.fetched_once_iff`), and two spellings of one path are two URLs (`not_fetched_once`).

The docstring of `push_dependency` promises “at most once” for each dependency.
-/

namespace HtmlDeps

/-- The file that is to be sent. -/
def Duty.path? : Duty → Option Path
  | .deliver p => some p
  | .close => none

namespace Account

variable {s : Setup} {a a' : Account}

/-- The files that were ever put on the queue, in order. -/
def fetches (a : Account) : List Path := a.reads.map (·.path) ++ a.queue.filterMap id

/-- The same with the URLs under which they were put there. -/
def orders (a : Account) : List (Text × Path) := a.pushed.zip a.fetches

/-- The files that were read and are held back. -/
def heldBack (reads : List Read) : List Path :=
  (reads.filter (·.delivery = .pending)).map (·.path)

/-- The queue holds one file for each URL, and no file is sent more often than it was read. -/
structure Booked (s : Setup) (a : Account) : Prop where
  pushed : a.pushed.Nodup
  length : a.pushed.length = a.fetches.length
  leads : ∀ x ∈ a.orders, Build.LeadsTo s x.1 x.2
  sent : ∀ p, (a.dependencies.sent.map (·.path)).count p + (a.duties.filterMap Duty.path?).count p +
    (heldBack a.reads).count p ≤ (a.reads.map (·.path)).count p

theorem Booked.same (h : Booked s a) (hpushed : a'.pushed = a.pushed) (hfetches : a'.fetches = a.fetches)
    (hsent : ∀ p, (a'.dependencies.sent.map (·.path)).count p +
      (a'.duties.filterMap Duty.path?).count p + (heldBack a'.reads).count p ≤
      (a'.reads.map (·.path)).count p) : Booked s a' := by
  refine ⟨hpushed ▸ h.pushed, ?_, ?_, hsent⟩
  · rw [hpushed, hfetches]
    exact h.length
  · unfold orders
    rw [hpushed, hfetches]
    exact h.leads

theorem heldBack_append (reads reads' : List Read) :
    heldBack (reads ++ reads') = heldBack reads ++ heldBack reads' := by
  unfold heldBack
  rw [List.filter_append, List.map_append]

theorem fetches_read {r : Read} {rest : List (Option Path)} (h : a.queue = some r.path :: rest) :
    (a.reads ++ [r]).map (·.path) ++ rest.filterMap id = a.fetches := by
  unfold fetches
  rw [h, List.map_append, List.append_assoc]
  rfl

theorem Booked.push (h : Booked s a) {u : Text} {p : Path} (hnew : u ∉ a.pushed)
    (hleads : Build.LeadsTo s u p) :
    Booked s { a with pushed := a.pushed ++ [u], queue := a.queue ++ [some p] } := by
  have hfetches : Account.fetches { a with pushed := a.pushed ++ [u], queue := a.queue ++ [some p] } =
      a.fetches ++ [p] := by
    unfold fetches
    rw [List.filterMap_append, ← List.append_assoc]
    rfl
  refine ⟨?_, ?_, fun x hx => ?_, h.sent⟩
  · dsimp only
    rw [← List.concat_eq_append]
    exact List.Nodup.concat hnew h.pushed
  · rw [hfetches, List.length_append, List.length_append, h.length]
    rfl
  · unfold orders at hx
    rw [hfetches, List.zip_append h.length] at hx
    rcases List.mem_append.1 hx with hx | hx
    · exact h.leads x hx
    · obtain rfl := List.mem_singleton.1 hx
      exact hleads

theorem Booked.cancel (h : Booked s a) : Booked s a.cancel := by
  have hpaths : a.cancel.reads.map (·.path) = a.reads.map (·.path) := by
    unfold Account.cancel
    rw [List.map_map]
    refine List.map_congr_left fun r _ => ?_
    dsimp only [Function.comp]
    split <;> rfl
  have hnone : heldBack a.cancel.reads = [] := by
    unfold heldBack
    rw [List.map_eq_nil_iff, List.filter_eq_nil_iff]
    intro r' hr'
    obtain ⟨r, -, rfl⟩ := List.mem_map.1 hr'
    by_cases hpending : r.delivery = .pending
    · simp [hpending]
    · simp [hpending]
  refine h.same rfl ?_ fun p => ?_
  · unfold fetches
    rw [hpaths]
    rfl
  · rw [hnone, hpaths]
    have hsent := h.sent p
    exact Nat.le_trans (Nat.le_add_right _ _) (Nat.le_trans (Nat.le_add_right _ _) hsent)

theorem Booked.fail (h : Booked s a) (f : Failure) : Booked s (a.fail f) := by
  refine Booked.cancel (h.same rfl rfl ?_)
  dsimp only
  rw [Outlet.sent_close]
  exact h.sent

theorem Booked.enter (h : Booked s a) (p : Path) (i : Index) : Booked s (a.enter p i) :=
  h.same rfl rfl h.sent

theorem Booked.succeed (h : Booked s a) : Booked s a.succeed := by
  refine h.same rfl ?_ fun p => ?_
  · unfold fetches Account.succeed
    rw [List.filterMap_append]
    exact congrArg (a.reads.map (·.path) ++ ·) (List.append_nil _)
  · have hduties : a.succeed.duties.filterMap Duty.path? = a.duties.filterMap Duty.path? := by
      unfold Account.succeed
      dsimp only
      split
      · rw [List.filterMap_append]
        exact List.append_nil _
      · rfl
    rw [hduties]
    exact h.sent p

/-- A read that is let through is due. -/
theorem Booked.letThrough (h : Booked s a) {before after : List Read} {r : Read}
    (hr : r.delivery = .pending) (hreads : a.reads = before ++ r :: after) :
    Booked s { a with
      reads := before ++ { r with delivery := .delivered } :: after
      duties := a.duties ++ [.deliver r.path] } := by
  have hpaths : (before ++ { r with delivery := .delivered } :: after).map (·.path) =
      a.reads.map (·.path) := by
    rw [hreads, List.map_append, List.map_append]
    rfl
  refine h.same rfl ?_ fun p => ?_
  · unfold fetches
    rw [hpaths]
  · have hsent := h.sent p
    -- The read is held back no longer, and is due instead: the sum stays the same.
    have hheld : heldBack a.reads = heldBack before ++ r.path :: heldBack after := by
      rw [hreads, heldBack_append]
      unfold heldBack
      rw [List.filter_cons_of_pos (by simp [hr])]
      rfl
    have hheld' : heldBack (before ++ { r with delivery := .delivered } :: after) =
        heldBack before ++ heldBack after := by
      rw [heldBack_append]
      unfold heldBack
      rw [List.filter_cons_of_neg (by simp)]
    dsimp only
    rw [hpaths, hheld', List.filterMap_append]
    rw [hheld] at hsent
    simp only [List.filterMap_cons, List.filterMap_nil, Duty.path?, List.count_append,
      List.count_cons, List.count_nil] at hsent ⊢
    omega

theorem Booked.step (h : Booked s a) (hstep : Step s a a') : Booked s a' := by
  cases hstep with
  | push hnew hleads => exact h.push hnew hleads
  | claim p =>
    unfold Account.claim
    split
    · exact h.same rfl rfl h.sent
    · exact h
  | last => exact (h.enter _ _).succeed
  | lastFails _ _ _ f => exact (h.enter _ _).fail f
  | fail _ f => exact h.fail f
  | cancel => exact h.cancel
  -- Each read adds one on the right; on the left it is held back, or a duty to deliver it.
  | @fetch r rest hqueue hr =>
    refine h.same rfl (fetches_read hqueue) fun p => ?_
    have hsent := h.sent p
    have hheld : heldBack [r] = [r.path] := by simp [heldBack, hr]
    dsimp only
    rw [heldBack_append, hheld, List.map_append, List.count_append, List.count_append]
    exact (Nat.add_assoc _ _ _) ▸ Nat.add_le_add_right hsent _
  | @read r rest hqueue hr =>
    refine h.same rfl (fetches_read hqueue) fun p => ?_
    have hsent := h.sent p
    have hheld : heldBack [r] = [] := by simp [heldBack, hr]
    dsimp only
    rw [heldBack_append, hheld, List.map_append, List.append_nil]
    simp only [List.filterMap_cons, Duty.path?, List.count_append, List.count_cons, List.map_cons,
      List.map_nil, List.count_nil]
    omega
  | letThrough hr hreads => exact h.letThrough hr hreads
  | @send f ds o hduties hsend =>
    refine h.same rfl rfl fun p => ?_
    have hsent := h.sent p
    rw [hduties] at hsent
    dsimp only
    rw [Outlet.sent_of_send hsend]
    simp only [List.filterMap_cons, Duty.path?, List.map_append, List.count_append, List.count_cons,
      List.map_cons, List.map_nil, List.count_nil] at hsent ⊢
    omega
  | @settle ds hsub =>
    refine h.same rfl rfl fun p => ?_
    -- Duties that are settled are dropped or reordered, so no path is owed more often than before.
    obtain ⟨ds', hperm, hsublist⟩ := hsub
    have hcount : (ds.filterMap Duty.path?).count p ≤ (a.duties.filterMap Duty.path?).count p := by
      rw [← (hperm.filterMap Duty.path?).count_eq p]
      exact (hsublist.filterMap Duty.path?).count_le p
    have hsent := h.sent p
    dsimp only
    omega
  | next hqueue =>
    refine h.same rfl ?_ h.sent
    unfold fetches
    rw [hqueue]
    rfl
  | endDependencies =>
    refine h.same rfl rfl ?_
    dsimp only
    rw [Outlet.sent_close]
    exact h.sent
  | _ => exact h.same rfl rfl h.sent

/-- What was sent was put on the queue under some URL. -/
theorem Booked.leads_of_sent (h : Booked s a) {f : File} (hf : f ∈ a.dependencies.sent) :
    ∃ u, Build.LeadsTo s u f.path := by
  have hread : f.path ∈ a.reads.map (·.path) := by
    have hsent := h.sent f.path
    have hpositive := List.count_pos_iff.2 (List.mem_map_of_mem (f := (·.path)) hf)
    rw [← List.count_pos_iff]
    omega
  have hpaths : a.orders.map (·.2) = a.fetches := List.map_snd_zip h.length.ge
  have hfetched : f.path ∈ a.orders.map (·.2) := by
    rw [hpaths]
    exact List.mem_append_left _ hread
  obtain ⟨x, hx, heq⟩ := List.mem_map.1 hfetched
  exact ⟨x.1, heq ▸ h.leads x hx⟩

/-! ### Files that are fetched once -/

theorem Booked.nodup_fetches_iff (h : Booked s a) : (a.fetches.map Path.normal).Nodup ↔
    ∀ x ∈ a.orders, ∀ y ∈ a.orders, x.2.normal = y.2.normal → x.1 = y.1 := by
  have hpaths : a.orders.map (·.2) = a.fetches := List.map_snd_zip h.length.ge
  have hurls : (a.orders.map (·.1)).Nodup := by
    have hfst : a.orders.map (·.1) = a.pushed := List.map_fst_zip h.length.le
    rw [hfst]
    exact h.pushed
  have hequal : ∀ x ∈ a.orders, ∀ y ∈ a.orders, x.1 = y.1 → x = y :=
    fun x hx y hy => List.inj_on_of_nodup_map hurls hx hy
  rw [← hpaths, List.map_map, List.nodup_map_iff_inj_on (hurls.of_map _)]
  constructor
  · intro honce x hx y hy heq
    rw [honce x hx y hy heq]
  · intro honce x hx y hy heq
    exact hequal x hx y hy (honce x hx y hy heq)

/-- What is fetched once is sent at most once. -/
theorem Booked.nodup_sent (h : Booked s a) (honce : (a.fetches.map Path.normal).Nodup) :
    (a.dependencies.sent.map (·.path.normal)).Nodup := by
  have hsent : (a.dependencies.sent.map (·.path)).Subperm a.fetches := by
    rw [List.subperm_iff_count]
    intro p
    have hread := h.sent p
    unfold fetches
    rw [List.count_append]
    omega
  obtain ⟨ps, hperm, hsublist⟩ := hsent
  have hnormal := (hperm.map Path.normal).nodup_iff.1 (honce.sublist (hsublist.map Path.normal))
  rwa [List.map_map] at hnormal

end Account

namespace Build

variable {C : Crawler} {s : Setup} {b : Build C}

theorem Reached.booked (h : Reached s b) : b.account.Booked s := by
  refine h.preserve ⟨List.nodup_nil, rfl, nofun, fun p => ?_⟩ (fun _ _ ha hstep => ha.step hstep)
    fun _ _ ha => ha.same rfl rfl ha.sent
  exact Nat.le_refl _

/-- The URL of a path is that of its normal form. -/
theorem url_eq_of_normal_eq {p : Project} {q q' : Path} (h : q.normal = q'.normal) : p.url q = p.url q' := by
  unfold Project.url Url.ofPath Path.absolute
  rw [h]

/-- **When a file is fetched once.**  In every state that a build can reach, the files on the queue are
told apart by their URLs: no URL is there twice, and each leads to its file or was made from it.  No file
was put there twice exactly if none stands there under two URLs, and then none is sent twice.  This is so
when each stands under the URL that is made from it. -/
theorem Reached.fetched_once_iff (h : Reached s b) :
    b.pushed.Nodup ∧ b.pushed.length = b.account.fetches.length ∧
    (∀ x ∈ b.account.orders, LeadsTo s x.1 x.2) ∧
    ((b.account.fetches.map Path.normal).Nodup ↔
      ∀ x ∈ b.account.orders, ∀ y ∈ b.account.orders, x.2.normal = y.2.normal → x.1 = y.1) ∧
    ((b.account.fetches.map Path.normal).Nodup →
      (b.dependencies.sent.map (·.path.normal)).Nodup) ∧
    ((∀ x ∈ b.account.orders, s.project.url x.2 = .ok x.1) →
      (b.account.fetches.map Path.normal).Nodup) := by
  have hbooked := h.booked
  refine ⟨hbooked.pushed, hbooked.length, hbooked.leads, hbooked.nodup_fetches_iff, hbooked.nodup_sent,
    fun hmade => ?_⟩
  rw [hbooked.nodup_fetches_iff]
  intro x hx y hy heq
  have hurl := url_eq_of_normal_eq (p := s.project) heq
  rw [hmade x hx, hmade y hy] at hurl
  exact Except.ok.inj hurl

/-! ### Two spellings of a path -/

/-- The jobs in the order of the list are a run. -/
theorem moves_settle (b : Build C) (limit : Nat) :
    Relation.ReflTransGen (Moves s) b (b.settle s limit) := by
  induction limit generalizing b with
  | zero => exact .refl
  | succ limit ih =>
    unfold Build.settle
    split
    · exact .refl
    · rename_i hready
      exact .head (.step (.inl (works_step (mt List.isEmpty_iff.2 hready)))) (ih _)

theorem Reached.settle (h : Reached s b) (limit : Nat) : Reached s (b.settle s limit) :=
  h.trans (moves_settle b limit)

/-- A build to which two dependencies are pushed. -/
def pushedTwice (u v : Text) : Build needless :=
  let b := (((smallStart true).push (smallSetup true) [] u).1.push (smallSetup true) [] v).1
  b.settle (smallSetup true) 20

theorem reached_pushedTwice (u v : Text) : Reached (smallSetup true) (pushedTwice u v) := by
  have hstart : Reached (smallSetup true) (smallStart true) := .single (.start _)
  have hfirst := hstart.tail (.step (.inr (.push _ [] u)))
  exact Reached.settle (hfirst.tail (.step (.inr (.push _ [] v)))) 20

/-- A slash in front makes no difference, and the file is sent once. -/
theorem fetched_once_small : Reached (smallSetup true) (pushedTwice "a.js" "/a.js") ∧
    (pushedTwice "a.js" "/a.js").dependencies.sent.map (·.path) = ["/app/extra.txt", "/app/a.js"] ∧
    ((pushedTwice "a.js" "/a.js").dependencies.sent.map (·.path.normal)).Nodup := by
  have hreached := reached_pushedTwice "a.js" "/a.js"
  obtain ⟨-, -, -, -, hsent, hmade⟩ := hreached.fetched_once_iff
  refine ⟨hreached, by decide, hsent (hmade ?_)⟩
  decide

/-- Two spellings of one path are two URLs, and the file is fetched and sent twice. -/
theorem not_fetched_once : ∃ b : Build needless, Reached (smallSetup true) b ∧
    b.account.fetches = ["/app/extra.txt", "/app/a.js", "/app/a.js"] ∧
    b.dependencies.sent.map (·.path) = ["/app/extra.txt", "/app/a.js", "/app/a.js"] :=
  ⟨pushedTwice "a.js" "./a.js", reached_pushedTwice _ _, by decide, by decide +kernel⟩

end Build
end HtmlDeps
