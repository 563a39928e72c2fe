import Mathlib.Algebra.GroupWithZero.Nat
import Mathlib.Data.Fintype.Card
import Mathlib.Data.Prod.Lex
import Mathlib.Data.Set.Finite.Basic
import Mathlib.Order.OrderIsoNat
import HtmlDeps.Proofs.Crawl.Runs

/-!
# When a crawl ends

A crawl goes on for ever exactly if infinitely many documents can be reached (`endless_iff`).  If they are
finitely many, then every turn brings it closer to its end (`Grounded.rank_lt`): either a document more is
entered, or a survey more is done, or an outcome is handed on, at last to a document further up.

When no thread is left, the crawl has reported (`Run.reported`), and all that can be reached was surveyed
(`Run.visited_of_reaches`).
-/

namespace HtmlDeps.Imports

open Memory

variable {load : Text → Except Fault Text} {url : Text} {c c' : Crawl} {t : Thread}
  {rest new : List Thread}

/-- How often a thread may still ask for a document and survey it. -/
def Thread.surveys : Thread → Nat
  | .scan _ => 2
  | .scanned _ _ => 1
  | .follow _ _ | .loaded _ _ _ | .collect _ _ _ | .rise _ _ => 0

/-- How far a thread is from the top, in turns: one at a slot of a document goes on at the document, and from
there at a slot of one that was entered before. -/
def Thread.height : Thread → Nat
  | .scan _ | .scanned _ _ => 0
  | .follow n _ => 2 * n + 4
  | .loaded n _ _ => 2 * n + 3
  | .collect n _ _ => 2 * n + 2
  | .rise n _ => 2 * n + 1

namespace Crawl

/-- The crawl may go on for ever. -/
def Endless (load : Text → Except Fault Text) (url : Text) : Prop :=
  ∃ f : Nat → Crawl, f 0 = start url ∧ ∀ k, Step load (f k) (f (k + 1))

/-! ### The report -/

/-- Until the crawl has reported, it is in order, and the work on the top document is not over. -/
def Busy (c : Crawl) : Prop :=
  c.report = none → Tidy (fun _ => True) c.memory c.threads ∧ c.memory.Active (places c.threads) 0

theorem Busy.turn (h : Busy c) (hthreads : c.threads.Perm (t :: rest)) :
    Busy (c.after load (turn (fun _ => true) c.memory t) rest) := by
  have hplaces : ∀ p, p ∈ places c.threads → p ∈ places (t :: rest) := fun p =>
    (hthreads.map Thread.place).mem_iff.1
  intro hreport
  unfold after at hreport ⊢
  have hbefore : c.report = none := by
    revert hreport
    split
    · exact id
    · exact id
    · exact nofun
  obtain ⟨htidy, hactive⟩ := h hbefore
  have hlands := (htidy.perm hthreads).turn
  have hactive := hactive.congr fun k => hplaces (.document k)
  unfold Lands at hlands
  cases hmove : (Imports.turn (fun _ => true) c.memory t).move with
  | ask u next =>
    rw [hmove] at hlands
    have hleads := hlands.2 (fun _ => True) (load u) (fun _ _ => trivial) fun _ => trivial
    exact ⟨hleads.tidy, hleads.active hactive⟩
  | leave new =>
    rw [hmove] at hlands
    exact ⟨hlands.tidy, hlands.active hactive⟩
  | finish outcome =>
    rw [hmove] at hreport
    cases hreport

theorem Run.busy (h : Run load url c) : Busy c := by
  induction h with
  | refl => exact fun _ => ⟨tidy_start _ url, active_start url⟩
  | tail _ hstep ih =>
    cases hstep with
    | turn hthreads => exact ih.turn hthreads

/-- A crawl that has come to its end has reported. -/
theorem Run.reported (h : Run load url c) (hended : c.threads = []) : c.report.isSome := by
  rw [Option.isSome_iff_ne_none]
  intro hreport
  obtain ⟨htidy, hactive⟩ := h.busy hreport
  obtain ⟨t, ht⟩ := htidy.exists_thread hactive
  rw [hended] at ht
  cases ht

/-! ### What was surveyed at the end -/

theorem Grounded.mem_visited_iff (h : Grounded load url c) {u : Text} :
    u ∈ c.memory.visited ↔ ∃ (n : Nat) (o : Outline), c.memory.outlines[n]? = some o ∧ o.url = u := by
  rw [h.visited, List.mem_map]
  constructor
  · rintro ⟨o, ho, rfl⟩
    obtain ⟨n, hn⟩ := List.getElem?_of_mem ho
    exact ⟨n, o, hn, rfl⟩
  · rintro ⟨n, o, ho, rfl⟩
    exact ⟨o, List.mem_of_getElem? ho, rfl⟩

theorem Grounded.reaches_of_visited (h : Grounded load url c) {u : Text} (hu : u ∈ c.memory.visited) :
    Reaches load url u := by
  obtain ⟨n, o, ho, rfl⟩ := h.mem_visited_iff.1 hu
  exact h.reached o (List.mem_of_getElem? ho)

/-- When no thread is left, all that can be reached was surveyed. -/
theorem Grounded.visited_of_reaches (h : Grounded load url c) (hended : c.threads = []) {u : Text}
    (hu : Reaches load url u) : u ∈ c.memory.visited := by
  induction hu with
  | refl =>
    obtain ⟨o, ho, hurl, -⟩ := h.top
    exact h.mem_visited_iff.2 ⟨0, o, ho, hurl⟩
  | tail _ himported ih =>
    obtain ⟨r, hr, henters, rfl⟩ := himported
    obtain ⟨n, o, ho, rfl⟩ := h.mem_visited_iff.1 ih
    have hcovered := h.covered n o ho
    rw [hended] at hcovered
    rcases hcovered with hmem | ⟨answer, hmem⟩ | ⟨hrefs, hcovered⟩
    · cases hmem
    · cases hmem
    · obtain ⟨i, hi⟩ := List.getElem?_of_mem hr
      exact (hcovered i r (hrefs ▸ hi) henters).resolve_right nofun

theorem Run.visited_of_reaches (h : Run load url c) (hended : c.threads = []) {u : Text}
    (hu : Reaches load url u) : u ∈ c.memory.visited :=
  h.grounded.visited_of_reaches hended hu

/-- No more documents are surveyed than can be reached. -/
theorem Run.length_visited_le (h : Run load url c) {urls : List Text}
    (hurls : ∀ u, Reaches load url u → u ∈ urls) : c.memory.visited.length ≤ urls.length := by
  have hsubset : c.memory.visited ⊆ urls := fun u hu => hurls u (h.grounded.reaches_of_visited hu)
  exact (List.subperm_of_subset h.grounded.nodup hsubset).length_le

/-! ### Every turn brings the end closer -/

/-- The work that threads may still do: documents to survey, and then turns on the way to the top. -/
def work (ts : List Thread) : Nat ×ₗ Nat :=
  toLex ((ts.map Thread.surveys).sum, (ts.map Thread.height).sum)

/-- How far a crawl is from its end, if no others than `urls` can be reached: documents to be entered, and
then the work of the threads. -/
def rank (urls : Finset Text) (c : Crawl) : Nat ×ₗ Nat ×ₗ Nat :=
  toLex ((urls \ c.memory.visited.toFinset).card, work c.threads)

theorem work_perm {ts ts' : List Thread} (h : ts.Perm ts') : work ts = work ts' := by
  rw [work, work, (h.map Thread.surveys).sum_eq, (h.map Thread.height).sum_eq]

theorem work_append_lt (h : work new < work [t]) (rest : List Thread) :
    work (new ++ rest) < work (t :: rest) := by
  rw [work, work, Prod.Lex.toLex_lt_toLex] at h ⊢
  simp only [List.map_append, List.sum_append, List.map_cons, List.map_nil, List.sum_cons,
    List.sum_nil] at h ⊢
  omega

/-- A turn in which no document is entered. -/
theorem rank_lt_of_work (new : List Thread) (urls : Finset Text) (hthreads : c.threads.Perm (t :: rest))
    (hvisited : c'.memory.visited = c.memory.visited) (hnew : c'.threads = new ++ rest)
    (h : work new < work [t]) : c'.rank urls < c.rank urls := by
  rw [rank, rank, hvisited, hnew, work_perm hthreads]
  exact Prod.Lex.toLex_lt_toLex.2 (.inr ⟨rfl, work_append_lt h rest⟩)

/-- Fewer are left when one more was seen. -/
theorem card_unseen_lt {urls : Finset Text} {seen seen' : List Text} {u : Text} (hu : u ∈ urls)
    (hfresh : u ∉ seen) (hsubset : seen ⊆ seen') (hseen : u ∈ seen') :
    (urls \ seen'.toFinset).card < (urls \ seen.toFinset).card := by
  refine Finset.card_lt_card (Finset.ssubset_iff_subset_ne.2 ⟨fun v hv => ?_, fun heq => ?_⟩)
  · rw [Finset.mem_sdiff, List.mem_toFinset] at hv ⊢
    exact ⟨hv.1, fun hmem => hv.2 (hsubset hmem)⟩
  · have hmem : u ∈ urls \ seen.toFinset := Finset.mem_sdiff.2 ⟨hu, fun hmem => hfresh (List.mem_toFinset.1 hmem)⟩
    rw [← heq, Finset.mem_sdiff, List.mem_toFinset] at hmem
    exact hmem.2 hseen

theorem rank_lt_of_visited {urls : Finset Text} {u : Text} (hu : u ∈ urls)
    (hfresh : u ∉ c.memory.visited) (hvisited : c'.memory.visited = c.memory.visited ++ [u]) :
    c'.rank urls < c.rank urls := by
  refine Prod.Lex.toLex_lt_toLex.2 (.inl (card_unseen_lt hu hfresh ?_ ?_))
  · exact hvisited ▸ List.subset_append_left _ _
  · exact hvisited ▸ List.mem_append_right _ List.mem_cons_self

/-- The work of threads without surveys is less than that of one which is further from the top. -/
theorem work_lt_of_height {ts : List Thread} (hsurveys : (ts.map Thread.surveys).sum = 0)
    (h : t.surveys = 0 → (ts.map Thread.height).sum < t.height) : work ts < work [t] := by
  rw [work, work, Prod.Lex.toLex_lt_toLex, hsurveys]
  rcases Nat.eq_zero_or_pos t.surveys with hzero | hpos
  · exact .inr ⟨by simp [hzero], by simpa using h hzero⟩
  · exact .inl (by simpa using hpos)

theorem work_nil_lt (t : Thread) : work [] < work [t] := by
  refine work_lt_of_height rfl fun hsurveys => ?_
  cases t with
  | scan | scanned => cases hsurveys
  | follow | loaded | collect | rise => exact Nat.succ_pos _

/-- Delivering a document brings a thread closer to the top. -/
theorem Grounded.rank_lt_of_deliver (h : Grounded load url c) (urls : Finset Text)
    (hthreads : c.threads.Perm (t :: rest)) {n : Nat} {d : Node} {m' m'' : Memory}
    {notes : List Text} {outcome : Except Fault (List Reference)} (hd : c.memory.nodes[n]? = some d)
    (hvisited : m'.visited = c.memory.visited) (ht : t.surveys = 0 → 2 * n < t.height) :
    (c.after load ⟨m', notes, m''.deliver d outcome⟩ rest).rank urls < c.rank urls := by
  obtain ⟨new, report, heq, hnew⟩ := exists_after_deliver load c m' m'' d notes outcome rest
  rw [heq]
  refine rank_lt_of_work _ urls hthreads hvisited rfl ?_
  rcases hnew with rfl | ⟨k, above, hline, rfl⟩
  · exact work_nil_lt t
  · have hbelow := (h.below n k _ above (getElem?_outlines hd) hline).1
    refine work_lt_of_height rfl fun hsurveys => ?_
    have hheight := ht hsurveys
    change 2 * k + 2 + 0 < t.height
    omega

/-- A turn brings the end closer. -/
theorem Grounded.rank_lt {urls : Finset Text} (h : Grounded load url c)
    (hurls : ∀ u, Reaches load url u → u ∈ urls) (hthreads : c.threads.Perm (t :: rest))
    {turn : Turn Memory Thread} (hturned : Turned c.memory t turn) :
    (c.after load turn rest).rank urls < c.rank urls := by
  have hleave : ∀ {m' : Memory} {notes : List Text} {new : List Thread},
      m'.visited = c.memory.visited → work new < work [t] →
      (c.after load ⟨m', notes, .leave new⟩ rest).rank urls < c.rank urls := fun hvisited hwork =>
    rank_lt_of_work _ urls hthreads hvisited rfl hwork
  have hask : ∀ {notes : List Text} {u : Text} {next : Except Fault Text → Thread},
      work [next (load u)] < work [t] →
      (c.after load ⟨c.memory, notes, .ask u next⟩ rest).rank urls < c.rank urls := fun hwork =>
    rank_lt_of_work [_] urls hthreads rfl rfl hwork
  -- Only entering a document adds a survey, and it leaves one URL fewer to visit; the other turns take
  -- a survey away, or bring a thread closer to its end.
  cases hturned with
  | lost => exact hleave rfl (work_nil_lt t)
  | scan hd => exact hask (Prod.Lex.toLex_lt_toLex.2 (.inl (Nat.lt_succ_self 1)))
  | refused hd => exact h.rank_lt_of_deliver urls hthreads hd rfl nofun
  | unreadable hd => exact h.rank_lt_of_deliver urls hthreads hd rfl nofun
  | bare hd => exact h.rank_lt_of_deliver urls hthreads hd rfl nofun
  | @spread n d contents refs hd =>
    refine hleave rfl (work_lt_of_height ?_ nofun)
    refine List.sum_eq_zero fun k hk => ?_
    rw [List.map_map] at hk
    obtain ⟨i, -, rfl⟩ := List.mem_map.1 hk
    rfl
  | misread => exact hleave rfl (work_lt_of_height rfl fun _ => by simp [Thread.height])
  | pass => exact hleave rfl (work_lt_of_height rfl fun _ => by simp [Thread.height])
  | @enter n i d r found hd hs henters hfresh =>
    have hgrounded := h.enter hthreads hd hs henters hfresh
    have hreaches : Reaches load url r.url :=
      hgrounded.reaches_of_visited (List.mem_append_right _ List.mem_cons_self)
    exact rank_lt_of_visited (hurls _ hreaches) hfresh rfl
  | fetch => exact hask (work_lt_of_height rfl fun _ => by simp [Thread.height])
  | loaded => exact hleave rfl (work_lt_of_height rfl fun _ => by simp [Thread.height])
  | dropped => exact hleave rfl (work_nil_lt _)
  | broken => exact hleave rfl (work_lt_of_height rfl fun _ => by simp [Thread.height])
  | filled =>
    refine hleave rfl ?_
    split
    · exact work_lt_of_height rfl fun _ => by simp [Thread.height]
    · exact work_nil_lt _
  | risen hd => exact h.rank_lt_of_deliver urls hthreads hd rfl fun _ => Nat.lt_succ_self _
  | sunk hd => exact h.rank_lt_of_deliver urls hthreads hd rfl fun _ => Nat.lt_succ_self _

theorem Run.rank_lt {urls : Finset Text} (h : Run load url c)
    (hurls : ∀ u, Reaches load url u → u ∈ urls) (hstep : Step load c c') : c'.rank urls < c.rank urls := by
  cases hstep with
  | turn hthreads => exact h.grounded.rank_lt hurls hthreads (turned _ _)

theorem run_of_steps {f : Nat → Crawl} (hstart : f 0 = start url)
    (hsteps : ∀ k, Step load (f k) (f (k + 1))) (k : Nat) : Run load url (f k) := by
  induction k with
  | zero => rw [hstart]
  | succ k ih => exact ih.tail (hsteps k)

theorem not_endless_of_finite (h : {u | Reaches load url u}.Finite) : ¬ Endless load url := by
  rintro ⟨f, hstart, hsteps⟩
  have hurls : ∀ u, Reaches load url u → u ∈ h.toFinset := fun u => h.mem_toFinset.2
  have hdown : ∀ k, (f (k + 1)).rank h.toFinset < (f k).rank h.toFinset := fun k =>
    (run_of_steps hstart hsteps k).rank_lt hurls (hsteps k)
  obtain ⟨k, hk⟩ := WellFounded.not_rel_apply_succ (r := (· < ·)) fun k => (f k).rank h.toFinset
  exact hk (hdown k)

/-! ### Crawls that do not end -/

/-- As long as something was not surveyed, the crawl goes on. -/
theorem Run.exists_step (hinfinite : {u | Reaches load url u}.Infinite) (h : Run load url c) :
    ∃ c', Step load c c' := by
  cases hthreads : c.threads with
  | nil =>
    refine absurd (Set.Finite.subset (List.finite_toSet c.memory.visited) fun u hu => ?_) hinfinite
    exact h.visited_of_reaches hthreads hu
  | cons t rest => exact ⟨_, .turn (.of_eq hthreads)⟩

theorem endless_of_infinite (h : {u | Reaches load url u}.Infinite) : Endless load url := by
  choose next hnext using fun c : { c // Run load url c } => c.2.exists_step h
  let run (k : Nat) : { c // Run load url c } :=
    k.rec ⟨start url, .refl⟩ fun _ c => ⟨next c, c.2.tail (hnext c)⟩
  exact ⟨fun k => (run k).1, rfl, fun k => hnext (run k)⟩

/-- A crawl may go on for ever exactly if infinitely many documents can be reached. -/
theorem endless_iff : Endless load url ↔ {u | Reaches load url u}.Infinite :=
  ⟨fun h hfinite => not_endless_of_finite hfinite h, endless_of_infinite⟩

end Crawl

end HtmlDeps.Imports
