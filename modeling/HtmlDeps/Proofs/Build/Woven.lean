import HtmlDeps.Proofs.Build.Cases
import HtmlDeps.Proofs.Build.Flight
import HtmlDeps.Proofs.Build.Step

/-!
# The analyses of a running build

An analysis of a running build is about to begin, or is a tidy crawl whose top document is active, or
is over (`Crawling`).  The threads under way are those of the analyses (`Woven`), and every job that
lets the build go on keeps it so (`Woven.run`).  A fault in a crawl is not forgotten as long as the
build goes on (`Doomed`).

A job in hand is put in front of the others: it still holds the thread that it lets go on.
-/

namespace HtmlDeps.Build

open Imports

variable {s : Setup} {b b' : Build importer} {asked asked' : Text → Prop} {ts ts' : List Thread}
  {j : Job importer} {a : Nat} {x : Analysis importer}

/-- How the crawl of an analysis, its outcome and its threads belong together. -/
inductive Crawling (asked : Text → Prop) :
    Option (Text × Memory) → Option (Except Fault Unit) → List Thread → Prop
  | fresh : Crawling asked none none [.scan 0]
  | active {url : Text} {m : Memory} {ts : List Thread} (htidy : Tidy asked m ts)
      (htop : m.Active (places ts) 0) : Crawling asked (some (url, m)) none ts
  | ended {url : Text} {m : Memory} : Crawling asked (some (url, m)) (some (.ok ())) []

theorem Crawling.perm {crawl : Option (Text × Memory)} {outcome : Option (Except Fault Unit)}
    (h : Crawling asked crawl outcome ts) (hperm : ts.Perm ts') :
    Crawling asked crawl outcome ts' := by
  cases h with
  | fresh =>
    obtain rfl := List.perm_singleton.1 hperm.symm
    exact .fresh
  | active htidy htop =>
    exact .active (htidy.perm hperm) (htop.congr fun _ => ((hperm.map Thread.place).mem_iff).1)
  | ended =>
    obtain rfl := List.perm_nil.1 hperm.symm
    exact .ended

theorem Crawling.mono {crawl : Option (Text × Memory)} {outcome : Option (Except Fault Unit)}
    (hasked : ∀ u, asked u → asked' u) (h : Crawling asked crawl outcome ts) :
    Crawling asked' crawl outcome ts := by
  cases h with
  | fresh => exact .fresh
  | active htidy htop => exact .active (htidy.mono hasked) htop
  | ended => exact .ended

/-- A job fits the analyses. -/
def Admits (b : Build importer) : Job importer → Prop
  | .begin a => ∃ x, b.analyses[a]? = some x ∧ x.crawl = none
  | .load _ _ => False
  | .expire w => w.caller.Steady
  | _ => True

/-- The threads under way are those of the analyses. -/
structure Woven (s : Setup) (b : Build importer) : Prop where
  waiting : ∀ w ∈ b.waiting, w.caller.Steady
  ready : ∀ y ∈ b.ready, b.Admits y.2
  begins : ∀ (a : Nat) (x : Analysis importer), b.analyses[a]? = some x → x.crawl = none →
    ∃ n, (n, .begin a) ∈ b.ready
  idle : ∀ a, b.analyses[a]? = none → b.flight a = []
  own : ∀ (a : Nat) (x : Analysis importer), b.analyses[a]? = some x → x.client = false
  crawls : ∀ (a : Nat) (x : Analysis importer), b.analyses[a]? = some x →
    Crawling (Asked s b) x.crawl x.outcome (b.flight a)

/-- A fault has come up in an analysis that is not over. -/
def Doomed (b : Build importer) : Prop :=
  ∃ (a : Nat) (x : Analysis importer) (url : Text) (m : Memory), b.analyses[a]? = some x ∧
    x.crawl = some (url, m) ∧ x.outcome = none ∧ m.Broken (b.flight a)

/-! ### Jobs that leave the crawls alone -/

theorem Job.Follows.admits (h : j.Follows) : b.Admits j := by
  cases j with
  | turn | loaded | pumpDependencies => trivial
  | pumpSources | closeSources | deliver | begin | load | expire => exact h.elim

theorem Admits.congr (h : b.Admits j) (hanalyses : b'.analyses = b.analyses) : b'.Admits j := by
  cases j with
  | begin a =>
    obtain ⟨x, hx, hcrawl⟩ := h
    exact ⟨x, hanalyses ▸ hx, hcrawl⟩
  | load n u => exact h
  | expire w => exact h
  | _ => trivial

theorem Doomed.congr (h : Doomed b) (hanalyses : b'.analyses = b.analyses)
    (hflight : ∀ a, (b'.flight a).Perm (b.flight a)) : Doomed b' := by
  obtain ⟨a, x, url, m, hx, hcrawl, houtcome, hbroken⟩ := h
  exact ⟨a, x, url, m, hanalyses ▸ hx, hcrawl, houtcome, hbroken.perm (hflight a).symm⟩

/-- A job is done and lets its thread go on. -/
theorem Woven.calm (h : Woven s (b.goOn j)) (hj : ∀ a, j ≠ .begin a)
    {fs : Table Text File} (hcalm : Calm s { b with files := fs } b')
    (hwaiting : ∀ w ∈ b'.waiting, w.caller.Steady) (hsought : ∀ u, Sought s b u → Sought s b' u)
    (hflight : ∀ a, (b'.flight a).Perm ((b.goOn j).flight a)) : Woven s b' where
  waiting := hwaiting
  ready y hy := by
    rcases hcalm.ready y hy with hy | hfollows
    · exact (h.ready y (List.mem_cons_of_mem _ hy)).congr hcalm.analyses
    · exact Job.Follows.admits hfollows
  begins a x hx hcrawl := by
    rw [hcalm.analyses] at hx
    obtain ⟨n, hn⟩ := h.begins a x hx hcrawl
    rcases List.mem_cons.1 hn with hn | hn
    · exact absurd (Prod.mk.inj hn).2.symm (hj a)
    · exact ⟨n, hcalm.kept _ hn⟩
  idle a ha := by
    rw [hcalm.analyses] at ha
    exact List.perm_nil.1 (h.idle a ha ▸ hflight a)
  own a x hx := h.own a x (hcalm.analyses ▸ hx)
  crawls a x hx := by
    rw [hcalm.analyses] at hx
    exact ((h.crawls a x hx).mono fun u => Or.imp_right (hsought u)).perm (hflight a).symm

theorem flight_goOn_of_none (hj : ∀ a, j.errand? a = none) (a : Nat) :
    (b.goOn j).flight a = b.flight a := by
  rw [flight_goOn, hj a]
  rfl

/-- A job that lets no thread go on is done. -/
theorem Woven.drop (h : Woven s (b.goOn j)) (hj : ∀ a, j.errand? a = none) : Woven s b := by
  refine h.calm ?_ (.refl b) h.waiting (fun _ hu => hu) fun a => ?_
  · rintro a rfl
    have hnone := hj a
    simp [Job.errand?] at hnone
  · rw [flight_goOn_of_none hj]

theorem Woven.goOn (h : Woven s b) (hj : ∀ a, j.errand? a = none) (hadmits : b.Admits j) :
    Woven s (b.goOn j) where
  waiting := h.waiting
  ready y hy := by
    rcases List.mem_cons.1 hy with rfl | hy
    · exact hadmits.congr rfl
    · exact (h.ready y hy).congr rfl
  begins a x hx hcrawl := by
    obtain ⟨n, hn⟩ := h.begins a x hx hcrawl
    exact ⟨n, List.mem_cons_of_mem _ hn⟩
  idle a ha := by
    rw [flight_goOn_of_none hj]
    exact h.idle a ha
  own := h.own
  crawls a x hx := by
    rw [flight_goOn_of_none hj]
    exact h.crawls a x hx

theorem Woven.still (h : Woven s b) {fs : Table Text File}
    (hcalm : Calm s { b with files := fs } b') (hstill : Still s b b') : Woven s b' := by
  have hpump : Woven s (b.goOn .pumpDependencies) := h.goOn (fun _ => rfl) trivial
  refine hpump.calm nofun hcalm (fun w hw => h.waiting w (hstill.waiting w hw)) hstill.sought
    fun a => ?_
  rw [flight_goOn_of_none fun _ => rfl]
  exact hstill.flight h.waiting a

theorem Doomed.still (h : Doomed b) (hwoven : Woven s b) {fs : Table Text File}
    (hcalm : Calm s { b with files := fs } b') (hstill : Still s b b') : Doomed b' := h.congr hcalm.analyses (hstill.flight hwoven.waiting)

/-- The order of the jobs and the rounds that they let pass do not matter. -/
theorem flight_perm_of_jobs (hjobs : (b'.ready.map (·.2)).Perm (b.ready.map (·.2)))
    (hwaiting : b'.waiting = b.waiting) (a : Nat) : (b'.flight a).Perm (b.flight a) := by
  have hready : ∀ b : Build importer, b.ready.filterMap (fun y => y.2.errand? a) =
      (b.ready.map (·.2)).filterMap (·.errand? a) := fun b => by
    rw [List.filterMap_map]
    rfl
  rw [flight, flight, hready, hready, hwaiting]
  exact (hjobs.filterMap _).append_right _

theorem exists_job_of_perm {js js' : List (Nat × Job importer)}
    (h : (js'.map (·.2)).Perm (js.map (·.2))) {n : Nat} (hj : (n, j) ∈ js) :
    ∃ n, (n, j) ∈ js' := by
  obtain ⟨⟨n', _⟩, hmem, rfl⟩ := List.mem_map.1 (h.mem_iff.2 (List.mem_map_of_mem hj))
  exact ⟨n', hmem⟩

theorem Woven.rearrange (h : Woven s b) {js : List (Nat × Job importer)}
    (hjobs : (js.map (·.2)).Perm (b.ready.map (·.2))) : Woven s { b with ready := js } := by
  have hflight : ∀ a, (flight { b with ready := js } a).Perm (b.flight a) :=
    flight_perm_of_jobs hjobs rfl
  refine ⟨h.waiting, fun ⟨n, j⟩ hy => ?_, fun a x hx hcrawl => ?_, fun a ha => ?_, h.own,
    fun a x hx => (h.crawls a x hx).perm (hflight a).symm⟩
  · obtain ⟨n', hn'⟩ := exists_job_of_perm hjobs.symm hy
    exact (h.ready _ hn').congr rfl
  · obtain ⟨n, hn⟩ := h.begins a x hx hcrawl
    exact exists_job_of_perm hjobs hn
  · exact List.perm_nil.1 (h.idle a ha ▸ hflight a)

/-! ### Jobs that change an analysis -/

/-- An analysis is changed, and the others stay as they are. -/
theorem Woven.advance (h : Woven s (b.goOn j)) (x' : Analysis importer)
    (hx : b.analyses[a]? = some x) (hcrawl : x'.crawl ≠ none) (hown : x'.client = false)
    (hj : ∀ a', a' ≠ a → j ≠ .begin a') (hbegin : ∀ n, (n, .begin a) ∉ b.ready)
    (hanalyses : b'.analyses = b.analyses.set a x') (hwaiting : ∀ w ∈ b'.waiting, w.caller.Steady)
    (hready : ∀ y ∈ b'.ready, y ∈ b.ready ∨ b'.Admits y.2) (hkept : ∀ y ∈ b.ready, y ∈ b'.ready)
    (hsought : ∀ u, Sought s b u → Sought s b' u)
    (hflight : ∀ a', a' ≠ a → (b'.flight a').Perm ((b.goOn j).flight a'))
    (hcrawling : Crawling (Asked s b') x'.crawl x'.outcome (b'.flight a)) : Woven s b' := by
  have hself : b'.analyses[a]? = some x' := by
    rw [hanalyses, List.getElem?_set_self (List.getElem?_eq_some_iff.1 hx).1]
  have hother : ∀ a', a' ≠ a → b'.analyses[a']? = b.analyses[a']? := fun a' ha => by
    rw [hanalyses, List.getElem?_set_ne (Ne.symm ha)]
  exact {
    waiting := hwaiting
    ready := fun ⟨n, j'⟩ hy => by
      rcases hready _ hy with hy | hadmits
      · have hold := h.ready _ (List.mem_cons_of_mem _ hy)
        cases j' with
        | begin a' =>
          -- The analysis that advances has begun, so a job to begin one is that of another.
          have ha : a' ≠ a := by
            rintro rfl
            exact hbegin n hy
          obtain ⟨z, hz, hnone⟩ := hold
          exact ⟨z, (hother a' ha).trans hz, hnone⟩
        | load n' u => exact hold
        | expire w => exact hold
        | pumpSources | closeSources | pumpDependencies | deliver | turn | loaded => trivial
      · exact hadmits
    begins := fun a' y hy hnone => by
      by_cases ha : a' = a
      · subst ha
        obtain rfl := Option.some.inj (hself.symm.trans hy)
        exact absurd hnone hcrawl
      · obtain ⟨n, hn⟩ := h.begins a' y ((hother a' ha).symm.trans hy) hnone
        rcases List.mem_cons.1 hn with hn | hn
        · exact absurd (Prod.mk.inj hn).2.symm (hj a' ha)
        · exact ⟨n, hkept _ hn⟩
    idle := fun a' ha' => by
      have ha : a' ≠ a := by
        rintro rfl
        rw [hself] at ha'
        cases ha'
      exact List.perm_nil.1 (h.idle a' ((hother a' ha).symm.trans ha') ▸ hflight a' ha)
    own := fun a' y hy => by
      by_cases ha : a' = a
      · subst ha
        obtain rfl := Option.some.inj (hself.symm.trans hy)
        exact hown
      · exact h.own a' y ((hother a' ha).symm.trans hy)
    crawls := fun a' y hy => by
      by_cases ha : a' = a
      · subst ha
        obtain rfl := Option.some.inj (hself.symm.trans hy)
        exact hcrawling
      · exact ((h.crawls a' y ((hother a' ha).symm.trans hy)).mono
          fun u => Or.imp_right (hsought u)).perm (hflight a' ha).symm }

/-- A fault stays in an analysis that is not over. -/
theorem Doomed.advance (h : Doomed (b.goOn j)) (x' : Analysis importer)
    (hx : b.analyses[a]? = some x) (hanalyses : b'.analyses = b.analyses.set a x')
    (hflight : ∀ a', a' ≠ a → (b'.flight a').Perm ((b.goOn j).flight a'))
    (hbroken : ∀ url m, x.crawl = some (url, m) → m.Broken ((b.goOn j).flight a) →
      ∃ url' m', x'.crawl = some (url', m') ∧ x'.outcome = none ∧ m'.Broken (b'.flight a)) :
    Doomed b' := by
  obtain ⟨a', y, url, m, hy, hcrawl, houtcome, hfault⟩ := h
  have hlength := (List.getElem?_eq_some_iff.1 hx).1
  by_cases ha : a' = a
  · subst ha
    obtain rfl := Option.some.inj (hx.symm.trans hy)
    obtain ⟨url', m', hrest⟩ := hbroken url m hcrawl hfault
    exact ⟨a', x', url', m', by rw [hanalyses, List.getElem?_set_self hlength], hrest⟩
  · exact ⟨a', y, url, m, by rw [hanalyses, List.getElem?_set_ne (Ne.symm ha)]; exact hy, hcrawl,
      houtcome, hfault.perm (hflight a' ha).symm⟩

theorem analyses_analyze {y : Analysis importer} (p : Path) (hy : (b.analyze p false).analyses[a]? = some y) :
    b.analyses[a]? = some y ∧ a ≠ b.analyses.length ∨ a = b.analyses.length ∧ y = ⟨p, false, none, none⟩ := by
  by_cases ha : a < b.analyses.length
  · exact .inl ⟨by rwa [Build.analyze, schedule, List.getElem?_append_left ha] at hy, Nat.ne_of_lt ha⟩
  · right
    rw [Build.analyze, schedule, List.getElem?_append_right (Nat.le_of_not_lt ha),
      List.getElem?_singleton] at hy
    split at hy
    · exact ⟨by omega, (Option.some.inj hy).symm⟩
    · cases hy

theorem flight_analyze (b : Build importer) (p : Path) (a : Nat) : ((b.analyze p false).flight a).Perm
    ((Job.errand? a (.begin b.analyses.length)).toList ++ b.flight a) :=
  flight_schedule { b with analyses := b.analyses ++ [⟨p, false, none, none⟩] } 0

theorem flight_analyze_ne (p : Path) (ha : a ≠ b.analyses.length) :
    ((b.analyze p false).flight a).Perm (b.flight a) := by
  have hperm := flight_analyze b p a
  rwa [Job.errand?_begin_of_ne (Ne.symm ha)] at hperm

/-- An analysis is started. -/
theorem Woven.analyze (h : Woven s b) (p : Path) : Woven s (b.analyze p false) where
  waiting := h.waiting
  ready := by
    rintro ⟨n, j⟩ hy
    rcases List.mem_append.1 hy with hy | hy
    · have hold := h.ready _ hy
      cases j with
      | begin a =>
        obtain ⟨x, hx, hcrawl⟩ := hold
        exact ⟨x, (List.getElem?_append_left (List.getElem?_eq_some_iff.1 hx).1).trans hx, hcrawl⟩
      | load n' u => exact hold
      | expire w => exact hold
      | pumpSources | closeSources | pumpDependencies | deliver | turn | loaded => trivial
    · obtain ⟨-, rfl⟩ := Prod.mk.inj (List.mem_singleton.1 hy)
      exact ⟨⟨p, false, none, none⟩, by simp [Build.analyze, schedule], rfl⟩
  begins a x hx hcrawl := by
    rcases analyses_analyze p hx with ⟨hx, -⟩ | ⟨rfl, rfl⟩
    · obtain ⟨n, hn⟩ := h.begins a x hx hcrawl
      exact ⟨n, List.mem_append_left _ hn⟩
    · exact ⟨0, List.mem_append_right _ List.mem_cons_self⟩
  idle a ha := by  -- The new analysis comes last, so a number beyond it was beyond the others as well.
    have hlength : b.analyses.length + 1 ≤ a := by
      simpa [Build.analyze, schedule] using ha
    have hperm := flight_analyze_ne p (b := b) (a := a) (by omega)
    rw [h.idle a (List.getElem?_eq_none (by omega))] at hperm
    exact List.perm_nil.1 hperm
  own a x hx := by
    rcases analyses_analyze p hx with ⟨hx, -⟩ | ⟨-, rfl⟩
    · exact h.own a x hx
    · rfl
  crawls a x hx := by
    rcases analyses_analyze p hx with ⟨hx, ha⟩ | ⟨rfl, rfl⟩
    · exact (h.crawls a x hx).perm (flight_analyze_ne p ha).symm
    · have hperm := flight_analyze b p b.analyses.length
      rw [h.idle _ (List.getElem?_eq_none (Nat.le_refl _)), Job.errand?_begin] at hperm
      exact Crawling.fresh.perm hperm.symm

theorem Doomed.analyze (h : Doomed b) (p : Path) : Doomed (b.analyze p false) := by
  obtain ⟨a, x, url, m, hx, hcrawl, houtcome, hbroken⟩ := h
  have hlength := (List.getElem?_eq_some_iff.1 hx).1
  refine ⟨a, x, url, m, (List.getElem?_append_left hlength).trans hx, hcrawl, houtcome, ?_⟩
  exact hbroken.perm (flight_analyze_ne p (Nat.ne_of_lt hlength)).symm

/-! ### The turn of a thread -/

theorem mem_flight_of_ready {n : Nat} {t : Thread} (hj : (n, j) ∈ b.ready)
    (herrand : j.errand? a = some t) : t ∈ b.flight a :=
  List.mem_append_left _ (List.mem_filterMap.2 ⟨_, hj, herrand⟩)

theorem map_emptied_flight (b : Build importer) (a : Nat) :
    (b.flight a).map Thread.emptied = b.flight a := by
  -- Threads are counted as under way once they are emptied, and emptying twice changes nothing.
  have hcaller : ∀ c : Caller importer, ∀ t, c.errand? a = some t → t.emptied = t := by
    intro c t ht
    cases c with
    | thread k next =>
      simp only [Caller.errand?] at ht
      split at ht
      · exact (Option.some.inj ht) ▸ emptied_emptied _
      · cases ht
    | client n => cases ht
  refine (List.map_congr_left fun t ht => ?_).trans (List.map_id _)
  rcases List.mem_append.1 ht with ht | ht
  · obtain ⟨⟨n, j⟩, -, ht⟩ := List.mem_filterMap.1 ht
    cases j with
    | begin k =>
      simp only [Job.errand?] at ht
      split at ht
      · rw [← Option.some.inj ht]
        rfl
      · cases ht
    | turn k t' =>
      simp only [Job.errand?] at ht
      split at ht
      · exact (Option.some.inj ht) ▸ emptied_emptied _
      · cases ht
    | expire w => exact hcaller w.caller t ht
    | pumpSources | closeSources | pumpDependencies | deliver | load | loaded => cases ht
  · obtain ⟨w, -, ht⟩ := List.mem_filterMap.1 ht
    exact hcaller w.caller t ht

theorem flight_turn (b : Build importer) (a : Nat) (t : Thread) :
    (b.goOn (.turn a t)).flight a = (t :: b.flight a).map Thread.emptied := by
  rw [flight_goOn, Job.errand?_turn, List.map_cons, map_emptied_flight]
  rfl

theorem flight_turn_ne {a' : Nat} (ha : a' ≠ a) (b : Build importer) (t : Thread) :
    (b.goOn (.turn a t)).flight a' = b.flight a' := by
  rw [flight_goOn, Job.errand?_turn_of_ne (Ne.symm ha)]
  rfl

/-- A thread in hand belongs to a tidy crawl. -/
theorem Woven.crawl_of_turn {t : Thread} (h : Woven s (b.goOn (.turn a t))) :
    ∃ (x : Analysis importer) (url : Text) (m : Memory), b.analyses[a]? = some x ∧
      x.client = false ∧ x.crawl = some (url, m) ∧ x.outcome = none ∧
      Tidy (Asked s b) m (t :: b.flight a) ∧ m.Active (places (t :: b.flight a)) 0 ∧
      ∀ n, (n, .begin a) ∉ b.ready := by
  have hflight := flight_turn b a t
  cases hx : b.analyses[a]? with
  | none =>
    rw [h.idle a hx] at hflight
    cases hflight
  | some x =>
    have hcrawling := h.crawls a x hx
    rw [hflight] at hcrawling
    cases hcrawl : x.crawl with
    | none =>
      obtain ⟨n, hn⟩ := h.begins a x hx hcrawl
      have hbegin : (n, .begin a) ∈ b.ready := by
        rcases List.mem_cons.1 hn with hn | hn
        · cases hn
        · exact hn
      have hmem : Thread.scan 0 ∈ b.flight a :=
        mem_flight_of_ready hbegin (Job.errand?_begin a)
      generalize hts : (t :: b.flight a).map Thread.emptied = ts at hcrawling
      rw [hcrawl] at hcrawling
      generalize x.outcome = outcome at hcrawling
      cases hcrawling with
      -- An analysis yet to begin has one job in flight, the one to begin it; with the thread in hand
      -- there would be two.
      | fresh =>
        have hlength := congrArg List.length hts
        rw [List.length_map, List.length_cons, List.length_singleton] at hlength
        have hnil : b.flight a = [] := List.eq_nil_of_length_eq_zero (by omega)
        rw [hnil] at hmem
        cases hmem
    | some crawl =>
      obtain ⟨url, m⟩ := crawl
      have hbegin : ∀ n, (n, .begin a) ∉ b.ready := by
        intro n hn
        obtain ⟨y, hy, hnone⟩ := h.ready _ (List.mem_cons_of_mem _ hn)
        obtain rfl : x = y := Option.some.inj (hx.symm.trans hy)
        rw [hcrawl] at hnone
        cases hnone
      generalize hts : (t :: b.flight a).map Thread.emptied = ts at hcrawling
      rw [hcrawl] at hcrawling
      generalize houtcome : x.outcome = outcome at hcrawling
      cases hcrawling with
      | active htidy htop =>
        rw [← hts] at htidy htop
        rw [places_map_emptied] at htop
        exact ⟨x, url, m, rfl, h.own a x hx, hcrawl, houtcome, tidy_map_emptied_iff.1 htidy, htop, hbegin⟩
      | ended => cases hts  -- A crawl that has ended has no threads.

theorem filterMap_turns_cons (a k : Nat) (t : importer.Thread) (ts : List importer.Thread) :
    (((t :: ts).map (Job.turn a)).map fun j => (0, j)).filterMap
      (fun y : Nat × Job importer => y.2.errand? k) =
    ((Job.turn a t).errand? k).toList ++ ((ts.map (Job.turn a)).map fun j => (0, j)).filterMap
      fun y : Nat × Job importer => y.2.errand? k := by
  rw [List.map_cons, List.map_cons]
  cases h : (Job.turn a t).errand? k with
  | none => exact List.filterMap_cons_none h
  | some t' => exact List.filterMap_cons_some h

theorem filterMap_turns (a k : Nat) (ts : List Thread) :
    ((ts.map (Job.turn (C := importer) a)).map fun j => (0, j)).filterMap
      (fun y : Nat × Job importer => y.2.errand? k) =
    if k = a then ts.map Thread.emptied else [] := by
  induction ts with
  | nil => split <;> rfl
  | cons t ts ih =>
    refine (filterMap_turns_cons a k t ts).trans ?_
    by_cases hk : k = a
    · subst hk
      rw [if_pos rfl] at ih ⊢
      exact (congrArg₂ (·.toList ++ ·) (Job.errand?_turn k t) ih :)
    · rw [if_neg hk] at ih ⊢
      exact (congrArg₂ (·.toList ++ ·) (Job.errand?_turn_of_ne (Ne.symm hk) t) ih :)

theorem flight_scheduleAll (b : Build importer) (a k : Nat) (ts : List Thread) :
    ((b.scheduleAll (ts.map (.turn a))).flight k).Perm
      ((if k = a then ts.map Thread.emptied else []) ++ b.flight k) := by
  have hflight : (b.scheduleAll (ts.map (.turn a))).flight k =
      b.ready.filterMap (fun y => y.2.errand? k) ++ (if k = a then ts.map Thread.emptied else []) ++
        b.waiting.filterMap fun w => w.caller.errand? k := by
    rw [← filterMap_turns, ← List.filterMap_append]
    rfl
  rw [hflight, flight, ← List.append_assoc]
  exact List.perm_append_comm.append_right _

/-- What a turn does to a running build, and why its crawl stays tidy. -/
inductive Turned (s : Setup) (b : Build importer) (a : Nat) (t : Thread) (x : Analysis importer)
    (b₁ b' : Build importer) (m m' : Memory) : Prop
  | ask {u : Text} {next : Except Fault Text → Thread} (hb' : b' = b₁.load s u (.thread a next))
      (hsteady : Imports.Steady next)
      (hleads : ∀ (asked' : Text → Prop) (answer : Except Fault Text),
        (∀ u, Asked s b u → asked' u) → (answer.isOk → asked' u) →
          Leads asked' m (t :: b.flight a) m' (next answer :: b.flight a))
  | leave {ts : List Thread} (hb' : b' = b₁.scheduleAll (ts.map (.turn a)))
      (hleads : Leads (Asked s b) m (t :: b.flight a) m' (ts ++ b.flight a))
  | finish {url : Text} {r : Report} (hb' : b' = b₁.conclude s a x.path url r)
      (hover : b.flight a = []) (hsound : ¬ m.Broken [t])
      (hasked : ∀ y : Reference, y ∈ r.references → Asked s b y.url)

theorem Woven.turned {t : Thread} (h : Woven s (b.goOn (.turn a t)))
    (hstatus : (b.turn s a t).status ≠ .failed) :
    ∃ (x : Analysis importer) (url : Text) (m m' : Memory) (log : List Log.Entry),
      b.analyses[a]? = some x ∧ x.client = false ∧ x.crawl = some (url, m) ∧ x.outcome = none ∧
      m.Active (places (t :: b.flight a)) 0 ∧ (∀ n, (n, .begin a) ∉ b.ready) ∧
      Turned s b a t x (b.moved a { x with crawl := some (url, m') } log) (b.turn s a t) m m' := by
  obtain ⟨x, url, m, hx, hown, hcrawl, houtcome, htidy, htop, hbegin⟩ := h.crawl_of_turn
  obtain ⟨b₁, log, rfl, hmove⟩ := turn_cases hx hown hcrawl rfl hstatus
  refine ⟨x, url, m, (importer.turn m t).memory, log, hx, hown, hcrawl, houtcome, htop, hbegin, ?_⟩
  have hlands : Lands (Asked s b) m t (b.flight a) (importer.turn m t) := htidy.turn
  unfold Lands at hlands
  rcases hmove with ⟨u, next, hmove, hb'⟩ | ⟨ts, hmove, hb'⟩ | ⟨r, hmove, hb'⟩
  · rw [hmove] at hlands
    exact .ask hb' hlands.1 hlands.2
  · rw [hmove] at hlands
    exact .leave hb' hlands
  · rw [hmove] at hlands
    obtain ⟨htidy', hwell, hbroken, hasked⟩ := hlands r rfl
    obtain ⟨hover, hsound⟩ := htidy'.ended hwell
    rw [hover] at hbroken hsound
    exact .finish hb' hover (fun h => hsound (hbroken h)) fun y hy => (hasked y hy).elim .inl id

/-- A crawl that is led on, with its threads as they are under way. -/
theorem Crawling.of_leads {m m' : Memory} {url : Text} (h : Leads asked m ts m' ts')
    (htop : m.Active (places ts) 0) {us : List Thread}
    (hperm : us.Perm (ts'.map Thread.emptied)) : Crawling asked (some (url, m')) none us := by
  have htop' := h.active htop
  rw [← places_map_emptied] at htop'
  exact (Crawling.active (tidy_map_emptied_iff.2 h.tidy) htop').perm hperm.symm

theorem broken_of_leads {m m' : Memory} {t : Thread} (h : Leads asked m (t :: b.flight a) m' ts')
    {us : List Thread} (hperm : us.Perm (ts'.map Thread.emptied))
    (hbroken : m.Broken ((b.goOn (.turn a t)).flight a)) : m'.Broken us := by
  rw [flight_turn, broken_map_emptied_iff] at hbroken
  exact (broken_map_emptied_iff.2 (h.broken hbroken)).perm hperm.symm

section

variable {t : Thread} {x' : Analysis importer} {url url' : Text} {m m' : Memory}
  {log : List Log.Entry}

theorem Woven.ask (hp : s.project.Rooted) (h : Woven s (b.goOn (.turn a t))) {u : Text}
    {next : Except Fault Text → Thread} (hb' : b' = (b.moved a x' log).load s u (.thread a next))
    (hx : b.analyses[a]? = some x) (hcrawl : x.crawl = some (url, m))
    (htop : m.Active (places (t :: b.flight a)) 0) (hbegin : ∀ n, (n, .begin a) ∉ b.ready)
    (hown : x'.client = false) (hcrawl' : x'.crawl = some (url, m')) (houtcome : x'.outcome = none)
    (hsteady : Imports.Steady next)
    (hleads : ∀ (asked' : Text → Prop) (answer : Except Fault Text),
      (∀ u, Asked s b u → asked' u) → (answer.isOk → asked' u) →
        Leads asked' m (t :: b.flight a) m' (next answer :: b.flight a)) :
    Woven s b' ∧ (Doomed (b.goOn (.turn a t)) → Doomed b') ∧ ∀ u, Sought s b u → Sought s b' u := by
  -- Whether the text is there, awaited or refused, one errand of the analysis is under way for it.
  have hasks := asks_load hp (b.moved a x' log) u (.thread a next)
  have hcalm := calm_load (s := s) (b.moved a x' log) u (.thread a next)
  rw [← hb'] at hasks hcalm
  obtain ⟨answer, hok, hflight⟩ := hasks.flight hsteady h.waiting
  have hlead := hleads _ answer (fun v => Or.imp_right (hasks.sought v)) hok
  have hresume : ∀ k, ((Caller.thread a next : Caller importer).resume answer).errand? k =
      (Job.turn a (next answer)).errand? k := fun _ => rfl
  have hself : (b'.flight a).Perm ((next answer :: b.flight a).map Thread.emptied) := by
    have hperm := hflight a
    rw [hresume, Job.errand?_turn] at hperm
    rw [List.map_cons, map_emptied_flight]
    exact hperm
  have hother : ∀ a', a' ≠ a → (b'.flight a').Perm ((b.goOn (.turn a t)).flight a') := by
    intro a' ha
    have hperm := hflight a'
    rw [hresume, Job.errand?_turn_of_ne (Ne.symm ha)] at hperm
    rw [flight_turn_ne ha]
    exact hperm
  refine ⟨h.advance x' hx (by rw [hcrawl']; nofun) hown (fun _ _ => nofun) hbegin hcalm.analyses (fun w hw => ?_)
    (fun y hy => (hcalm.ready y hy).imp_right Job.Follows.admits) hcalm.kept hasks.sought hother ?_,
    fun hdoomed => hdoomed.advance x' hx hcalm.analyses hother fun url' m₀ hcrawl₀ hbroken => ?_,
    hasks.sought⟩
  · rcases hasks.waiting w hw with hw | hw
    · exact h.waiting w hw
    · rw [hw]
      exact hsteady
  · rw [hcrawl', houtcome]
    exact .of_leads hlead htop hself
  · obtain ⟨-, rfl⟩ := Prod.mk.inj (Option.some.inj (hcrawl.symm.trans hcrawl₀))
    exact ⟨url, m', hcrawl', houtcome, broken_of_leads hlead hself hbroken⟩

theorem Woven.leave (h : Woven s (b.goOn (.turn a t)))
    (hb' : b' = (b.moved a x' log).scheduleAll (ts.map (.turn a)))
    (hx : b.analyses[a]? = some x) (hcrawl : x.crawl = some (url, m))
    (htop : m.Active (places (t :: b.flight a)) 0) (hbegin : ∀ n, (n, .begin a) ∉ b.ready)
    (hown : x'.client = false) (hcrawl' : x'.crawl = some (url, m')) (houtcome : x'.outcome = none)
    (hleads : Leads (Asked s b) m (t :: b.flight a) m' (ts ++ b.flight a)) :
    Woven s b' ∧ (Doomed (b.goOn (.turn a t)) → Doomed b') ∧ ∀ u, Sought s b u → Sought s b' u := by
  -- The jobs that are left belong to this analysis, and the others have what they had.
  have hflight : ∀ k, (b'.flight k).Perm
      ((if k = a then ts.map Thread.emptied else []) ++ b.flight k) := by
    intro k
    rw [hb']
    exact flight_scheduleAll _ a k ts
  have hself : (b'.flight a).Perm ((ts ++ b.flight a).map Thread.emptied) := by
    have hperm := hflight a
    rw [if_pos rfl] at hperm
    rwa [List.map_append, map_emptied_flight]
  have hother : ∀ a', a' ≠ a → (b'.flight a').Perm ((b.goOn (.turn a t)).flight a') := by
    intro a' ha
    have hperm := hflight a'
    rw [if_neg ha] at hperm
    rwa [flight_turn_ne ha]
  subst hb'
  refine ⟨h.advance x' hx (by rw [hcrawl']; nofun) hown (fun _ _ => nofun) hbegin rfl h.waiting (fun y hy => ?_)
    (fun y hy => List.mem_append_left _ hy) (fun _ hu => hu) hother ?_,
    fun hdoomed => hdoomed.advance x' hx rfl hother fun url' m₀ hcrawl₀ hbroken => ?_,
    fun _ hu => hu⟩
  · refine (List.mem_append.1 hy).imp_right fun hy => ?_
    obtain ⟨j, hj, rfl⟩ := List.mem_map.1 hy
    obtain ⟨t', -, rfl⟩ := List.mem_map.1 hj
    trivial
  · rw [hcrawl', houtcome]
    exact .of_leads hleads htop hself
  · obtain ⟨-, rfl⟩ := Prod.mk.inj (Option.some.inj (hcrawl.symm.trans hcrawl₀))
    exact ⟨url, m', hcrawl', houtcome, broken_of_leads hleads hself hbroken⟩

theorem analyses_settle (hx : b.analyses[a]? = some x) {y : Analysis importer} (i : Index)
    (ws : List Warning) (log' : List Log.Entry) :
    (((b.moved a y log).entered x.path ws i log').settleAnalysis s a (.ok ())).analyses =
      b.analyses.set a { y with outcome := some (.ok ()) } := by
  change (b.analyses.set a y).modify a _ = _
  rw [List.modify_eq_set_getElem?, List.getElem?_set_self (List.getElem?_eq_some_iff.1 hx).1]
  simp

theorem Woven.finish (h : Woven s (b.goOn (.turn a t))) {i : Index} {ws : List Warning}
    {log' : List Log.Entry}
    (hb' : b' = ((b.moved a x' log).entered x.path ws i log').settleAnalysis s a (.ok ()))
    (hx : b.analyses[a]? = some x) (hcrawl : x.crawl = some (url, m))
    (hbegin : ∀ n, (n, .begin a) ∉ b.ready) (hown : x'.client = false)
    (hcrawl' : x'.crawl = some (url, m'))
    (hover : b.flight a = []) (hsound : ¬ m.Broken [t]) :
    Woven s b' ∧ (Doomed (b.goOn (.turn a t)) → Doomed b') ∧ ∀ u, Sought s b u → Sought s b' u := by
  have hother : ∀ a', a' ≠ a → (b.flight a').Perm ((b.goOn (.turn a t)).flight a') :=
    fun a' ha => .of_eq (flight_turn_ne ha b t).symm
  have hanalyses : b'.analyses = b.analyses.set a { x' with outcome := some (.ok ()) } := by
    rw [hb', analyses_settle hx]
  subst hb'
  refine ⟨h.advance { x' with outcome := some (.ok ()) } hx (by rw [hcrawl']; nofun) hown
    (fun _ _ => nofun) hbegin hanalyses h.waiting (fun y hy => .inl hy) (fun _ hy => hy)
    (fun _ hu => hu) hother ?_,
    fun hdoomed => hdoomed.advance _ hx hanalyses hother fun url' m₀ hcrawl₀ hbroken => ?_,
    fun _ hu => hu⟩
  · change Crawling _ x'.crawl _ (b.flight a)
    rw [hover, hcrawl']
    exact .ended
  · obtain ⟨-, rfl⟩ := Prod.mk.inj (Option.some.inj (hcrawl.symm.trans hcrawl₀))
    rw [flight_turn, broken_map_emptied_iff, hover] at hbroken
    exact absurd hbroken hsound

theorem Woven.turn (hp : s.project.Rooted) (h : Woven s (b.goOn (.turn a t)))
    (hrunning : (b.turn s a t).status = .running) :
    Woven s (b.turn s a t) ∧ (Doomed (b.goOn (.turn a t)) → Doomed (b.turn s a t)) ∧
      ∀ u, Sought s b u → Sought s (b.turn s a t) u := by
  obtain ⟨x, url, m, m', log, hx, hown, hcrawl, houtcome, htop, hbegin, hturned⟩ :=
    h.turned (by rw [hrunning]; nofun)
  cases hturned with
  | ask hb' hsteady hleads =>
    exact h.ask hp hb' hx hcrawl htop hbegin hown rfl houtcome hsteady hleads
  | leave hb' hleads => exact h.leave hb' hx hcrawl htop hbegin hown rfl houtcome hleads
  | finish hb' hover hsound =>
    obtain ⟨i, ws, log', -, -, -, hb'⟩ := conclude_running (own_of_moved hx (by exact hown)) hb'.symm hrunning
    exact h.finish hb' hx hcrawl hbegin hown rfl hover hsound

end

/-! ### All jobs -/

theorem Woven.begin (h : Woven s (b.goOn (.begin a)))
    (hrunning : (b.begin s a).status = .running) :
    Woven s (b.begin s a) ∧ (Doomed (b.goOn (.begin a)) → Doomed (b.begin s a)) ∧
      ∀ u, Sought s b u → Sought s (b.begin s a) u := by
  obtain ⟨x, hx, hnone⟩ : ∃ x, b.analyses[a]? = some x ∧ x.crawl = none :=
    h.ready _ List.mem_cons_self
  have hcrawling := h.crawls a x hx
  rw [hnone] at hcrawling
  have hflight : (b.goOn (.begin a)).flight a = .scan 0 :: b.flight a := by
    rw [flight_goOn, Job.errand?_begin]
    rfl
  -- Before it begins, an analysis has the survey of its document in flight and nothing else.
  obtain ⟨houtcome, hempty⟩ : x.outcome = none ∧ b.flight a = [] := by
    rw [hflight] at hcrawling
    generalize hts : Thread.scan 0 :: b.flight a = ts at hcrawling
    generalize x.outcome = outcome at hcrawling
    cases hcrawling with
    | fresh => exact ⟨rfl, (List.cons.inj hts).2⟩
  obtain ⟨url, -, hb'⟩ := begin_cases hx (h.own a x hx) rfl hrunning
  rw [hb']
  generalize hx' : { x with crawl := some (url, (importer.start url).1) } = x'
  have hown : x'.client = false := hx' ▸ h.own a x hx
  have hself : ((b.moved a x' b.log).goOn (.turn a (importer.start url).2)).flight a =
      [Thread.scan 0] := by
    rw [flight_goOn]
    change ((Job.turn (C := importer) a (Thread.scan 0)).errand? a).toList ++ b.flight a = _
    rw [Job.errand?_turn, hempty]
    rfl
  have hother : ∀ a', a' ≠ a →
      (((b.moved a x' b.log).goOn (.turn a (importer.start url).2)).flight a').Perm
        ((b.goOn (.begin a)).flight a') := by
    intro a' ha
    rw [flight_goOn, flight_goOn, Job.errand?_begin_of_ne (Ne.symm ha)]
    change List.Perm (((Job.turn (C := importer) a (Thread.scan 0)).errand? a').toList ++ b.flight a') _
    rw [Job.errand?_turn_of_ne (Ne.symm ha)]
  refine ⟨h.advance x' hx (by rw [← hx']; nofun) hown
    (fun a' ha hbegin => ha (Job.begin.inj hbegin).symm) (fun n hn => ?_) rfl h.waiting
    (fun y hy => ?_) (fun y hy => List.mem_cons_of_mem _ hy) (fun _ hu => hu) hother ?_,
    fun hdoomed => hdoomed.advance x' hx rfl hother fun url' m hcrawl => ?_, fun _ hu => hu⟩
  · have hmem := mem_flight_of_ready hn (Job.errand?_begin a)
    rw [hempty] at hmem
    cases hmem
  · rcases List.mem_cons.1 hy with rfl | hy
    · exact .inr trivial
    · exact .inl hy
  · rw [hself, ← hx', houtcome]
    exact .active (tidy_start _ url) (active_start url)
  · rw [hnone] at hcrawl
    cases hcrawl

/-- The analyses of a running build stay in order; neither faults nor files that were sought are
forgotten. -/
structure Weaves (s : Setup) (b b' : Build importer) : Prop where
  woven : Woven s b → Woven s b'
  doomed : Woven s b → Doomed b → Doomed b'
  sought : Woven s b → ∀ u, Sought s b u → Sought s b' u

theorem Weaves.trans {b₁ b₂ b₃ : Build importer} (h : Weaves s b₁ b₂) (h' : Weaves s b₂ b₃) :
    Weaves s b₁ b₃ :=
  ⟨fun hw => h'.woven (h.woven hw), fun hw hd => h'.doomed (h.woven hw) (h.doomed hw hd),
    fun hw u hu => h'.sought (h.woven hw) u (h.sought hw u hu)⟩

theorem weaves_still {fs : Table Text File} (hcalm : Calm s { b with files := fs } b')
    (hstill : Still s b b') : Weaves s b b' :=
  ⟨fun h => h.still hcalm hstill, fun h hd => hd.still h hcalm hstill, fun _ => hstill.sought⟩

/-- Only a part of the state matters. -/
theorem weaves_same (hwaiting : b'.waiting = b.waiting) (hready : b'.ready = b.ready)
    (hanalyses : b'.analyses = b.analyses) (hfiles : b'.files = b.files)
    (hwaitlist : b'.waitlist = b.waitlist) : Weaves s b b' := by
  have hflight : ∀ a, b'.flight a = b.flight a := fun a => by rw [flight, flight, hready, hwaiting]
  have hsought : ∀ u, Sought s b u → Sought s b' u := by
    intro u hu
    rwa [Sought, hfiles, hwaitlist]
  refine ⟨fun h => ⟨?_, ?_, ?_, ?_, ?_, ?_⟩, fun _ hd => hd.congr hanalyses fun a => .of_eq (hflight a),
    fun _ => hsought⟩
  · rw [hwaiting]
    exact h.waiting
  · rw [hready]
    exact fun y hy => (h.ready y hy).congr hanalyses
  · rw [hready, hanalyses]
    exact h.begins
  · intro a ha
    rw [hflight]
    exact h.idle a (hanalyses ▸ ha)
  · rw [hanalyses]
    exact h.own
  · intro a x hx
    rw [hflight]
    exact (h.crawls a x (hanalyses ▸ hx)).mono fun u => Or.imp_right (hsought u)

theorem weaves_drop (hj : ∀ a, j.errand? a = none) : Weaves s (b.goOn j) b :=
  ⟨fun h => h.drop hj, fun _ hd => hd.congr rfl fun a => .of_eq (flight_goOn_of_none hj a).symm,
    fun _ _ hu => hu⟩

theorem weaves_goOn (hj : ∀ a, j.errand? a = none) (hadmits : b.Admits j) : Weaves s b (b.goOn j) :=
  ⟨fun h => h.goOn hj hadmits, fun _ hd => hd.congr rfl fun a => .of_eq (flight_goOn_of_none hj a),
    fun _ _ hu => hu⟩

theorem weaves_register {f : File} {b₁ : Build importer} (h : b.register s f = (b₁, none)) :
    Weaves s b b₁ := by
  obtain ⟨u, -, hcalm⟩ := register_eq h
  have hstill := still_register (s := s) b f
  rw [h] at hstill
  exact weaves_still hcalm hstill

theorem weaves_claim (b : Build importer) (f : File) : Weaves s b (b.claim f) := by
  unfold claim
  dsimp only
  split
  · have hclaimed : Weaves s b { b with claimed := b.claimed ++ [f.path.normal] } :=
      weaves_same rfl rfl rfl rfl rfl
    exact hclaimed.trans ⟨fun h => h.analyze _, fun _ hd => hd.analyze _, fun _ _ hu => hu⟩
  · exact weaves_same rfl rfl rfl rfl rfl

theorem weaves_releaseSources {ps : List Path} {b₁ : Build importer}
    (h : b.releaseSources s ps = (b₁, none)) : Weaves s b b₁ := by
  have hcalm := calm_releaseSources (s := s) b ps
  have hstill := still_releaseSources (s := s) b ps
  rw [h] at hcalm hstill
  exact weaves_still hcalm hstill

theorem weaves_pumpSources (hrunning : (b.pumpSources s).status = .running) :
    Weaves s b (b.pumpSources s) := by
  obtain ⟨-, hb'⟩ | ⟨rest, b₁, -, -, hrelease, hb'⟩ | ⟨f, rest, b₁, o, -, hregister, -, hb'⟩ :=
    pumpSources_cases rfl hrunning
  · rw [hb']
    exact weaves_same rfl rfl rfl rfl rfl
  · rw [hb']
    have hrest : Weaves s b { b with incoming := rest, exhausted := true } :=
      weaves_same rfl rfl rfl rfl rfl
    exact (hrest.trans (weaves_releaseSources hrelease)).trans (weaves_same rfl rfl rfl rfl rfl)
  · rw [hb']
    have hrest : Weaves s b { b with incoming := rest } := weaves_same rfl rfl rfl rfl rfl
    have hsent : Weaves s (b₁.claim f) { b₁.claim f with sources := o } :=
      weaves_same rfl rfl rfl rfl rfl
    exact (((hrest.trans (weaves_register hregister)).trans (weaves_claim b₁ f)).trans hsent).trans
      (weaves_goOn (fun _ => rfl) trivial)

theorem weaves_closeSources (b : Build importer) : Weaves s b b.closeSources := by
  unfold closeSources
  dsimp only
  split
  · exact weaves_same rfl rfl rfl rfl rfl
  · exact weaves_same rfl rfl rfl rfl rfl

theorem weaves_deliver {p : Path} (hrunning : (b.deliver s p).status = .running) :
    Weaves s b (b.deliver s p) := by
  obtain ⟨contents, b₁, o, -, hregister, -, hb'⟩ := deliver_cases rfl hrunning
  rw [hb']
  have hsent : Weaves s (b₁.claim ⟨p, contents⟩)
      { b₁.claim ⟨p, contents⟩ with dependencies := o, dependencyPump := .working } :=
    weaves_same rfl rfl rfl rfl rfl
  exact (((weaves_register hregister).trans (weaves_claim b₁ _)).trans hsent).trans
    (weaves_goOn (fun _ => rfl) trivial)

theorem weaves_pumpDependencies (hqueue : none ∉ b.queue)
    (hrunning : (b.pumpDependencies s).status = .running) : Weaves s b (b.pumpDependencies s) := by
  obtain ⟨-, hb'⟩ | ⟨p, rest, url, -, ⟨-, hb'⟩ | ⟨-, hb'⟩⟩ := pumpDependencies_cases rfl hqueue
  · rw [hb']
    exact weaves_same rfl rfl rfl rfl rfl
  · rw [hb']
    exact weaves_same rfl rfl rfl rfl rfl
  · rw [hb'] at hrunning ⊢
    have hread : Weaves s b (b.fetched rest ⟨url, p, .delivered⟩) :=
      weaves_same rfl rfl rfl rfl rfl
    exact hread.trans (weaves_deliver hrunning)

theorem weaves_expire (w : Waiter importer) : Weaves s (b.goOn (.expire w)) (b.expire s w) := by
  have hstill := still_giveUp (s := s) b w
  have hcalm := calm_expire (s := s) b w
  have hflight : Woven s (b.goOn (.expire w)) → ∀ a,
      ((b.expire s w).flight a).Perm ((b.goOn (.expire w)).flight a) := by
    intro h a
    have hsteady : w.caller.Steady := h.ready _ List.mem_cons_self
    rw [expire, flight_goOn, flight_goOn, hsteady.errand?_resume]
    exact (hstill.flight h.waiting a).append_left _
  exact ⟨fun h => h.calm nofun hcalm (fun w' hw => h.waiting w' (hstill.waiting w' hw)) hstill.sought
    (hflight h), fun h hd => hd.congr hcalm.analyses (hflight h), fun _ => hstill.sought⟩

/-- A job that lets the build go on keeps the analyses in order. -/
theorem weaves_run (hp : s.project.Rooted) (hqueue : none ∉ b.queue)
    (hrunning : (b.run s j).status = .running) : Weaves s (b.goOn j) (b.run s j) := by
  cases j with
  | pumpSources => exact (weaves_drop fun _ => rfl).trans (weaves_pumpSources hrunning)
  | closeSources =>
    exact (weaves_drop fun _ => rfl).trans (weaves_closeSources b)
  | pumpDependencies =>
    exact (weaves_drop fun _ => rfl).trans (weaves_pumpDependencies hqueue hrunning)
  | deliver p => exact (weaves_drop fun _ => rfl).trans (weaves_deliver hrunning)
  | begin a =>
    exact ⟨fun h => (h.begin hrunning).1, fun h => (h.begin hrunning).2.1,
      fun h => (h.begin hrunning).2.2⟩
  | turn a t =>
    exact ⟨fun h => (h.turn hp hrunning).1, fun h => (h.turn hp hrunning).2.1,
      fun h => (h.turn hp hrunning).2.2⟩
  | load n u =>
    have habsurd : ¬ Woven s (b.goOn (.load n u)) := fun h => h.ready _ List.mem_cons_self
    exact ⟨fun h => absurd h habsurd, fun h => absurd h habsurd, fun h => absurd h habsurd⟩
  | loaded n answer =>
    exact (weaves_drop fun _ => rfl).trans (weaves_same rfl rfl rfl rfl rfl)
  | expire w => exact weaves_expire w

/-! ### Steps -/

theorem weaves_rearrange {js : List (Nat × Job importer)}
    (hjobs : (js.map (·.2)).Perm (b.ready.map (·.2))) : Weaves s b { b with ready := js } :=
  ⟨fun h => h.rearrange hjobs, fun _ hd => hd.congr rfl (flight_perm_of_jobs hjobs rfl),
    fun _ _ hu => hu⟩

theorem weaves_schedule (b : Build importer) (n : Nat) {j : Job importer}
    (hj : ∀ a, j.errand? a = none) (hadmits : b.Admits j) : Weaves s b (b.schedule n j) := by
  refine (weaves_goOn hj hadmits).trans (weaves_rearrange (b := b.goOn j) ?_)
  rw [List.map_append]
  exact List.perm_append_singleton _ _

/-- The job in hand is put in front. -/
theorem perm_in_hand {before after : List (Nat × Job importer)} (n : Nat) :
    ((((0, j) :: (before ++ after)) : List (Nat × Job importer)).map (·.2)).Perm
      ((before ++ (n, j) :: after).map (·.2)) := by
  rw [List.map_cons, List.map_append, List.map_append, List.map_cons]
  exact List.perm_middle.symm

/-- The flight of a request that has waited too long. -/
theorem weaves_outwait {before after : List (Waiter importer)} {w : Waiter importer}
    (hw : b.waiting = before ++ w :: after) :
    Weaves s b { b with waiting := before ++ after, ready := b.ready ++ [(3, .expire w)] } := by
  have hflight : ∀ a, (Build.flight  -- The thread that waited is under way in the job that ends its wait.
      { b with waiting := before ++ after, ready := b.ready ++ [(3, .expire w)] } a).Perm
        (b.flight a) := by
    intro a
    simp only [flight, hw, List.filterMap_append, List.filterMap_cons, List.append_assoc]
    refine List.Perm.append_left _ ?_
    cases herrand : w.caller.errand? a with
    | none => simp [Job.errand?, herrand]
    | some t =>
      simp only [Job.errand?, herrand, List.filterMap_nil, List.singleton_append]
      exact List.perm_middle.symm
  have hsub : ∀ w', w' ∈ before ++ after → w' ∈ b.waiting := by
    intro w' hw'
    rw [hw]
    exact (List.mem_append.1 hw').elim (List.mem_append_left _)
      fun h => List.mem_append_right _ (List.mem_cons_of_mem w h)
  refine ⟨fun h => ⟨fun w' hw' => h.waiting w' (hsub w' hw'), fun y hy => ?_, fun a x hx hcrawl => ?_,
    fun a ha => ?_, h.own, fun a x hx => (h.crawls a x hx).perm (hflight a).symm⟩,
    fun _ hd => hd.congr rfl hflight, fun _ _ hu => hu⟩
  · rcases List.mem_append.1 hy with hy | hy
    · exact (h.ready y hy).congr rfl
    · rw [List.mem_singleton] at hy
      rw [hy]
      exact h.waiting w (hw ▸ by simp)
  · exact (h.begins a x hx hcrawl).imp fun n hn => List.mem_append_left _ hn
  · exact List.perm_nil.1 (h.idle a ha ▸ hflight a)

/-- A step of its own keeps the analyses of a running build in order. -/
theorem weaves_works (hp : s.project.Rooted) (hqueue : none ∉ b.queue) (h : Works s b b')
    (hrunning : b'.status = .running) : Weaves s b b' := by
  cases h with
  | @job before after n j hready =>
    have hhand : Weaves s b (Build.goOn { b with ready := before ++ after } j) :=
      weaves_rearrange (hready ▸ perm_in_hand n)
    exact hhand.trans (weaves_run hp hqueue hrunning)
  | @delay rest n j hready =>
    refine weaves_rearrange ?_
    rw [hready, List.map_append]
    exact List.perm_append_singleton _ _
  | deliver _ _ =>
    have hreads : ∀ reads, Weaves s b { b with reads := reads } := fun _ =>
      weaves_same rfl rfl rfl rfl rfl
    refine (hreads _).trans (weaves_schedule _ 0 (fun _ => rfl) ?_)
    trivial
  | expire _ hw => exact weaves_outwait hw

theorem weaves_arrive (item : Arrival) : Weaves s b (b.arrive item) := by
  unfold arrive
  dsimp only
  split
  · have harrived : Weaves s b { b with incoming := b.incoming ++ [item], sourcePump := .working } :=
      weaves_same rfl rfl rfl rfl rfl
    refine harrived.trans (weaves_schedule _ 0 (fun _ => rfl) ?_)
    trivial
  · exact weaves_same rfl rfl rfl rfl rfl

end HtmlDeps.Build
