import HtmlDeps.Build.Analyze
import HtmlDeps.Proofs.Crawl.Firsts

/-!
# What references amount to

The references of a report are sorted into imports, scripts and styles.  Of the local ones, the first of
each URL decides (`Deps.of?_eq_some_iff`), and if its kind is unknown, nothing becomes of the URL.  So
references that are ignored have no influence exactly if none of them comes in front of all the others
with its URL (`Deps.undisturbed_iff`).

This is `_get_dependencies`; the full specification allows references of any other kind, “which the analyzer logs
and ignores”.
-/

namespace HtmlDeps

open Imports

/-- Whether a kind is one that the library knows. -/
def Kind.known : Kind → Bool
  | .other _ => false
  | _ => true

/-- Whether a reference leads out of the project. -/
def Reference.external (r : Reference) : Bool :=
  match Url.isExternal r.url with
  | .ok external => external
  | .error _ => false

/-- Whether the URL of a reference can be read. -/
def Reference.Legible (r : Reference) : Prop := ∃ external, Url.isExternal r.url = .ok external

namespace Deps

/-- The URLs a fragment depends on, of all kinds. -/
def urls (d : Deps) : List Text := d.imports ++ d.scripts ++ d.styles

/-- The URLs of a kind. -/
def under (d : Deps) : Kind → List Text
  | .document => d.imports
  | .script => d.scripts
  | .style => d.styles
  | .other _ => []

/-- One more URL of a kind. -/
def insert (d : Deps) (u : Text) : Kind → Deps
  | .document => { d with imports := d.imports ++ [u] }
  | .script => { d with scripts := d.scripts ++ [u] }
  | .style => { d with styles := d.styles ++ [u] }
  | .other _ => d

/-- The URLs of the references of a kind. -/
def pick (rs : List Reference) (k : Kind) : List Text := (rs.filter (·.kind = k)).map (·.url)

/-- References by kind. -/
def ofKinds (rs : List Reference) : Deps := ⟨pick rs .document, pick rs .script, pick rs .style⟩

/-- The dependencies that references amount to, if no fault stops the sorting. -/
def of? (rs : List Reference) : Option Deps :=
  match ofReferences rs with
  | (s, none) => some s.deps
  | (_, some _) => none

/-- The references without those that are ignored: the external ones, and those of a kind that is not
known. -/
def remaining (rs : List Reference) : List Reference := rs.filter fun r => !r.external && r.kind.known

/-- The dependencies hold each URL of the references once, under the kind of its first reference and in
the order of these. -/
structure Sorts (d : Deps) (rs : List Reference) : Prop where
  nodup : d.urls.Nodup
  mem : ∀ u, u ∈ d.urls ↔ ∃ r ∈ rs, r.url = u
  kind : ∀ k u, u ∈ d.under k ↔ ∃ r, rs.find? (·.url = u) = some r ∧ r.kind = k
  order : ∀ k, (d.under k).Sublist (rs.map (·.url)).eraseDups

/-- References that are ignored have no influence: the dependencies are those that the others amount to. -/
def Undisturbed (rs : List Reference) : Prop :=
  ∃ d, of? rs = some d ∧ of? (remaining rs) = some d ∧ d.Sorts (remaining rs)

/-- The first reference to each URL that remains is of a known kind. -/
def Unshadowed (rs : List Reference) : Prop :=
  ∀ y ∈ remaining rs, ∃ r, rs.find? (·.url = y.url) = some r ∧ r.kind.known

/-- The references that stay in the project. -/
def locals (rs : List Reference) : List Reference := rs.filter (!·.external)

variable {d d' : Deps} {r y : Reference} {rs xs : List Reference} {k : Kind} {u : Text} {seen : List Text}

theorem eq_of_under (h : ∀ k, k.known → d.under k = d'.under k) : d = d' := by
  obtain ⟨imports, scripts, styles⟩ := d
  obtain ⟨imports', scripts', styles'⟩ := d'
  have himports : imports = imports' := h .document rfl
  have hscripts : scripts = scripts' := h .script rfl
  have hstyles : styles = styles' := h .style rfl
  rw [himports, hscripts, hstyles]

theorem mem_urls_iff : u ∈ d.urls ↔ ∃ k, u ∈ d.under k := by
  simp only [urls, List.mem_append]
  constructor
  · rintro ((h | h) | h)
    · exact ⟨.document, h⟩
    · exact ⟨.script, h⟩
    · exact ⟨.style, h⟩
  · rintro ⟨k, h⟩
    cases k with
    | document => exact .inl (.inl h)
    | script => exact .inl (.inr h)
    | style => exact .inr h
    | other l => cases h

theorem known_of_mem_under (h : u ∈ d.under k) : k.known := by
  cases k with
  | other l => cases h
  | _ => rfl

theorem under_ofKinds (rs : List Reference) (hk : k.known) : (ofKinds rs).under k = pick rs k := by
  cases k with
  | document => rfl
  | script => rfl
  | style => rfl
  | other l => cases hk

theorem mem_pick_iff : u ∈ pick rs k ↔ ∃ r ∈ rs, r.url = u ∧ r.kind = k := by
  simp only [pick, List.mem_map, List.mem_filter, decide_eq_true_eq]
  constructor
  · rintro ⟨r, ⟨hr, hkind⟩, hurl⟩
    exact ⟨r, hr, hurl, hkind⟩
  · rintro ⟨r, hr, hurl, hkind⟩
    exact ⟨r, ⟨hr, hkind⟩, hurl⟩

theorem pick_cons (r : Reference) (rs : List Reference) (k : Kind) :
    pick (r :: rs) k = (if r.kind = k then [r.url] else []) ++ pick rs k := by
  by_cases h : r.kind = k <;> simp [pick, h]

theorem external_congr (h : r.url = y.url) : r.external = y.external := by
  rw [Reference.external, Reference.external, h]

theorem locals_cons_of_external (h : r.external = true) : locals (r :: rs) = locals rs :=
  List.filter_cons_of_neg (by simp [h])

theorem locals_cons_of_local (h : r.external = false) : locals (r :: rs) = r :: locals rs :=
  List.filter_cons_of_pos (by simp [h])

/-! ### Sorting -/

theorem under_insert (d : Deps) (u : Text) (k' : Kind) (hk : k.known) :
    (d.insert u k').under k = d.under k ++ if k' = k then [u] else [] := by
  cases k' with
  | other l =>
    have hne : Kind.other l ≠ k := by
      rintro rfl
      cases hk
    simp [insert, hne]
  | _ => cases k <;> simp [insert, under]

theorem add_of_new (s : Sorting) (hlocal : Url.isExternal r.url = .ok false) (hnew : r.url ∉ s.seen) :
    ∃ notes, s.add r = .ok ⟨s.deps.insert r.url r.kind, s.seen ++ [r.url], notes⟩ := by
  have hseen : s.seen.contains r.url = false := by simpa using hnew
  cases hkind : r.kind with
  | _ =>
    simp only [Sorting.add, hlocal, hseen, hkind]
    exact ⟨_, rfl⟩

/-- A local reference of a known kind is sorted if its URL is a new one. -/
theorem exists_add (s : Sorting) (h : r.Legible) : ∃ s', s.add r = .ok s' ∧
    (∀ v, v ∈ s'.seen ↔ v ∈ s.seen ∨ r.external = false ∧ v = r.url) ∧
    ∀ k, k.known → s'.deps.under k =
      s.deps.under k ++ if r.external = false ∧ r.url ∉ s.seen ∧ r.kind = k then [r.url] else [] := by
  obtain ⟨external, hexternal⟩ := h
  have hvalue : r.external = external := by rw [Reference.external, hexternal]
  cases external with
  | true =>
    refine ⟨_, by rw [Sorting.add, hexternal], fun v => ?_, fun k _ => ?_⟩
    · simp [hvalue]
    · simp [hvalue]
  | false =>
    by_cases hseen : r.url ∈ s.seen
    · refine ⟨s, by rw [Sorting.add, hexternal]; simp [hseen], fun v => ?_, fun k _ => ?_⟩
      · constructor
        · exact .inl
        · rintro (hv | ⟨-, rfl⟩)
          · exact hv
          · exact hseen
      · simp [hseen]
    · obtain ⟨notes, hadd⟩ := add_of_new s hexternal hseen
      refine ⟨_, hadd, fun v => ?_, fun k hk => ?_⟩
      · simp [hvalue]
      · rw [under_insert _ _ _ hk]
        simp [hvalue, hseen]

/-- References whose URLs can be read are sorted by the first local one of each URL. -/
theorem run_eq (h : ∀ r ∈ rs, r.Legible) (s : Sorting) : (s.run rs).2 = none ∧
    ∀ k, k.known → (s.run rs).1.deps.under k = s.deps.under k ++ pick (firsts s.seen (locals rs)) k := by
  induction rs generalizing s with
  | nil => exact ⟨rfl, fun k _ => (List.append_nil _).symm⟩
  | cons r rs ih =>
    obtain ⟨hr, hrs⟩ := List.forall_mem_cons.1 h
    obtain ⟨s', hadd, hseen, hunder⟩ := exists_add s hr
    obtain ⟨hnone, hrun⟩ := ih hrs s'
    have hcons : s.run (r :: rs) = s'.run rs := by rw [Sorting.run, hadd]
    rw [hcons]
    refine ⟨hnone, fun k hk => ?_⟩
    rw [hrun k hk, hunder k hk]
    -- An external reference is not sorted; a local one is, unless its URL was seen before.
    cases hexternal : r.external with
    | true =>
      have hsame : firsts s'.seen (locals rs) = firsts s.seen (locals rs) :=
        firsts_congr fun y _ => by simp [hseen, hexternal]
      rw [locals_cons_of_external hexternal, hsame]
      simp
    | false =>
      rw [locals_cons_of_local hexternal]
      by_cases hold : r.url ∈ s.seen
      · have hsame : firsts s'.seen (locals rs) = firsts s.seen (locals rs) := by
          refine firsts_congr fun y _ => ?_
          rw [hseen]
          constructor
          · rintro (hy | ⟨-, hy⟩)
            · exact hy
            · exact hy ▸ hold
          · exact .inl
        rw [firsts_cons_of_mem hold, hsame]
        simp [hold]
      · have hsame : firsts s'.seen (locals rs) = firsts (r.url :: s.seen) (locals rs) :=
          firsts_congr fun y _ => by simp [hseen, hexternal, or_comm]
        rw [firsts_cons_of_not_mem hold, hsame, pick_cons, List.append_assoc]
        simp [hold]

theorem legible_of_run {s : Sorting} (h : (s.run rs).2 = none) : ∀ r ∈ rs, r.Legible := by
  induction rs generalizing s with
  | nil => exact nofun
  | cons r rs ih =>
    have hlegible : r.Legible := by
      cases hexternal : Url.isExternal r.url with
      | ok external => exact ⟨external, hexternal⟩
      | error f => simp [Sorting.run, Sorting.add, hexternal] at h
    obtain ⟨s', hadd, -⟩ := exists_add s hlegible
    rw [Sorting.run, hadd] at h
    exact List.forall_mem_cons.2 ⟨hlegible, ih h⟩

/-- The dependencies are the first local references of each URL, by kind. -/
theorem of?_eq_some_iff : of? rs = some d ↔
    (∀ r ∈ rs, r.Legible) ∧ d = ofKinds (firsts [] (locals rs)) := by
  have hdeps : ∀ h : ∀ r ∈ rs, r.Legible, (ofReferences rs).1.deps = ofKinds (firsts [] (locals rs)) := by
    intro h
    apply eq_of_under
    intro k hk
    rw [ofReferences, (run_eq h _).2 k hk, under_ofKinds _ hk]
    cases k <;> rfl
  constructor
  · intro h
    unfold of? at h
    split at h
    · rename_i s hof
      have hlegible := legible_of_run (congrArg Prod.snd hof)
      have hd := Option.some.inj h
      rw [← hdeps hlegible, hof]
      exact ⟨hlegible, hd.symm⟩
    · cases h
  · rintro ⟨hlegible, rfl⟩
    have hnone : (ofReferences rs).2 = none := (run_eq hlegible _).1
    have hof : ofReferences rs = ((ofReferences rs).1, none) := Prod.ext rfl hnone
    rw [of?, hof]
    exact congrArg some (hdeps hlegible)

/-- The dependencies of a report are references of it, and local. -/
theorem exists_of_mem_urls (h : (ofReferences rs).2 = none) (hu : u ∈ (ofReferences rs).1.deps.urls) :
    ∃ r ∈ rs, u = r.url ∧ Url.isExternal u = .ok false := by
  have hof : of? rs = some (ofReferences rs).1.deps := by
    rw [of?, show ofReferences rs = ((ofReferences rs).1, none) from Prod.ext rfl h]
  obtain ⟨hlegible, hdeps⟩ := of?_eq_some_iff.1 hof
  rw [hdeps] at hu
  obtain ⟨k, hk⟩ := mem_urls_iff.1 hu
  rw [under_ofKinds _ (known_of_mem_under hk)] at hk
  obtain ⟨r, hr, rfl, -⟩ := mem_pick_iff.1 hk
  obtain ⟨hmem, hlocal⟩ := List.mem_filter.1 (mem_of_mem_firsts hr)
  obtain ⟨external, hexternal⟩ := hlegible r hmem
  rw [Reference.external, hexternal, Bool.not_eq_true'] at hlocal
  exact ⟨r, hmem, rfl, hlocal ▸ hexternal⟩

/-! ### References of known kinds -/

theorem nodup_pick_firsts (k : Kind) : (pick (firsts seen xs) k).Nodup :=
  nodup_urls_firsts.sublist (List.filter_sublist.map _)

/-- One URL stands under one kind. -/
theorem kind_unique {k k' : Kind} (h : u ∈ pick (firsts seen xs) k) (h' : u ∈ pick (firsts seen xs) k') :
    k = k' := by
  obtain ⟨r, hr, hurl, rfl⟩ := mem_pick_iff.1 h
  obtain ⟨r', hr', hurl', rfl⟩ := mem_pick_iff.1 h'
  have hfirst := (mem_firsts_iff.1 hr).1
  have hfirst' := (mem_firsts_iff.1 hr').1
  rw [hurl] at hfirst
  rw [hurl', hfirst] at hfirst'
  rw [Option.some.inj hfirst']

/-- A URL stands under the kind of its first reference. -/
theorem mem_under_ofKinds_iff (h : ∀ r ∈ xs, r.kind.known) :
    u ∈ (ofKinds (firsts [] xs)).under k ↔ ∃ r, xs.find? (·.url = u) = some r ∧ r.kind = k := by
  by_cases hk : k.known
  · rw [under_ofKinds _ hk, mem_pick_iff]
    constructor
    · rintro ⟨r, hr, rfl, rfl⟩
      exact ⟨r, (mem_firsts_iff.1 hr).1, rfl⟩
    · rintro ⟨r, hr, rfl⟩
      have hurl : r.url = u := by simpa using List.find?_some hr
      subst hurl
      exact ⟨r, mem_firsts_iff.2 ⟨hr, List.not_mem_nil⟩, rfl, rfl⟩
  · constructor
    · intro hu
      exact absurd (known_of_mem_under hu) hk
    · rintro ⟨r, hr, rfl⟩
      exact absurd (h r (List.mem_of_find?_eq_some hr)) hk

theorem nodup_urls_ofKinds (xs : List Reference) : (ofKinds (firsts [] xs)).urls.Nodup := by
  have hdisjoint : ∀ {k k' : Kind}, k ≠ k' →
      ∀ u ∈ pick (firsts [] xs) k, ∀ v ∈ pick (firsts [] xs) k', u ≠ v := by
    rintro k k' hne u hu v hv rfl
    exact hne (kind_unique hu hv)
  change (pick _ .document ++ pick _ .script ++ pick _ .style).Nodup
  rw [List.nodup_append, List.nodup_append]
  refine ⟨⟨nodup_pick_firsts _, nodup_pick_firsts _, hdisjoint (by simp)⟩, nodup_pick_firsts _, ?_⟩
  intro u hu
  rcases List.mem_append.1 hu with hu | hu
  · exact hdisjoint (by simp) u hu
  · exact hdisjoint (by simp) u hu

theorem sorts_ofKinds (h : ∀ r ∈ xs, r.kind.known) : (ofKinds (firsts [] xs)).Sorts xs := by
  refine ⟨nodup_urls_ofKinds xs, fun u => ?_, fun k u => mem_under_ofKinds_iff h, fun k => ?_⟩
  · rw [mem_urls_iff]
    constructor
    · rintro ⟨k, hu⟩
      obtain ⟨r, hr, -⟩ := (mem_under_ofKinds_iff h).1 hu
      exact ⟨r, List.mem_of_find?_eq_some hr, by simpa using List.find?_some hr⟩
    · rintro ⟨r, hr, rfl⟩
      have hfound : (xs.find? (·.url = r.url)).isSome := List.find?_isSome.2 ⟨r, hr, by simp⟩
      obtain ⟨y, hy⟩ := Option.isSome_iff_exists.1 hfound
      exact ⟨y.kind, (mem_under_ofKinds_iff h).2 ⟨y, hy, rfl⟩⟩
  · have hurls : (firsts [] xs).map (·.url) = (xs.map (·.url)).eraseDups := by
      simp [urls_firsts, List.filter_eq_self.2]
    rw [← hurls]
    cases k with
    | other l => exact List.nil_sublist _
    | _ => exact List.filter_sublist.map _

/-! ### References that are ignored -/

/-- Where the first reference to each URL is of a known kind, the others may be dropped early or late. -/
theorem filter_firsts (h : ∀ y ∈ xs, y.kind.known → y.url ∉ seen →
      ∃ r, xs.find? (·.url = y.url) = some r ∧ r.kind.known) :
    (firsts seen xs).filter (·.kind.known) = firsts seen (xs.filter (·.kind.known)) := by
  induction xs generalizing seen with
  | nil => rfl
  | cons r xs ih =>
    -- what is said of the whole holds of the rest, for other URLs
    have hrest : ∀ {seen' : List Text}, (∀ v, v ∉ seen' → v ∉ seen ∧ v ≠ r.url) → ∀ y ∈ xs, y.kind.known →
        y.url ∉ seen' → ∃ z, xs.find? (·.url = y.url) = some z ∧ z.kind.known := by
      intro seen' hseen' y hy hknown hnew
      obtain ⟨hnew, hne⟩ := hseen' _ hnew
      have hfind := h y (List.mem_cons_of_mem r hy) hknown hnew
      rwa [List.find?_cons_of_neg (by simpa using Ne.symm hne)] at hfind
    have hmore : ∀ v, v ∉ r.url :: seen → v ∉ seen ∧ v ≠ r.url := by
      intro v hv
      rw [List.mem_cons, not_or] at hv
      exact hv.symm
    by_cases hseen : r.url ∈ seen
    · have hskip := ih (hrest fun v hv => ⟨hv, fun heq => hv (heq ▸ hseen)⟩)
      rw [firsts_cons_of_mem hseen, hskip]
      by_cases hknown : r.kind.known
      · rw [List.filter_cons, if_pos hknown, firsts_cons_of_mem hseen]
      · rw [List.filter_cons, if_neg hknown]
    · rw [firsts_cons_of_not_mem hseen]
      by_cases hknown : r.kind.known
      · rw [List.filter_cons, List.filter_cons, if_pos hknown, if_pos hknown, firsts_cons_of_not_mem hseen,
          ih (hrest hmore)]
      · rw [List.filter_cons, List.filter_cons, if_neg hknown, if_neg hknown, ih (hrest hmore)]
        refine firsts_congr fun y hy => ?_  -- nothing that remains has the URL of this reference
        obtain ⟨hy, hyknown⟩ := List.mem_filter.1 hy
        rw [List.mem_cons, or_iff_right]
        rintro hurl
        obtain ⟨z, hz, hzknown⟩ := h y (List.mem_cons_of_mem r hy) hyknown (hurl ▸ hseen)
        rw [List.find?_cons_of_pos (by simpa using hurl.symm)] at hz
        exact hknown (Option.some.inj hz ▸ hzknown)

theorem remaining_eq (rs : List Reference) : remaining rs = (locals rs).filter (·.kind.known) := by
  rw [remaining, locals, List.filter_filter]
  congr 1
  funext r
  exact Bool.and_comm _ _

theorem locals_remaining (rs : List Reference) : locals (remaining rs) = remaining rs := by
  rw [locals, List.filter_eq_self]
  intro r hr
  have hcounts := (List.mem_filter.1 hr).2
  rw [Bool.and_eq_true] at hcounts
  exact hcounts.1

/-- The references to one URL are all external, or none. -/
theorem find?_locals (h : y.external = false) :
    (locals rs).find? (·.url = y.url) = rs.find? (·.url = y.url) := by
  rw [locals, List.find?_filter]
  congr 1
  funext r
  by_cases hurl : r.url = y.url
  · simp [hurl, external_congr hurl, h]
  · simp [hurl]

theorem pick_filter_known (hk : k.known) : pick (xs.filter (·.kind.known)) k = pick xs k := by
  rw [pick, pick, List.filter_filter]
  congr 2
  funext r
  by_cases h : r.kind = k
  · simp [h, hk]
  · simp [h]

theorem local_of_mem_remaining (h : y ∈ remaining rs) :
    y ∈ rs ∧ y.external = false ∧ y.kind.known = true := by
  obtain ⟨hy, hcounts⟩ := List.mem_filter.1 h
  rw [Bool.and_eq_true, Bool.not_eq_true'] at hcounts
  exact ⟨hy, hcounts⟩

/-- **References that are ignored.**  They have no influence exactly if all URLs can be read and the first
reference to each URL that remains is of a known kind. -/
theorem undisturbed_iff (rs : List Reference) :
    Undisturbed rs ↔ (∀ r ∈ rs, r.Legible) ∧ Unshadowed rs := by
  constructor
  · rintro ⟨d, hd, -, hsorts⟩
    obtain ⟨hlegible, rfl⟩ := of?_eq_some_iff.1 hd
    refine ⟨hlegible, fun y hy => ?_⟩
    obtain ⟨hmem, hlocal, -⟩ := local_of_mem_remaining hy
    obtain ⟨k, hk⟩ := mem_urls_iff.1 ((hsorts.mem y.url).2 ⟨y, hy, rfl⟩)
    have hknown : k.known := known_of_mem_under hk
    rw [under_ofKinds _ hknown] at hk
    obtain ⟨r, hr, hurl, rfl⟩ := mem_pick_iff.1 hk
    have hfirst := (mem_firsts_iff.1 hr).1
    rw [hurl, find?_locals hlocal] at hfirst
    exact ⟨r, hfirst, hknown⟩
  · rintro ⟨hlegible, hunshadowed⟩
    have hfilter : (firsts [] (locals rs)).filter (·.kind.known) = firsts [] (remaining rs) := by
      rw [remaining_eq]
      refine filter_firsts fun y hy hknown _ => ?_
      obtain ⟨hmem, hlocal⟩ := List.mem_filter.1 hy
      have hremains : y ∈ remaining rs := List.mem_filter.2 ⟨hmem, by rw [hlocal, hknown]; rfl⟩
      rw [find?_locals (by simpa using hlocal)]
      exact hunshadowed y hremains
    have hsame : ofKinds (firsts [] (locals rs)) = ofKinds (firsts [] (remaining rs)) := by
      apply eq_of_under
      intro k hk
      rw [under_ofKinds _ hk, under_ofKinds _ hk, ← hfilter, pick_filter_known hk]
    have hremaining : ∀ r ∈ remaining rs, r.Legible := fun r hr => hlegible r (local_of_mem_remaining hr).1
    refine ⟨_, of?_eq_some_iff.2 ⟨hlegible, rfl⟩, of?_eq_some_iff.2 ⟨hremaining, ?_⟩, ?_⟩
    · rw [hsame, locals_remaining]
    · rw [hsame]
      exact sorts_ofKinds fun r hr => (local_of_mem_remaining hr).2.2

/-- An image and a script of one URL. -/
def namesakes : List Reference :=
  [⟨"a.js", .other "image", ⟨"index.html", 1, 0⟩⟩, ⟨"a.js", .script, ⟨"index.html", 2, 0⟩⟩]

/-- The image keeps the script from being a dependency. -/
theorem not_undisturbed_namesakes : of? namesakes = some empty ∧
    of? (remaining namesakes) = some ⟨[], ["a.js"], []⟩ ∧ ¬ Undisturbed namesakes := by
  have hwhole : of? namesakes = some empty := by decide
  have hremaining : of? (remaining namesakes) = some ⟨[], ["a.js"], []⟩ := by decide
  refine ⟨hwhole, hremaining, ?_⟩
  rintro ⟨d, hd, hd', -⟩
  rw [hd, ← hd', hremaining] at hwhole
  exact absurd hwhole (by decide)

end Deps
end HtmlDeps
