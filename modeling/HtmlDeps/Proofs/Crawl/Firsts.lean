import HtmlDeps.Crawl.Imports

/-!
# The first places of URLs

Of several references with one URL the first stays (`firsts`).
-/

namespace HtmlDeps.Imports

variable {seen seen' : List Text} {r : Reference} {rs : List Reference} {v : Text}

theorem mem_of_mem_firsts (h : r ∈ firsts seen rs) : r ∈ rs := by
  induction rs generalizing seen with
  | nil => cases h
  | cons x rs ih =>
    unfold firsts at h
    split at h
    · exact List.mem_cons_of_mem x (ih h)
    · rcases List.mem_cons.1 h with rfl | h
      · exact List.mem_cons_self
      · exact List.mem_cons_of_mem x (ih h)

theorem firsts_cons_of_mem (h : r.url ∈ seen) : firsts seen (r :: rs) = firsts seen rs := by
  rw [firsts, if_pos (List.contains_iff_mem.2 h)]

theorem firsts_cons_of_not_mem (h : r.url ∉ seen) :
    firsts seen (r :: rs) = r :: firsts (r.url :: seen) rs := by
  rw [firsts, if_neg (mt List.contains_iff_mem.1 h)]

theorem mem_urls_firsts_iff : v ∈ (firsts seen rs).map (·.url) ↔ v ∈ rs.map (·.url) ∧ v ∉ seen := by
  induction rs generalizing seen with
  | nil => simp [firsts]
  | cons r rs ih =>
    by_cases hseen : r.url ∈ seen
    · have hne : v ∉ seen → v ≠ r.url := by
        rintro hv rfl
        exact hv hseen
      rw [firsts_cons_of_mem hseen, ih]
      simp only [List.map_cons, List.mem_cons]
      grind
    · rw [firsts_cons_of_not_mem hseen]
      simp only [List.map_cons, List.mem_cons, ih]
      by_cases hv : v = r.url
      · simp [hv, hseen]
      · simp [hv]

theorem nodup_urls_firsts : ((firsts seen rs).map (·.url)).Nodup := by
  induction rs generalizing seen with
  | nil => simp [firsts]
  | cons r rs ih =>
    by_cases hseen : r.url ∈ seen
    · rw [firsts_cons_of_mem hseen]
      exact ih
    · rw [firsts_cons_of_not_mem hseen, List.map_cons, List.nodup_cons]
      refine ⟨fun hmem => ?_, ih⟩
      exact (mem_urls_firsts_iff.1 hmem).2 List.mem_cons_self

/-- It matters only which of the URLs were seen. -/
theorem firsts_congr (h : ∀ r ∈ rs, r.url ∈ seen ↔ r.url ∈ seen') : firsts seen rs = firsts seen' rs := by
  induction rs generalizing seen seen' with
  | nil => rfl
  | cons r rs ih =>
    obtain ⟨hr, hrs⟩ := List.forall_mem_cons.1 h
    by_cases hseen : r.url ∈ seen
    · rw [firsts_cons_of_mem hseen, firsts_cons_of_mem (hr.1 hseen), ih hrs]
    · have hmore : ∀ y ∈ rs, y.url ∈ r.url :: seen ↔ y.url ∈ r.url :: seen' := by
        intro y hy
        rw [List.mem_cons, List.mem_cons, hrs y hy]
      rw [firsts_cons_of_not_mem hseen, firsts_cons_of_not_mem (mt hr.2 hseen), ih hmore]

/-- The reference that stays is the first one with its URL. -/
theorem mem_firsts_iff : r ∈ firsts seen rs ↔ rs.find? (·.url = r.url) = some r ∧ r.url ∉ seen := by
  induction rs generalizing seen with
  | nil => simp [firsts]
  | cons y rs ih =>
    by_cases hseen : y.url ∈ seen
    · rw [firsts_cons_of_mem hseen, ih]
      by_cases hurl : y.url = r.url
      · rw [← hurl]
        simp [hseen]
      · rw [List.find?_cons_of_neg (by simpa using hurl)]
    · rw [firsts_cons_of_not_mem hseen, List.mem_cons, ih]
      by_cases hurl : y.url = r.url
      · rw [List.find?_cons_of_pos (by simpa using hurl), ← hurl]
        simp [hseen, eq_comm]
      · have hne : r ≠ y := by
          rintro rfl
          exact hurl rfl
        rw [List.find?_cons_of_neg (by simpa using hurl), List.mem_cons]
        simp [hne, Ne.symm hurl]

/-- The references stay in order. -/
theorem urls_firsts (seen : List Text) (rs : List Reference) :
    (firsts seen rs).map (·.url) = ((rs.map (·.url)).filter (· ∉ seen)).eraseDups := by
  induction rs generalizing seen with
  | nil => rfl
  | cons r rs ih =>
    by_cases hseen : r.url ∈ seen
    · rw [firsts_cons_of_mem hseen, ih, List.map_cons, List.filter_cons_of_neg (by simpa using hseen)]
    · rw [firsts_cons_of_not_mem hseen, List.map_cons, List.map_cons, ih,
        List.filter_cons_of_pos (by simpa using hseen), List.eraseDups_cons, List.filter_filter]
      congr 3
      funext v
      rw [Bool.eq_iff_iff]
      simp

end HtmlDeps.Imports
