import HtmlDeps.Proofs.Build.Footprint
import HtmlDeps.Proofs.Path.Seen

/-!
# The output mirrors the project

A file that lies under the root of a project is written at the same parts below the output directory, however
its path is spelled; any other file stops the writing before it is written (`Disk.mirrored_writeAll`).  Two
files have one place exactly if their paths have one absolute normal form (`Project.place_eq_iff`).

This is the `drain` of `run_build`, with `_write_file`.  The system may refuse a file, when its path holds a NUL
or when its place is taken (`Disk.Takes`); that ends the writing, and no file is changed by it.
-/

namespace HtmlDeps

namespace Path

variable {cwd q : Path} {n : Text}

/-- A directory that a process can be in. -/
structure Directory (cwd : Path) : Prop where
  absolute : cwd.isAbsolute
  written : cwd.Written

/-- In an absolute normal form there are only names. -/
theorem name_of_mem_absolute (hcwd : cwd.Directory) (hq : q.Written) (hn : n ∈ (q.absolute cwd).parts) :
    Name n ∧ n ≠ dot := by
  have habsolute : (cwd.join q.normal).isAbsolute := by
    unfold join
    split
    · assumption
    · exact hcwd.absolute
  have hplain : (q.absolute cwd).Plain := plain_normal habsolute
  obtain ⟨hne, hdot, hslash⟩ := (hcwd.written.join hq.normal).normal n hn
  refine ⟨⟨hne, ?_, hslash⟩, hdot⟩
  rintro rfl
  exact hplain.settled hn

theorem inOutput_names {dir : Path} {names : List Text} (hnames : ∀ n ∈ names, Name n) :
    dir.inOutput (Text.join "/" names) = dir.extend names := by
  cases names with
  | nil => rfl
  | cons n names => exact inOutput_join (List.cons_ne_nil n names) hnames

end Path

/-! ### Places -/

namespace Project

open HtmlDeps.Path

variable {p : Project} {out q q' : Path} {ns : List Text} {u u' : Text}

/-- The path leads to the parts `ns` below the root. -/
def Below (p : Project) (q : Path) (ns : List Text) : Prop :=
  (q.absolute p.cwd).parts = (p.root.absolute p.cwd).parts ++ ns

/-- Where the file with a URL is written, without any `..`. -/
def place (p : Project) (out : Path) (u : Text) : Path := (p.cwd.join (out.inOutput u)).normal

theorem Below.names (hcwd : p.cwd.Directory) (hq : q.Written) (h : p.Below q ns) :
    ∀ n ∈ ns, Name n ∧ n ≠ dot := by
  intro n hn
  apply name_of_mem_absolute hcwd hq
  rw [h]
  exact List.mem_append_right _ hn

theorem Below.url (h : p.Below q ns) : p.url q = .ok (Text.join "/" ns) := by
  unfold Project.url Url.ofPath
  rw [h]
  simp

theorem url_of_not_below (h : ∀ ns, ¬ p.Below q ns) : p.url q = .error ⟨q.normal, p.root.normal⟩ := by
  unfold Project.url Url.ofPath
  dsimp only
  rw [if_neg]
  intro hprefix
  obtain ⟨ns, hns⟩ := List.isPrefixOf_iff_prefix.1 hprefix
  exact h ns hns.symm

/-- A path with a URL lies below the root, at the parts that the URL spells. -/
theorem below_of_url (h : p.url q = .ok u) : ∃ ns, p.Below q ns ∧ u = Text.join "/" ns := by
  by_cases hbelow : ∃ ns, p.Below q ns
  · obtain ⟨ns, hns⟩ := hbelow
    exact ⟨ns, hns, Except.ok.inj (h.symm.trans hns.url)⟩
  · rw [url_of_not_below (not_exists.1 hbelow)] at h
    cases h

theorem Below.place (hcwd : p.cwd.Directory) (hq : q.Written) (h : p.Below q ns) (out : Path) :
    p.place out (Text.join "/" ns) = (p.cwd.join out).normal.extend ns := by
  have hnames : ∀ n ∈ ns, Name n := fun n hn => (h.names hcwd hq n hn).1
  rw [Project.place, inOutput_names hnames, join_extend, normal_extend_names hnames]

/-- Two files meet in the output exactly if they do in the project. -/
theorem place_eq_iff (hcwd : p.cwd.Directory) (hq : q.Written) (hq' : q'.Written) (out : Path)
    (hu : p.url q = .ok u) (hu' : p.url q' = .ok u') :
    p.place out u = p.place out u' ↔ (q.absolute p.cwd).parts = (q'.absolute p.cwd).parts := by
  obtain ⟨ns, hns, rfl⟩ := below_of_url hu
  obtain ⟨ms, hms, rfl⟩ := below_of_url hu'
  rw [hns.place hcwd hq, hms.place hcwd hq', hns, hms, List.append_right_inj]
  constructor
  · intro h
    exact List.append_cancel_left (congrArg Path.parts h)
  · rintro rfl
    rfl

end Project

/-! ### Files one after the other -/

namespace Disk

variable {d : Disk} {p : Project} {out : Path} {f : File} {fs : List File}

/-- The files of a disk with others put at places, one after the other. -/
def putAll (d : Disk) (xs : List (List Text × Bytes)) : Table (List Text) Bytes :=
  xs.foldl (fun t x => t.put x.1 x.2) d.files

/-- Why writing stops with the files `rest` still to come. -/
inductive Stops (p : Project) (out : Path) (d : Disk) : List File → Option OutputFault → Prop
  | complete : Stops p out d [] none
  -- The next file does not lie under the root.
  | outside (f : File) (rest : List File) : (∀ ns, ¬ p.Below f.path ns) →
      Stops p out d (f :: rest) (some (.build (.fault (.outside ⟨f.path.normal, p.root.normal⟩))))
  -- The disk does not take the next file.
  | refused (f : File) (rest : List File) (u : Text) (e : AccessFault) : p.url f.path = .ok u →
      ¬ d.Takes p.cwd (out.inOutput u) → Stops p out d (f :: rest) (some (.build (.fault (.access e))))

/-- Writing files puts them at the places of their URLs, up to the file at which it stops. -/
theorem writeAll_stops (hcwd : p.cwd.isAbsolute) (out : Path) (fs : List File) (d : Disk) :
    ∃ (done : List (Text × File)) (rest : List File) (d₁ : Disk), fs = done.map (·.2) ++ rest ∧
      (∀ x ∈ done, p.url x.2.path = .ok x.1) ∧
      d₁.files = d.putAll (done.map fun x => ((p.place out x.1).parts, x.2.contents)) ∧
      (d.writeAll p (some out) fs).1.files = d₁.files ∧
      d₁.Stops p out rest (d.writeAll p (some out) fs).2.2 := by
  induction fs generalizing d with  -- Each file that is written changes the disk for those behind it.
  | nil => exact ⟨[], [], d, rfl, List.forall_mem_nil _, rfl, rfl, .complete⟩
  | cons f fs ih =>
    cases hurl : p.url f.path with
    | error e =>
      have hnone : ∀ ns, ¬ p.Below f.path ns := by
        intro ns hns
        rw [hns.url] at hurl
        cases hurl
      obtain rfl := Except.error.inj (hurl.symm.trans (Project.url_of_not_below hnone))
      simp only [writeAll, hurl]
      exact ⟨[], f :: fs, d, rfl, List.forall_mem_nil _, rfl, rfl, .outside f fs hnone⟩
    | ok u =>
      have habsolute : (p.cwd.join (out.inOutput u)).isAbsolute := by
        unfold Path.join
        split
        · assumption
        · exact hcwd
      rcases d.write_cases habsolute f.contents with
        ⟨htakes, d', e, hwrite, hfiles⟩ | ⟨htakes, d', hwrite, hfiles⟩
      · simp only [writeAll, hurl, Option.elim, hwrite]
        exact ⟨[], f :: fs, d, rfl, List.forall_mem_nil _, rfl, hfiles, .refused f fs u e hurl htakes⟩
      · obtain ⟨done, rest, d₁, hsplit, hdone, hput, hlast, hstops⟩ := ih d'
        simp only [writeAll, hurl, Option.elim, hwrite]
        refine ⟨(u, f) :: done, rest, d₁, ?_, List.forall_mem_cons.2 ⟨hurl, hdone⟩, ?_, hlast, hstops⟩
        · rw [hsplit]
          rfl
        · rw [hput, putAll, hfiles]
          rfl

/-- **The output mirrors the project.**  Below the output directory, whose `..` are resolved, a file that lies
under the root has its place at the parts of its URL.  These are names, so that no place lies outside, and they
are the parts of the path's absolute normal form below the root's, so that two files meet exactly if they have
one normal form.  Files are put at their places one after the other.  A file that does not lie under the root
is not written, and stops the writing; apart from that only the disk can stop it, where it does not take a
file. -/
theorem mirrored_writeAll (hcwd : p.cwd.Directory) (out : Path) :
    (∀ q u, q.Written → p.url q = .ok u → ∃ ns, p.Below q ns ∧ u = Text.join "/" ns ∧
      (∀ n ∈ ns, Path.Name n ∧ n ≠ Path.dot) ∧ p.place out u = (p.cwd.join out).normal.extend ns) ∧
    (∀ q q' u u', q.Written → q'.Written → p.url q = .ok u → p.url q' = .ok u' →
      (p.place out u = p.place out u' ↔ (q.absolute p.cwd).parts = (q'.absolute p.cwd).parts)) ∧
    (∀ (fs : List File) (d : Disk), ∃ (done : List (Text × File)) (rest : List File) (d₁ : Disk),
      fs = done.map (·.2) ++ rest ∧
      (∀ x ∈ done, p.url x.2.path = .ok x.1) ∧
      d₁.files = d.putAll (done.map fun x => ((p.place out x.1).parts, x.2.contents)) ∧
      (d.writeAll p (some out) fs).1.files = d₁.files ∧
      d₁.Stops p out rest (d.writeAll p (some out) fs).2.2) := by
  refine ⟨?_, ?_, ?_⟩
  · intro q u hq hu
    obtain ⟨ns, hns, rfl⟩ := Project.below_of_url hu
    exact ⟨ns, hns, rfl, hns.names hcwd hq, hns.place hcwd hq out⟩
  · intro q q' u u' hq hq' hu hu'
    exact Project.place_eq_iff hcwd hq hq' out hu hu'
  · exact writeAll_stops hcwd.absolute out

/-- A project whose root is relative. -/
def relativeProject : Project where
  root := "../app"
  entrypoint := "index.html"
  shell := none
  fragments := []
  sources := []
  extras := []
  cwd := "/srv"
  matcher := Glob.accepts

/-- A file with a roundabout path has a place below the output directory, another file has another place, and
the directory whose name only starts like the root's lies outside. -/
theorem mirrored_relativeProject :
    (∃ ns, "pages/a.html" = Text.join "/" ns ∧
      relativeProject.place "build/../out" "pages/a.html" = Path.extend "/srv/out" ns) ∧
    relativeProject.place "build/../out" "pages/a.html" ≠ relativeProject.place "build/../out" "b.html" ∧
    ∃ (done : List (Text × File)) (rest : List File) (d₁ : Disk),
      [⟨"/app/./pages//x/../a.html", []⟩, ⟨"/apple/b.html", []⟩] = done.map (·.2) ++ rest ∧
      d₁.Stops relativeProject "build/../out" rest (some (.build (.fault (.outside ⟨"/apple/b.html", "../app"⟩)))) := by
  have hcwd : relativeProject.cwd.Directory := ⟨by decide, by decide⟩
  have hurl : relativeProject.url "/app/./pages//x/../a.html" = .ok "pages/a.html" := by decide
  have hother : relativeProject.url "/app/b.html" = .ok "b.html" := by decide
  obtain ⟨hplaces, hmeet, hruns⟩ := mirrored_writeAll hcwd "build/../out"
  refine ⟨?_, ?_, ?_⟩
  · obtain ⟨ns, -, hspells, -, hplace⟩ := hplaces _ _ (Path.written_ofText _) hurl
    exact ⟨ns, hspells, hplace⟩
  · rw [ne_eq, hmeet _ _ _ _ (Path.written_ofText _) (Path.written_ofText _) hurl hother]
    decide
  · obtain ⟨done, rest, d₁, hsplit, -, -, -, hstops⟩ :=
      hruns [⟨"/app/./pages//x/../a.html", []⟩, ⟨"/apple/b.html", []⟩] empty
    refine ⟨done, rest, d₁, hsplit, ?_⟩
    have hfault : (empty.writeAll relativeProject (some "build/../out")
        [⟨"/app/./pages//x/../a.html", []⟩, ⟨"/apple/b.html", []⟩]).2.2 =
          some (.build (.fault (.outside ⟨"/apple/b.html", "../app"⟩))) := by decide
    rwa [hfault] at hstops

/-- A disk with a directory where a page of the project would be written. -/
def occupiedDisk : Disk := ⟨[], [["srv", "out", "index.html"]]⟩

/-- Pages under the root that are not written: a directory has the place of one, and the other has a NUL in its
name. -/
theorem not_mirrored_occupied :
    relativeProject.url "/app/index.html" = .ok "index.html" ∧
    occupiedDisk.writeAll relativeProject (some "out") [⟨"/app/index.html", Text.encode "x"⟩] =
      (occupiedDisk, [("index.html" : Text)], some (.build (.fault (.access
        ⟨.directory, "[Errno 21] Is a directory: 'out/index.html'"⟩)))) ∧
    relativeProject.url ⟨.root, ["app", [Path.nul]]⟩ = .ok [Path.nul] ∧
    (empty.writeAll relativeProject (some "out") [⟨⟨.root, ["app", [Path.nul]]⟩, Text.encode "x"⟩]).2 =
      ([[Path.nul]], some (.build (.fault (.access ⟨.embeddedNul, "embedded null byte"⟩)))) := by
  refine ⟨by decide, ?_, by decide, ?_⟩
  · decide
  · decide

end Disk
end HtmlDeps
