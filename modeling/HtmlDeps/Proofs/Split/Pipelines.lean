import HtmlDeps.Proofs.Split.Stream

/-!
# Pipelines that share a ledger

When a pipeline is read, a document is cut, its pieces are collected and joined, and the document is
passed on, all within one read: nothing stays pending, and nothing stays on the ledger
(`Pipeline.read_eq`).  So pipelines that share a ledger do not see each other, whatever their files are
called and in whatever order they are read (`Pipelines.perFile`).

The pipelines are the two `drain`s of `run_build`, through `split` and `rejoin` of one `HtmlSplitter`.
-/

namespace HtmlDeps

open Text Region

variable {sel : Selector} {f : File} {rs : List Region}

namespace Stage

theorem ofEntries_eq_collect (fs : List File) :
    Table.ofEntries (fs.map fun g => (g.path.key, g)) = collect [] fs := by
  rw [Table.ofEntries, List.foldl_map]
  rfl

/-- By itself, a document is joined from its pieces. -/
theorem alone_eq (hp : f.path.isHtml) (hrs : Region.locate sel f.text = .ok rs)
    {ps : List (Part × Text)} (hps : partsOf f.path f.text 0 0 rs = .ok ps) :
    alone sel f =
      .ok ⟨f.path, encode (splice (decode (encode (remainder f.text 0 rs))) 0 (fillings ps))⟩ := by
  obtain ⟨ps', hps', hcut⟩ := Ledger.empty.cut_of_locate hp hrs
  obtain rfl := Except.ok.inj (hps.symm.trans hps')
  have hnodup := nodup_keys_piecesOf hp hps (encode (remainder f.text 0 rs))
  have hmem : ∀ g ∈ piecesOf f (encode (remainder f.text 0 rs)) ps,
      (collect [] (piecesOf f (encode (remainder f.text 0 rs)) ps)).get? g.path.key = some g :=
    fun g hg => get?_collect_of_mem hnodup hg
  have hjoin : (Ledger.empty.record ⟨f.path, encode (remainder f.text 0 rs), ps.map (·.1)⟩).join sel
      ⟨f.path, encode (remainder f.text 0 rs), ps.map (·.1)⟩
      (collect [] (piecesOf f (encode (remainder f.text 0 rs)) ps)) = .ok (_, _) :=
    Ledger.join_of_get? _ (hmem _ List.mem_cons_self) fun x hx =>
      hmem ⟨x.1.path, encode x.2⟩ (List.mem_cons_of_mem _ (List.mem_map_of_mem hx))
  rw [alone, if_pos hp, hcut]
  dsimp only
  rw [Ledger.get?_cuts_record Ledger.empty
    ⟨f.path, encode (remainder f.text 0 rs), ps.map (·.1)⟩, ofEntries_eq_collect]
  dsimp only
  rw [hjoin]
  rfl

/-- A document is drawn within one read, as it becomes by itself. -/
theorem draw_split_html (hp : f.path.isHtml) (hrs : Region.locate sel f.text = .ok rs) :
    ∃ l' pieces g, split sel Ledger.empty f = .ok (l', pieces) ∧
      draw sel l' [] pieces = ⟨Ledger.empty, [], [], some g, none⟩ ∧ alone sel f = .ok g := by
  obtain ⟨ps, hps, hcut⟩ := Ledger.empty.cut_of_locate hp hrs
  have hnodup := nodup_keys_piecesOf hp hps (encode (remainder f.text 0 rs))
  have hdraw := draw_pieces (l := Ledger.empty) sel (List.Perm.refl _) hnodup rfl [] rfl
  rw [Ledger.forget_record] at hdraw
  exact ⟨_, _, _, by rw [split, if_pos hp, hcut], hdraw, alone_eq hp hrs hps⟩

theorem draw_split (hlocate : f.path.isHtml → ∃ rs, Region.locate sel f.text = .ok rs) :
    ∃ l' pieces g, split sel Ledger.empty f = .ok (l', pieces) ∧
      draw sel l' [] pieces = ⟨Ledger.empty, [], [], some g, none⟩ ∧ alone sel f = .ok g := by
  by_cases hp : f.path.isHtml
  · obtain ⟨rs, hrs⟩ := hlocate hp
    exact draw_split_html hp hrs
  · have htake : take sel Ledger.empty [] f = .ok ⟨Ledger.empty, [], some f⟩ := rfl
    refine ⟨Ledger.empty, [f], f, by rw [split, if_neg hp], ?_, by rw [alone, if_neg hp]⟩
    rw [draw, htake]

end Stage

/-! ### Reads -/

/-- One read passes one file on, and nothing stays behind. -/
theorem Pipeline.read_eq (hlocate : f.path.isHtml → ∃ rs, Region.locate sel f.text = .ok rs) (rest : List File) : ∃ g, Stage.alone sel f = .ok g ∧
      Pipeline.read sel Ledger.empty ⟨f :: rest, [], []⟩ =
        (rest, ⟨Ledger.empty, [], [], some g, none⟩) := by
  obtain ⟨l', pieces, g, hsplit, hdraw, halone⟩ := Stage.draw_split hlocate
  refine ⟨g, halone, ?_⟩
  simp only [Pipeline.read, hsplit, hdraw]

namespace Pipelines

/-- Each file has passed by itself, in the order of its source, without a fault, and nothing is left on
the ledger. -/
structure PerFile (sel : Selector) (sources : Bool → List File) (schedule : List Bool)
    (x : Pipelines) : Prop where
  fault : x.fault = none
  ledger : x.ledger = Ledger.empty
  passed : ∀ side, (x.passed side).map .ok =
    ((sources side).take (schedule.count side)).map (Stage.alone sel)

/-- Two pipelines between reads, with these files still to come. -/
structure Ready (sources : Bool → List File) (x : Pipelines) : Prop where
  fault : x.fault = none
  ledger : x.ledger = Ledger.empty
  pipeline : ∀ side, x.pipeline side = ⟨sources side, [], []⟩

variable {sources : Bool → List File} {x : Pipelines}

section

variable (hlocate : ∀ side, ∀ f ∈ sources side, f.path.isHtml →
    ∃ rs, Region.locate sel f.text = .ok rs)

include hlocate

theorem Ready.read_pipeline (h : Ready sources x) (side : Bool) : ∃ passed : Option File,
    (x.pipeline side).read sel x.ledger =
        ((sources side).drop 1, ⟨Ledger.empty, [], [], passed, none⟩) ∧
      passed.toList.map .ok = ((sources side).take 1).map (Stage.alone sel) := by
  rw [h.pipeline side, h.ledger]
  cases hsource : sources side with
  | nil => exact ⟨none, rfl, rfl⟩
  | cons f rest =>
    have hmem : f ∈ sources side := hsource ▸ List.mem_cons_self
    obtain ⟨g, halone, hread⟩ := Pipeline.read_eq (hlocate side f hmem) rest
    exact ⟨some g, hread, by simp [halone]⟩

/-- A read takes one file from one of the sources. -/
theorem Ready.read (h : Ready sources x) (side : Bool) :
    Ready (fun k => if k = side then (sources k).drop 1 else sources k) (x.read sel side) ∧
      ∀ k, ((x.read sel side).passed k).map .ok = (x.passed k).map .ok ++
        if k = side then ((sources k).take 1).map (Stage.alone sel) else [] := by
  obtain ⟨passed, hread, hpassed⟩ := h.read_pipeline hlocate side
  refine ⟨⟨?_, ?_, fun k => ?_⟩, fun k => ?_⟩
  · simp only [Pipelines.read, hread, h.fault]
    rfl
  · simp only [Pipelines.read, hread]
  · simp only [Pipelines.read, hread]
    by_cases hk : k = side
    · rw [if_pos hk, if_pos hk, hk]
    · rw [if_neg hk, if_neg hk]
      exact h.pipeline k
  · simp only [Pipelines.read, hread]
    by_cases hk : k = side
    · rw [if_pos hk, if_pos hk, List.map_append, hpassed, hk]
    · rw [if_neg hk, if_neg hk, List.append_nil]

end

/-- Whatever the order of the reads, the files of each pipeline pass by themselves. -/
theorem Ready.reads (hlocate : ∀ side, ∀ f ∈ sources side, f.path.isHtml →
      ∃ rs, Region.locate sel f.text = .ok rs) (h : Ready sources x)
    (schedule : List Bool) :
    (x.reads sel schedule).fault = none ∧ (x.reads sel schedule).ledger = Ledger.empty ∧
      ∀ k, ((x.reads sel schedule).passed k).map .ok = (x.passed k).map .ok ++
        ((sources k).take (schedule.count k)).map (Stage.alone sel) := by
  induction schedule generalizing sources x with
  | nil => exact ⟨h.fault, h.ledger, fun k => by simp [Pipelines.reads]⟩
  | cons side schedule ih =>
    obtain ⟨hready, hpassed⟩ := h.read hlocate side
    have hrest : ∀ k, ∀ f ∈ (fun k => if k = side then (sources k).drop 1 else sources k) k,
        f ∈ sources k := by
      intro k f hf
      dsimp only at hf
      split at hf
      · exact List.mem_of_mem_drop hf
      · exact hf
    obtain ⟨hfault, hledger, hall⟩ := ih (fun k f hf => hlocate k f (hrest k f hf)) hready
    refine ⟨hfault, hledger, fun k => ?_⟩
    rw [Pipelines.reads, List.foldl_cons, ← Pipelines.reads, hall k, hpassed k, List.append_assoc]
    congr 1
    by_cases hk : k = side
    · subst hk
      simp only [if_true, List.count_cons_self]
      rw [← List.map_append, Nat.add_comm, List.take_add]
    · simp [hk, List.count_cons_of_ne (Ne.symm hk)]

/-- **Pipelines.**  Two pipelines with files of which the regions can be located share a ledger.  In
any order of reads, each file passes by itself, in the order of its source, without a fault, and leaves
nothing behind. -/
theorem perFile {sources : Bool → List File} (hlocate : ∀ side, ∀ f ∈ sources side, f.path.isHtml →
      ∃ rs, Region.locate sel f.text = .ok rs) (schedule : List Bool) :
    PerFile sel sources schedule ((start sources).reads sel schedule) := by
  have hready : Ready sources (start sources) := ⟨rfl, rfl, fun _ => rfl⟩
  obtain ⟨hfault, hledger, hpassed⟩ := hready.reads hlocate schedule
  exact ⟨hfault, hledger, fun side => by simpa [start] using hpassed side⟩

/-- A document, a file that is called like its script, and the document again. -/
def namesakes : List File :=
  [⟨"/app/a.html", encode "<script>x</script>"⟩, ⟨"/app/a.html_script_0.js", encode "z"⟩,
    ⟨"/app//a.html", encode "<script>y</script>"⟩]

/-- Both pipelines are read in turn. -/
theorem perFile_namesakes : PerFile .usual (fun _ => namesakes) [true, false, true, false, false, true]
      ((start fun _ => namesakes).reads .usual [true, false, true, false, false, true]) ∧
    (((start fun _ => namesakes).reads .usual [true, false, true, false, false, true]).passed
      true).map (·.contents) = namesakes.map (·.contents) := by
  have hlocate : ∀ f ∈ namesakes, f.path.isHtml →
      ∃ rs, Region.locate .usual f.text = .ok rs := by
    simp only [namesakes, List.forall_mem_cons, List.not_mem_nil, false_implies, implies_true, and_true]
    refine ⟨fun _ => ⟨[⟨8, 9, "<script>", "</script>"⟩], ?_⟩, fun _ => ⟨[], ?_⟩,
      fun _ => ⟨[⟨8, 9, "<script>", "</script>"⟩], ?_⟩⟩ <;> decide +kernel
  exact ⟨perFile (fun _ => hlocate) _, by decide +kernel⟩

end Pipelines
end HtmlDeps
