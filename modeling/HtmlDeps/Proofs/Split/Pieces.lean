import Mathlib.Algebra.GroupWithZero.Nat
import HtmlDeps.Proofs.Split.Regions
import HtmlDeps.Proofs.Text.Faithful
import HtmlDeps.Split.Ledger

/-!
# The pieces of a document

What is left of a document without the bodies of its scripts survives its bytes, since each gap
follows the `>` of a start tag (`faithful_remainder`).  Putting every body back at its offset gives
the document exactly if no region stops before it starts (`encode_splice_fillings_eq_iff`): the text
between the two ends of such a region would stand there twice.
-/

namespace HtmlDeps

namespace Text

/-- How many bytes a text has. -/
def size (t : Text) : Nat := (encode t).length

theorem size_append (s t : Text) : size (s ++ t) = size s + size t := by
  rw [size, encode_append, List.length_append]
  rfl

theorem size_pos {t : Text} (h : t ≠ []) : 0 < size t := by
  cases t with
  | nil => exact absurd rfl h
  | cons g t =>
    have hglyph : 0 < g.encode.length := by
      cases g with
      | char c => exact List.length_pos_of_ne_nil String.utf8EncodeChar_ne_nil
      | stray b => exact Nat.zero_lt_one
    rw [size, encode_cons, List.length_append]
    omega

theorem size_decode_encode (t : Text) : size (decode (encode t)) = size t := by
  rw [size, encode_decode]
  rfl

/-- A suffix that starts later is no longer. -/
theorem size_drop_le {m n : Nat} (h : m ≤ n) (t : Text) : size (t.drop n) ≤ size (t.drop m) := by
  have hdrop : t.drop m = (t.drop m).take (n - m) ++ t.drop n := by
    have hsplit := List.take_append_drop (n - m) (t.drop m)
    rw [List.drop_drop, Nat.add_sub_cancel' h] at hsplit
    exact hsplit.symm
  rw [hdrop, size_append]
  exact Nat.le_add_left _ _

/-- What stands between two offsets, and what stands behind. -/
theorem drop_take_append_drop {m n : Nat} (h : m ≤ n) (t : Text) :
    (t.take n).drop m ++ t.drop n = t.drop m := by
  have hsplit := List.take_append_drop n t
  rcases Nat.lt_or_ge t.length n with hlen | hlen
  · rw [List.take_of_length_le (Nat.le_of_lt hlen), List.drop_of_length_le (Nat.le_of_lt hlen),
      List.append_nil]
  · calc (t.take n).drop m ++ t.drop n
        = (t.take n ++ t.drop n).drop m := by
          rw [List.drop_append_of_le_length (by rw [List.length_take]; omega)]
      _ = t.drop m := by rw [hsplit]

end Text

open Text Region

/-- Regions none of which stops before it starts. -/
def Forward (rs : List Region) : Prop := ∀ r ∈ rs, r.start ≤ r.stop

/-! ### The scripts of a document -/

theorem partsOf_cons {p : Path} {t : Text} {index : Nat} {removed : Nat} {r : Region}
    {rs : List Region} {ps : List (Part × Text)}
    (h : partsOf p t index removed (r :: rs) = .ok ps) :
    ∃ path rest, p.script index = .ok path ∧
      partsOf p t (index + 1) (removed + (r.body t).length) rs = .ok rest ∧
      ps = (⟨path, r.start - removed, r.openTag, r.closeTag⟩, r.body t) :: rest := by
  simp only [partsOf] at h
  cases hpath : p.script index with
  | error e => simp [hpath, bind, Except.bind] at h
  | ok path =>
    cases hrest : partsOf p t (index + 1) (removed + (r.body t).length) rs with
    | error e => simp [hpath, hrest, bind, Except.bind] at h
    | ok rest =>
      simp only [hpath, hrest, bind, Except.bind, pure, Except.pure, Except.ok.injEq] at h
      exact ⟨path, rest, rfl, rfl, h.symm⟩

theorem bodies_partsOf {p : Path} {t : Text} {index : Nat} {removed : Nat} {rs : List Region}
    {ps : List (Part × Text)} (h : partsOf p t index removed rs = .ok ps) :
    ps.map (·.2) = rs.map (·.body t) := by
  induction rs generalizing index removed ps with
  | nil =>
    obtain rfl := Except.ok.inj h
    rfl
  | cons r rs ih =>
    obtain ⟨path, rest, -, hrest, rfl⟩ := partsOf_cons h
    simp [ih hrest]

/-- What is put back into the carrier, and where: the texts of the script files at their offsets. -/
def fillings (ps : List (Part × Text)) : List ((Nat × Nat) × Text) :=
  ps.map fun x => ((x.1.offset, x.1.offset), decode (encode x.2))

/-! ### Splicing the bodies in again -/

theorem faithful_body {t : Text} (ht : Faithful t) (r : Region) : Faithful (r.body t) :=
  (ht.take r.stop).drop r.start

theorem faithful_remainder {t : Text} (ht : Faithful t) {lo cursor : Nat} {rs : List Region}
    (hchain : Chain t lo rs) (hcursor : cursor ≤ lo) : Faithful (remainder t cursor rs) := by
  induction rs generalizing lo cursor with
  | nil => exact ht.drop cursor
  | cons r rs ih =>
    obtain ⟨⟨⟨hlen, u, hu⟩, hlt, -, -⟩, hrest⟩ := hchain
    have hsize : r.start = u.length + 1 := by
      have := congrArg List.length hu
      rw [List.length_take, Nat.min_eq_left hlen] at this
      simpa using this
    have hpiece : (t.take r.start).drop cursor = u.drop cursor ++ [.char '>'] := by
      rw [hu, List.drop_append_of_le_length (by omega)]
    have hfront : Faithful u := Faithful.of_append_left (hu ▸ ht.take r.start)
    rw [remainder, hpiece, List.append_assoc, List.singleton_append]
    exact (hfront.drop cursor).glue (by decide) (ih hrest (Nat.le_max_right _ _))

theorem Region.length_body {t : Text} {r : Region} (h : r.stop ≤ t.length) :
    (r.body t).length = r.stop - r.start := by
  rw [Region.body, List.length_drop, List.length_take, Nat.min_eq_left h]

/-- The ranges of regions. -/
def spans (rs : List Region) : List (Nat × Nat) := rs.map fun r => (r.start, r.stop)

/-- Where the scripts belong in the carrier. -/
def seams (ps : List (Part × Text)) : List (Nat × Nat) :=
  ps.map fun x => (x.1.offset, x.1.offset)

/-- If the regions are forward, texts that are put into the carrier at the offsets of the scripts,
which count the glyphs that were taken out in front of them, stand where the regions were. -/
theorem splice_remainder {t : Text} {p : Path} {index : Nat} {removed lo : Nat} {rs : List Region}
    {ps : List (Part × Text)} (h : partsOf p t index removed rs = .ok ps) (hchain : Chain t lo rs)
    (hforward : Forward rs) {bodies : List Text} (hlength : bodies.length = rs.length) {cursor : Nat}
    (hcursor : cursor ≤ lo) {pre : Text} (hpre : pre.length + removed = cursor) :
    splice (pre ++ remainder t cursor rs) pre.length ((seams ps).zip bodies) =
      splice t cursor ((spans rs).zip bodies) := by
  induction rs generalizing index removed lo ps bodies cursor pre with
  | nil =>
    obtain rfl := Except.ok.inj h
    simp [seams, spans, splice, remainder]
  | cons r rs ih =>
    obtain ⟨body, bodies, rfl⟩ := List.exists_cons_of_length_eq_add_one hlength
    obtain ⟨path, rest, -, hparts, rfl⟩ := partsOf_cons h
    obtain ⟨⟨⟨hlen, -⟩, hlt, hle, hstop⟩, hrest⟩ := hchain
    have hr : r.start ≤ r.stop := hforward r List.mem_cons_self
    have hpiece : ((t.take r.start).drop cursor).length = r.start - cursor := by
      rw [List.length_drop, List.length_take, Nat.min_eq_left hlen]
    have hbody := length_body (r := r) hstop
    -- The offset of the script counts what is left in the carrier: the start of the region, less what was
    -- taken out in front of it.
    have hoffset : (pre ++ (t.take r.start).drop cursor).length = r.start - removed := by
      rw [List.length_append, hpiece]
      omega
    have hnext : (pre ++ (t.take r.start).drop cursor).length + (removed + (r.body t).length)
        = r.stop := by
      rw [hoffset, hbody]
      omega
    have hsplice := ih hparts hrest (fun x hx => hforward x (List.mem_cons_of_mem _ hx))
      (Nat.succ.inj hlength) (Nat.le_max_right _ _) hnext
    rw [hoffset, List.append_assoc] at hsplice
    have hfront : ((pre ++ ((t.take r.start).drop cursor ++ remainder t r.stop rs)).take
        (r.start - removed)).drop pre.length = (t.take r.start).drop cursor := by
      rw [← List.append_assoc, ← hoffset, List.take_left, List.drop_left]
    rw [seams, spans] at hsplice
    simp only [seams, spans, List.map_cons, List.zip_cons_cons, splice, remainder]
    rw [hfront, hsplice]

/-- Regions that hold their own bodies. -/
theorem splice_bodies {t : Text} {lo : Nat} {rs : List Region} (hchain : Chain t lo rs)
    (hforward : Forward rs) {cursor : Nat} (hcursor : cursor ≤ lo) :
    splice t cursor ((spans rs).zip (rs.map (·.body t))) = t.drop cursor := by
  induction rs generalizing lo cursor with
  | nil => rfl
  | cons r rs ih =>
    have hstart : cursor ≤ r.start := Nat.le_trans hcursor (Nat.le_of_lt hchain.1.lt_start)
    have hsplice := ih hchain.2 (fun x hx => hforward x (List.mem_cons_of_mem _ hx))
      (Nat.le_max_right _ _)
    rw [spans] at hsplice
    simp only [spans, List.map_cons, List.zip_cons_cons, splice]
    rw [hsplice, List.append_assoc, Region.body,
      drop_take_append_drop (hforward r List.mem_cons_self), drop_take_append_drop hstart]

theorem splice_fillings {t : Text} (ht : Faithful t) {p : Path} {index : Nat} {rs : List Region}
    {ps : List (Part × Text)} (h : partsOf p t index 0 rs = .ok ps) (hchain : Chain t 0 rs)
    (hforward : Forward rs) : splice (remainder t 0 rs) 0 (fillings ps) = t := by
  have hbodies : ps.map (fun x => decode (encode x.2)) = rs.map (·.body t) := by
    have hfaithful : ∀ r ∈ rs, decode (encode (r.body t)) = r.body t :=
      fun r _ => faithful_body ht r
    have hmap := congrArg (List.map fun x => decode (encode x)) (bodies_partsOf h)
    rw [List.map_map, List.map_map] at hmap
    exact hmap.trans (List.map_congr_left hfaithful)
  have hfillings : fillings ps = (seams ps).zip (rs.map (·.body t)) := by
    rw [← hbodies, seams, List.zip_map']
    rfl
  have hpre : ([] : Text).length + 0 = 0 := rfl
  have hlength : (rs.map (·.body t)).length = rs.length := List.length_map _
  have hsplice := splice_remainder h hchain hforward hlength (Nat.le_refl 0) hpre
  rw [hfillings]
  exact hsplice.trans (splice_bodies hchain hforward (Nat.le_refl 0))

/-! ### Counting bytes -/

/-- Splicing keeps every body and loses nothing of the text. -/
theorem size_le_size_splice (t : Text) (cursor : Nat) (ps : List (Part × Text)) :
    size (t.drop cursor) + (ps.map fun x => size x.2).sum
      ≤ size (splice t cursor (fillings ps)) := by
  induction ps generalizing cursor with
  | nil => exact Nat.le_refl _
  | cons x ps ih =>
    have hrest := ih x.1.offset
    have hfront : size (t.drop cursor)
        ≤ size ((t.take x.1.offset).drop cursor) + size (t.drop x.1.offset) := by
      rcases Nat.le_total cursor x.1.offset with hle | hle
      · rw [← size_append, drop_take_append_drop hle]
      · exact Nat.le_add_left_of_le (size_drop_le hle t)
    simp only [fillings, List.map_cons, List.sum_cons, splice, size_append,
      size_decode_encode] at hrest ⊢
    omega

/-- A region's body and what lies around it make up the text, with the part between its two ends
twice if it stops before it starts. -/
theorem size_drop_le_size_region {t : Text} {lo cursor : Nat} {r : Region} (hr : r.Sits t lo)
    (hcursor : cursor ≤ lo) :
    size (t.drop cursor)
      ≤ size ((t.take r.start).drop cursor) + size (r.body t) + size (t.drop r.stop) := by
  have hfront : cursor ≤ r.start := by
    have := hr.lt_start
    omega
  rw [← drop_take_append_drop hfront, size_append]
  rcases Nat.le_total r.start r.stop with hle | hle
  · rw [← drop_take_append_drop hle, size_append, body, Nat.add_assoc]
  · have := size_drop_le hle t
    omega

theorem size_drop_lt_size_region {t : Text} {lo cursor : Nat} {r : Region} (hr : r.Sits t lo)
    (hcursor : cursor ≤ lo) (hback : r.stop < r.start) :
    size (t.drop cursor)
      < size ((t.take r.start).drop cursor) + size (r.body t) + size (t.drop r.stop) := by
  obtain ⟨⟨hlen, -⟩, hlt, -, -⟩ := hr
  have hfront : cursor ≤ r.start := by omega
  have htwice : (t.take r.start).drop r.stop ≠ [] := by
    rw [ne_eq, List.drop_eq_nil_iff, List.length_take]
    omega
  have hpos := size_pos htwice
  rw [← drop_take_append_drop hfront, size_append,
    ← drop_take_append_drop (Nat.le_of_lt hback), size_append]
  omega

theorem size_drop_le_size_pieces {t : Text} {lo cursor : Nat} {rs : List Region}
    (hchain : Chain t lo rs) (hcursor : cursor ≤ lo) :
    size (t.drop cursor)
      ≤ size (remainder t cursor rs) + (rs.map fun r => size (r.body t)).sum := by
  induction rs generalizing lo cursor with
  | nil => exact Nat.le_refl _
  | cons r rs ih =>
    have hregion := size_drop_le_size_region hchain.1 hcursor
    have hrest := ih hchain.2 (Nat.le_max_right _ _)
    simp only [remainder, size_append, List.map_cons, List.sum_cons]
    omega

/-- The pieces of a document have more bytes than the document if some region is not forward. -/
theorem size_drop_lt_size_pieces {t : Text} {lo cursor : Nat} {rs : List Region}
    (hchain : Chain t lo rs) (hcursor : cursor ≤ lo) (hback : ¬ Forward rs) :
    size (t.drop cursor)
      < size (remainder t cursor rs) + (rs.map fun r => size (r.body t)).sum := by
  induction rs generalizing lo cursor with
  | nil => exact absurd (fun r hr => absurd hr List.not_mem_nil) hback
  | cons r rs ih =>
    have hnext := Nat.le_max_right r.start r.stop
    simp only [remainder, size_append, List.map_cons, List.sum_cons]
    rcases Nat.lt_or_ge r.stop r.start with hr | hr
    · have hregion := size_drop_lt_size_region hchain.1 hcursor hr
      have hrest := size_drop_le_size_pieces hchain.2 hnext
      omega
    · have hregion := size_drop_le_size_region hchain.1 hcursor
      have hrest := ih hchain.2 hnext fun hforward => hback fun x hx => by
        rcases List.mem_cons.1 hx with rfl | hx
        · exact hr
        · exact hforward x hx
      omega

/-- Splicing the scripts of a document into its carrier gives the document's bytes exactly if the
regions are forward. -/
theorem encode_splice_fillings_eq_iff {t : Text} (ht : Faithful t) {p : Path} {index : Nat}
    {rs : List Region} {ps : List (Part × Text)} (h : partsOf p t index 0 rs = .ok ps)
    (hchain : Chain t 0 rs) :
    encode (splice (decode (encode (remainder t 0 rs))) 0 (fillings ps)) = encode t ↔
      Forward rs := by
  constructor
  · intro heq
    by_contra hback
    have hlt := size_drop_lt_size_pieces hchain (Nat.le_refl 0) hback
    have hle := size_le_size_splice (decode (encode (remainder t 0 rs))) 0 ps
    have hbodies : (ps.map fun x => size x.2).sum = (rs.map fun r => size (r.body t)).sum := by
      have := congrArg (fun bs => (bs.map size).sum) (bodies_partsOf h)
      simpa [Function.comp_def] using this
    have hsize : size (splice (decode (encode (remainder t 0 rs))) 0 (fillings ps)) = size t :=
      congrArg List.length heq
    rw [List.drop_zero, size_decode_encode] at hle
    rw [List.drop_zero] at hlt
    omega
  · intro hforward
    rw [faithful_remainder ht hchain (Nat.le_refl 0), splice_fillings ht h hchain hforward]

end HtmlDeps
