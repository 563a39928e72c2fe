import Mathlib.Data.List.Induction
import HtmlDeps.Build.Outlet

/-!
# Delivery

A stream is fed and closed on one side and read on the other, in any order.  The reader meets the files
that were accepted, each once and in the order in which they were sent, and after them the first ending,
however often it reads (`delivers_afterUse`).  It makes no difference whether the stream is kept as a whole
or as a queue with the ending behind the files, from which the reader takes what is in front (`Pipe`).

This is the contract of `FileStream`: “first terminal wins”, and “iteration raises the failure once queued
files are drained”.
-/

namespace HtmlDeps

namespace Outlet

variable {ε : Type}

/-! ### Uses of a stream -/

/-- What is done with a stream.  A reader who has to wait reads again. -/
inductive Use (ε : Type) where
  | send (f : File)
  | close (e : Ending ε)
  | read

/-- What comes of a use. -/
inductive Effect (ε : Type) where
  | done
  | refused (c : Closed)
  | met (r : Reading ε)
deriving DecidableEq

/-- Uses a stream once. -/
def use (o : Outlet ε) : Use ε → Outlet ε × Effect ε
  | .send f =>
    match o.send f with
    | .ok o' => (o', .done)
    | .error c => (o, .refused c)
  | .close e => (o.close e, .done)
  | .read => (o.next.1, .met o.next.2)

/-- A stream after it was used. -/
def afterUse (o : Outlet ε) (us : List (Use ε)) : Outlet ε := us.foldl (fun o u => (o.use u).1) o

/-- The uses of a stream with what came of them. -/
def record (o : Outlet ε) : List (Use ε) → List (Use ε × Effect ε)
  | [] => []
  | u :: us => (u, (o.use u).2) :: record (o.use u).1 us

/-- The file that was accepted by a use. -/
def accepted? : Use ε × Effect ε → Option File
  | (.send f, .done) => some f
  | _ => none

/-- What a reader met by a use, unless it has to wait. -/
def met? : Use ε × Effect ε → Option (Reading ε)
  | (_, .met .pending) => none
  | (_, .met r) => some r
  | _ => none

/-- The ending that a use gives a stream that has none. -/
def ending? : Use ε → Option (Ending ε)
  | .close e => some e
  | _ => none

/-- The files that a new stream has accepted. -/
def accepted (name : Text) (us : List (Use ε)) : List File :=
  (record (start name) us).filterMap accepted?

/-- What the reader of a new stream has met. -/
def met (name : Text) (us : List (Use ε)) : List (Reading ε) := (record (start name) us).filterMap met?

/-- The first ending among uses. -/
def firstEnding (us : List (Use ε)) : Option (Ending ε) := us.findSome? ending?

/-- What a reader is to meet: one file after the other, and the ending ever after. -/
def promised (fs : List File) (e : Option (Ending ε)) (i : Nat) : Reading ε :=
  match fs[i]? with
  | some f => .file f
  | none => e.elim .pending .ending

variable {o : Outlet ε} {name : Text} {us vs : List (Use ε)} {u : Use ε} {f : File} {fs : List File}
  {e : Ending ε} {i : Nat}

theorem record_append (o : Outlet ε) (us vs : List (Use ε)) :
    o.record (us ++ vs) = o.record us ++ (o.afterUse us).record vs := by
  induction us generalizing o with
  | nil => rfl
  | cons u us ih =>
    change (u, (o.use u).2) :: (o.use u).1.record (us ++ vs) = _
    rw [ih]
    rfl

theorem afterUse_append (o : Outlet ε) (us vs : List (Use ε)) :
    o.afterUse (us ++ vs) = (o.afterUse us).afterUse vs := List.foldl_append ..

theorem accepted_concat (name : Text) (us : List (Use ε)) (u : Use ε) :
    accepted name (us ++ [u]) =
      accepted name us ++ (accepted? (u, (((start name).afterUse us).use u).2)).toList := by
  rw [accepted, record_append, List.filterMap_append, accepted]
  congr 1

theorem met_concat (name : Text) (us : List (Use ε)) (u : Use ε) :
    met name (us ++ [u]) = met name us ++ (met? (u, (((start name).afterUse us).use u).2)).toList := by
  rw [met, record_append, List.filterMap_append, met]
  congr 1

theorem firstEnding_append (us vs : List (Use ε)) :
    firstEnding (us ++ vs) = (firstEnding us).or (firstEnding vs) := List.findSome?_append

theorem promised_of_lt (h : i < fs.length) (e : Option (Ending ε)) : promised fs e i = .file fs[i] := by
  rw [promised, List.getElem?_eq_getElem h]

theorem promised_of_le (h : fs.length ≤ i) (e : Option (Ending ε)) :
    promised fs e i = e.elim .pending .ending := by
  rw [promised, List.getElem?_eq_none h]

/-! ### Streams that are closed -/

theorem use_send_of_closed (h : o.ending = some e) (f : File) : o.use (.send f) = (o, .refused ⟨o.name⟩) := by
  have hclosed : o.closed = true := by simp [closed, h]
  simp only [use, send, if_pos hclosed]

theorem use_close_of_closed (h : o.ending = some e) (e' : Ending ε) : o.use (.close e') = (o, .done) := by
  have hclosed : o.closed = true := by simp [closed, h]
  simp only [use, close, if_pos hclosed]

theorem use_send_of_open (h : o.ending = none) (f : File) :
    o.use (.send f) = ({ o with sent := o.sent ++ [f] }, .done) := by
  have hopen : ¬ o.closed = true := by simp [closed, h]
  simp only [use, send, if_neg hopen]

theorem use_close_of_open (h : o.ending = none) (e : Ending ε) :
    o.use (.close e) = ({ o with ending := some e }, .done) := by
  have hopen : ¬ o.closed = true := by simp [closed, h]
  simp only [use, close, if_neg hopen]

theorem use_read_of_lt (h : o.taken < o.sent.length) :
    o.use .read = ({ o with taken := o.taken + 1 }, .met (.file o.sent[o.taken])) := by
  have hwaiting : o.waiting = o.sent[o.taken] :: o.sent.drop (o.taken + 1) := List.drop_eq_getElem_cons h
  simp only [use, next, hwaiting]

theorem use_read_of_le (h : o.sent.length ≤ o.taken) :
    o.use .read = (o, .met (o.ending.elim .pending .ending)) := by
  have hwaiting : o.waiting = [] := List.drop_eq_nil_of_le h
  cases he : o.ending <;> simp [use, next, hwaiting, he]

/-! ### The course of a stream -/

/-- A stream that has accepted some files and been closed by some ending, and whose reader has met some
of that. -/
structure Course (o : Outlet ε) (name : Text) (fs : List File) (e : Option (Ending ε))
    (rs : List (Reading ε)) : Prop where
  name : o.name = name
  sent : o.sent = fs
  ending : o.ending = e
  taken : o.taken = min rs.length fs.length
  met : rs = (List.range rs.length).map (promised fs e)
  beyond : fs.length < rs.length → e ≠ none  -- only an ending is met beyond the files

variable {rs : List (Reading ε)} {e? : Option (Ending ε)}

theorem course_start (name : Text) : Course (start name : Outlet ε) name [] none [] where
  name := rfl
  sent := rfl
  ending := rfl
  taken := rfl
  met := rfl
  beyond h := absurd h (Nat.lt_irrefl 0)

theorem Course.taken_of_lt (h : Course o name fs e? rs) (hlt : rs.length < fs.length) :
    o.taken = rs.length := h.taken.trans (Nat.min_eq_left (Nat.le_of_lt hlt))

theorem Course.taken_of_le (h : Course o name fs e? rs) (hle : fs.length ≤ rs.length) :
    o.taken = o.sent.length := by
  rw [h.taken, h.sent, Nat.min_eq_right hle]

/-- As long as there is no ending, only files are met. -/
theorem Course.le_of_open (h : Course o name fs none rs) : rs.length ≤ fs.length := by
  rcases Nat.lt_or_ge fs.length rs.length with hlt | hle
  · exact absurd rfl (h.beyond hlt)
  · exact hle

/-- What was met was promised, and more files or an ending change nothing about it. -/
theorem Course.met_of_open (h : Course o name fs none rs) (gs : List File) (e? : Option (Ending ε)) :
    rs = (List.range rs.length).map (promised (fs ++ gs) e?) := by
  have hsame : ∀ i ∈ List.range rs.length, promised fs none i = promised (fs ++ gs) e? i := by
    intro i hi
    have hlt : i < fs.length := Nat.lt_of_lt_of_le (List.mem_range.1 hi) h.le_of_open
    have hlt' : i < (fs ++ gs).length := by
      rw [List.length_append]
      omega
    rw [promised_of_lt hlt, promised_of_lt hlt', List.getElem_append_left hlt]
  rw [← List.map_congr_left hsame]
  exact h.met

/-- A reader meets what is promised to it next. -/
theorem Course.use_read (h : Course o name fs e? rs) : (o.use .read).2 = .met (promised fs e? rs.length) := by
  rcases Nat.lt_or_ge rs.length fs.length with hlt | hge
  · have htaken := h.taken_of_lt hlt
    have hsent : o.taken < o.sent.length := by
      rw [htaken, h.sent]
      exact hlt
    rw [use_read_of_lt hsent, promised_of_lt hlt]
    simp only [htaken, h.sent]
  · rw [use_read_of_le (Nat.le_of_eq (h.taken_of_le hge).symm), promised_of_le hge, h.ending]

theorem Course.send (h : Course o name fs e? rs) (f : File) :
    Course (o.use (.send f)).1 name (fs ++ (accepted? (.send f, (o.use (.send f)).2)).toList) e? rs := by
  cases he : e? with
  | some e =>
    rw [use_send_of_closed (h.ending.trans he)]
    change Course o name (fs ++ []) (some e) rs
    rw [List.append_nil, ← he]
    exact h
  | none =>
    subst he
    have hle := h.le_of_open
    rw [use_send_of_open h.ending]
    change Course { o with sent := o.sent ++ [f] } name (fs ++ [f]) none rs
    have hlength : (fs ++ [f]).length = fs.length + 1 := by simp
    refine ⟨h.name, congrArg (· ++ [f]) h.sent, h.ending, ?_, h.met_of_open [f] none, fun hlt => ?_⟩
    · change o.taken = _
      rw [h.taken, hlength]
      omega
    · omega

theorem Course.close (h : Course o name fs e? rs) (e : Ending ε) :
    Course (o.use (.close e)).1 name fs (e?.or (some e)) rs := by
  cases he : e? with
  | some e' =>
    rw [use_close_of_closed (h.ending.trans he), Option.some_or, ← he]
    exact h
  | none =>
    subst he
    rw [use_close_of_open h.ending]
    refine ⟨h.name, h.sent, rfl, h.taken, ?_, nofun⟩
    have hmet := h.met_of_open [] (some e)
    rwa [List.append_nil] at hmet

theorem Course.read (h : Course o name fs e? rs) :
    Course (o.use .read).1 name fs e? (rs ++ (met? (.read, (o.use .read).2)).toList) := by
  -- One reply more is as promised if it is the one that is promised next.
  have hmore : ∀ r, promised fs e? rs.length = r →
      rs ++ [r] = (List.range (rs ++ [r]).length).map (promised fs e?) := by
    rintro r rfl
    rw [List.length_append, List.length_singleton, List.range_succ, List.map_append, ← h.met]
    rfl
  rw [h.use_read]
  rcases Nat.lt_or_ge rs.length fs.length with hlt | hge
  · have htaken := h.taken_of_lt hlt
    have hsent : o.taken < o.sent.length := by
      rw [htaken, h.sent]
      exact hlt
    have hpromised := promised_of_lt hlt e?
    rw [use_read_of_lt hsent, hpromised]
    change Course { o with taken := o.taken + 1 } name fs e? (rs ++ [.file fs[rs.length]])
    refine ⟨h.name, h.sent, h.ending, ?_, hmore _ hpromised, fun hbeyond => ?_⟩
    · simp only [htaken, List.length_append, List.length_singleton]
      omega
    · rw [List.length_append, List.length_singleton] at hbeyond
      omega
  · have hpromised := promised_of_le hge e?
    rw [use_read_of_le (Nat.le_of_eq (h.taken_of_le hge).symm), hpromised]
    cases he : e? with
    | none =>
      subst he
      change Course o name fs none (rs ++ [])
      rw [List.append_nil]
      exact h
    | some e =>
      subst he
      change Course o name fs (some e) (rs ++ [.ending e])
      refine ⟨h.name, h.sent, h.ending, ?_, hmore _ hpromised, nofun⟩
      have htaken := h.taken
      rw [List.length_append, List.length_singleton]
      omega

theorem Course.use (h : Course o name fs e? rs) (u : Use ε) :
    Course (o.use u).1 name (fs ++ (accepted? (u, (o.use u).2)).toList) (e?.or (ending? u))
      (rs ++ (met? (u, (o.use u).2)).toList) := by
  cases u with
  | send f =>
    have hmet : met? (Use.send f, (o.use (.send f)).2) = none := by
      simp only [Outlet.use]
      split <;> rfl
    rw [hmet]
    simpa [ending?] using h.send f
  | close e => simpa [accepted?, met?, Outlet.use, ending?] using h.close e
  | read => simpa [accepted?, ending?] using h.read

/-- The course of a new stream. -/
theorem course_afterUse (name : Text) (us : List (Use ε)) :
    Course ((start name).afterUse us) name (accepted name us) (firstEnding us) (met name us) := by
  induction us using List.reverseRecOn with
  | nil => exact course_start name
  | append_singleton us u ih =>
    rw [accepted_concat, met_concat, afterUse_append, firstEnding_append]
    have hlast : firstEnding [u] = ending? u := by
      cases h : ending? u <;> simp [firstEnding, h]
    rw [hlast]
    exact ih.use u

/-- An ending stays the first one. -/
theorem firstEnding_append_of_eq_some (h : firstEnding us = some e) (vs : List (Use ε)) :
    firstEnding (us ++ vs) = some e := by
  rw [firstEnding_append, h, Option.some_or]

/-- Nothing is accepted after an ending. -/
theorem accepted_append_of_eq_some (h : firstEnding us = some e) (vs : List (Use ε)) :
    accepted name (us ++ vs) = accepted name us := by
  induction vs using List.reverseRecOn with
  | nil => rw [List.append_nil]
  | append_singleton vs u ih =>
    have hcourse := course_afterUse name (us ++ vs)
    have hending := hcourse.ending.trans (firstEnding_append_of_eq_some h vs)
    have hnone : accepted? (u, (((start name).afterUse (us ++ vs)).use u).2) = none := by
      cases u with
      | send f =>
        rw [use_send_of_closed hending]
        rfl
      | close e => rfl
      | read => rfl
    rw [← List.append_assoc, accepted_concat, hnone, ih, Option.toList_none, List.append_nil]

/-- As many reads as one likes get as much of what is promised. -/
theorem met_append_reads (h : firstEnding us = some e) (n : Nat) :
    met name (us ++ List.replicate n .read) =
      (List.range ((met name us).length + n)).map (promised (accepted name us) (some e)) := by
  induction n with
  | zero =>
    have hmet := (course_afterUse name us).met
    rw [h] at hmet
    rw [List.replicate_zero, List.append_nil, Nat.add_zero]
    exact hmet
  | succ n ih =>
    have hlength : (met name (us ++ List.replicate n .read)).length = (met name us).length + n := by
      rw [ih, List.length_map, List.length_range]
    have hread := (course_afterUse name (us ++ List.replicate n .read)).use_read
    rw [firstEnding_append_of_eq_some h, accepted_append_of_eq_some h, hlength] at hread
    have hmore : ∀ i, met? (Use.read, Effect.met (promised (accepted name us) (some e) i)) =
        some (promised (accepted name us) (some e) i) := by
      intro i
      unfold promised
      split <;> rfl
    rw [List.replicate_succ', ← List.append_assoc, met_concat, ih, hread, hmore, Option.toList_some,
      ← Nat.add_assoc, List.range_succ, List.map_append]
    rfl

end Outlet

/-! ### Queues -/

/-- A stream as a queue of files, with its ending behind them, and a reader who remembers the ending. -/
structure Pipe (ε : Type) where
  name : Text
  queue : List (File ⊕ Ending ε)
  terminated : Bool
  final : Option (Ending ε)

namespace Pipe

open Outlet

variable {ε : Type} {p : Pipe ε} {o : Outlet ε}

def start (name : Text) : Pipe ε := ⟨name, [], false, none⟩

/-- Uses a pipe once. -/
def use (p : Pipe ε) : Use ε → Pipe ε × Effect ε
  | .send f =>
    if p.terminated then (p, .refused ⟨p.name⟩) else ({ p with queue := p.queue ++ [.inl f] }, .done)
  | .close e =>
    if p.terminated then (p, .done)
    else ({ p with terminated := true, queue := p.queue ++ [.inr e] }, .done)
  | .read =>
    match p.final, p.queue with
    | some e, _ => (p, .met (.ending e))
    | none, .inl f :: q => ({ p with queue := q }, .met (.file f))
    | none, .inr e :: q => ({ p with queue := q, final := some e }, .met (.ending e))
    | none, [] => (p, .met .pending)

/-- The uses of a pipe with what came of them. -/
def record (p : Pipe ε) : List (Use ε) → List (Use ε × Effect ε)
  | [] => []
  | u :: us => (u, (p.use u).2) :: record (p.use u).1 us

/-- The queue holds what a stream has not given out yet; the ending is in it until the reader gets it. -/
structure Holds (p : Pipe ε) (o : Outlet ε) : Prop where
  name : p.name = o.name
  terminated : p.terminated = o.ending.isSome
  taken : o.taken ≤ o.sent.length
  queue : p.final = none → p.queue = o.waiting.map .inl ++ (o.ending.map .inr).toList
  final : ∀ e, p.final = some e → o.ending = some e ∧ o.waiting = []

theorem holds_start (name : Text) : Holds (start name : Pipe ε) (Outlet.start name) :=
  ⟨rfl, rfl, Nat.le_refl 0, fun _ => rfl, nofun⟩

theorem Holds.final_eq_none (h : Holds p o) (hopen : o.ending = none) : p.final = none := by
  cases hfinal : p.final with
  | none => rfl
  | some e =>
    have hending := (h.final e hfinal).1
    rw [hopen] at hending
    cases hending

theorem Holds.send (h : Holds p o) (f : File) :
    Holds (p.use (.send f)).1 (o.use (.send f)).1 ∧ (p.use (.send f)).2 = (o.use (.send f)).2 := by
  cases he : o.ending with
  | some e =>
    have hterminated : p.terminated = true := by rw [h.terminated, he, Option.isSome_some]
    rw [use_send_of_closed he, use, if_pos hterminated]
    exact ⟨h, by rw [h.name]⟩
  | none =>
    have hterminated : ¬ p.terminated = true := by
      rw [h.terminated, he]
      nofun
    have hfinal := h.final_eq_none he
    rw [use_send_of_open he, use, if_neg hterminated]
    have hwaiting : ({ o with sent := o.sent ++ [f] } : Outlet ε).waiting = o.waiting ++ [f] :=
      List.drop_append_of_le_length h.taken
    refine ⟨⟨h.name, h.terminated, ?_, fun _ => ?_, fun e hf => ?_⟩, rfl⟩
    · rw [List.length_append]
      exact Nat.le_add_right_of_le h.taken
    · change p.queue ++ [.inl f] = _ ++ (o.ending.map .inr).toList
      rw [h.queue hfinal, hwaiting, he]
      simp
    · change p.final = some e at hf
      rw [hfinal] at hf
      cases hf

theorem Holds.close (h : Holds p o) (e : Ending ε) :
    Holds (p.use (.close e)).1 (o.use (.close e)).1 ∧ (p.use (.close e)).2 = (o.use (.close e)).2 := by
  cases he : o.ending with
  | some e' =>
    have hterminated : p.terminated = true := by rw [h.terminated, he, Option.isSome_some]
    rw [use_close_of_closed he, use, if_pos hterminated]
    exact ⟨h, rfl⟩
  | none =>
    have hterminated : ¬ p.terminated = true := by
      rw [h.terminated, he]
      nofun
    have hfinal := h.final_eq_none he
    rw [use_close_of_open he, use, if_neg hterminated]
    refine ⟨⟨h.name, rfl, h.taken, fun _ => ?_, fun e' hf => ?_⟩, rfl⟩
    · change p.queue ++ [.inr e] = o.waiting.map .inl ++ [.inr e]
      rw [h.queue hfinal, he]
      simp
    · change p.final = some e' at hf
      rw [hfinal] at hf
      cases hf

theorem Holds.read (h : Holds p o) :
    Holds (p.use .read).1 (o.use .read).1 ∧ (p.use .read).2 = (o.use .read).2 := by
  -- The reader has met the end, or there is a file to read, or the queue holds at most the end.
  cases hfinal : p.final with
  | some e =>
    obtain ⟨hending, hwaiting⟩ := h.final e hfinal
    have hread : p.use .read = (p, .met (.ending e)) := by simp only [use, hfinal]
    rw [hread, use_read_of_le (List.drop_eq_nil_iff.1 hwaiting), hending]
    exact ⟨h, rfl⟩
  | none =>
    have hqueue := h.queue hfinal
    rcases Nat.lt_or_ge o.taken o.sent.length with hlt | hge
    · have hwaiting : o.waiting = o.sent[o.taken] :: o.sent.drop (o.taken + 1) := List.drop_eq_getElem_cons hlt
      rw [hwaiting, List.map_cons, List.cons_append] at hqueue
      rw [use_read_of_lt hlt]
      simp only [use, hfinal, hqueue]
      refine ⟨⟨h.name, h.terminated, hlt, fun _ => rfl, fun e hf => ?_⟩, trivial⟩
      cases hf
    · have hwaiting : o.waiting = [] := List.drop_eq_nil_of_le hge
      rw [hwaiting, List.map_nil, List.nil_append] at hqueue
      rw [use_read_of_le hge]
      cases he : o.ending with
      | none =>
        rw [he] at hqueue
        have hread : p.use .read = (p, .met .pending) := by
          simp only [use, hfinal, hqueue]
          rfl
        rw [hread]
        exact ⟨h, rfl⟩
      | some e =>
        rw [he] at hqueue
        have hread : p.use .read = ({ p with queue := [], final := some e }, .met (.ending e)) := by
          simp only [use, hfinal, hqueue]
          rfl
        rw [hread]
        refine ⟨⟨h.name, h.terminated, h.taken, nofun, fun e' hf => ?_⟩, rfl⟩
        exact ⟨he.trans hf, hwaiting⟩

theorem Holds.use (h : Holds p o) (u : Use ε) :
    Holds (p.use u).1 (o.use u).1 ∧ (p.use u).2 = (o.use u).2 := by
  cases u with
  | send f => exact h.send f
  | close e => exact h.close e
  | read => exact h.read

/-- Whoever uses a pipe sees what he would see of the stream. -/
theorem Holds.record_eq (h : Holds p o) (us : List (Use ε)) : p.record us = o.record us := by
  induction us generalizing p o with
  | nil => rfl
  | cons u us ih =>
    obtain ⟨hholds, heffect⟩ := h.use u
    rw [record, Outlet.record, heffect, ih hholds]

end Pipe

namespace Outlet

variable {ε : Type} {name : Text} {us : List (Use ε)} {e : Ending ε}

/-! ### Delivery -/

/-- What comes out of a stream that was used. -/
structure Delivers (name : Text) (us : List (Use ε)) : Prop where
  -- The reader has met the files that were accepted, one after the other, and then the first
  -- ending.
  met : met name us = (List.range (met name us).length).map (promised (accepted name us) (firstEnding us))
  -- Another read gets what comes next, and has to wait only if there is neither a file nor an
  -- ending.
  next : (((start name).afterUse us).use .read).2 =
    .met (promised (accepted name us) (firstEnding us) (Outlet.met name us).length)
  -- Before the ending every file is accepted, and afterwards none, with no effect on the stream.
  send : ∀ f, (((start name).afterUse us).use (.send f)).2 =
    if (firstEnding us).isSome then .refused ⟨name⟩ else .done
  unmoved : (firstEnding us).isSome → ∀ f,
    (((start name).afterUse us).use (.send f)).1 = (start name).afterUse us
  ended : (firstEnding us).isSome → ∀ e,  -- A later ending has no effect either.
    ((start name).afterUse us).use (.close e) = ((start name).afterUse us, .done)
  -- What is promised once there is an ending is promised for ever, and reads get all of it.
  final : ∀ e, firstEnding us = some e → ∀ vs,
    accepted name (us ++ vs) = accepted name us ∧ firstEnding (us ++ vs) = some e
  drained : ∀ e, firstEnding us = some e → ∀ n,
    Outlet.met name (us ++ List.replicate n .read) =
      (List.range ((Outlet.met name us).length + n)).map (promised (accepted name us) (some e))
  queued : (Pipe.start name).record us = (start name).record us  -- A queue with the ending in it does the same.

/-- **Delivery.**  Whatever is done with a stream, in any order, the reader gets exactly the files that were
accepted and then the first ending for ever, and nothing that comes after an ending has an effect. -/
theorem delivers_afterUse (name : Text) (us : List (Use ε)) : Delivers name us := by
  have hcourse := course_afterUse name us
  have hending : ∀ h : (firstEnding us).isSome, ((start name).afterUse us).ending = some ((firstEnding us).get h) :=
    fun h => hcourse.ending.trans (Option.some_get h).symm
  refine ⟨hcourse.met, hcourse.use_read, fun f => ?_, fun h f => ?_, fun h e => ?_, fun e h vs => ?_,
    fun e h n => met_append_reads h n, (Pipe.holds_start name).record_eq us⟩
  · cases h : firstEnding us with
    | none => rw [use_send_of_open (hcourse.ending.trans h), if_neg nofun]
    | some e => rw [use_send_of_closed (hcourse.ending.trans h), hcourse.name, Option.isSome_some, if_pos rfl]
  · rw [use_send_of_closed (hending h)]
  · rw [use_close_of_closed (hending h)]
  · exact ⟨accepted_append_of_eq_some h vs, firstEnding_append_of_eq_some h vs⟩

end Outlet
end HtmlDeps
