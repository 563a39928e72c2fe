import HtmlDeps.Proofs.Markup.Sources
import HtmlDeps.Split.Region

/-!
# Where regions lie

The regions of a document come in order, each after both ends of the one before, and the text in
front of a region's body ends with the `>` of its start tag (`Region.chain_of_locate`).  A region may
still stop before it starts: a self-closing element makes such a region.
-/

namespace HtmlDeps.Region

/-- The regions of a document are those of its tokens, and the scan did not fail. -/
theorem scan_of_locateWith {refs : References} {sel : Selector} {t : Text} {rs : List Region}
    (h : locateWith refs sel t = .ok rs) :
    (∃ s, (Scanner.scan refs t).outcome = .ok s) ∧ ofTokens sel t none (Scanner.scan refs t).tokens = rs := by
  unfold locateWith at h
  dsimp only at h
  cases hscan : (Scanner.scan refs t).outcome with
  | error f =>
    rw [hscan] at h
    cases h
  | ok s =>
    rw [hscan] at h
    exact ⟨⟨s, rfl⟩, Except.ok.inj h⟩

/-- A search that fails does so as its scan. -/
theorem scan_of_locateWith_eq_error {refs : References} {sel : Selector} {t : Text} {f : MarkupFault}
    (h : locateWith refs sel t = .error f) : (Scanner.scan refs t).outcome = .error f := by
  unfold locateWith at h
  dsimp only at h
  cases hscan : (Scanner.scan refs t).outcome with
  | error f' =>
    rw [hscan] at h
    exact congrArg _ (Except.error.inj h)
  | ok s =>
    rw [hscan] at h
    cases h

/-- A body starts at `n`, behind the `>` of its start tag. -/
def StartsAt (t : Text) (n : Nat) : Prop :=
  n ≤ t.length ∧ ∃ u, t.take n = u ++ [.char '>']

/-- A region of the text `t` that lies behind `lo`. -/
structure Sits (t : Text) (lo : Nat) (r : Region) : Prop where
  startsAt : StartsAt t r.start
  lt_start : lo < r.start
  le_stop : lo ≤ r.stop
  stop_le : r.stop ≤ t.length

/-- Regions of the text `t` in order, the first of them behind `lo`. -/
def Chain (t : Text) : Nat → List Region → Prop
  | _, [] => True
  | lo, r :: rs => r.Sits t lo ∧ Chain t (max r.start r.stop) rs

/-- An open region whose body starts behind `lo` and not behind `n`. -/
def Awaits (t : Text) (lo n : Nat) (o : Option Opening) : Prop :=
  ∀ x ∈ o, StartsAt t x.1 ∧ lo < x.1 ∧ x.1 ≤ n

theorem awaits_none (t : Text) (lo n : Nat) : Awaits t lo n none := by
  intro x hx
  cases hx

theorem Awaits.mono {t : Text} {lo n m : Nat} {o : Option Opening} (h : Awaits t lo n o)
    (hnm : n ≤ m) : Awaits t lo m o := by
  intro x hx
  obtain ⟨hstart, hlo, hn⟩ := h x hx
  exact ⟨hstart, hlo, Nat.le_trans hn hnm⟩

/-- The start tag of a token leaves a region open behind it, if it opens one. -/
theorem awaits_opened {sel : Selector} {t before rest : Text} {lo : Nat} {p : Position} {k : Token}
    {tag : Tag} {o : Option Opening} (ht : t = before ++ k.source ++ rest)
    (hp : p.offset = before.length) (hk : k.Closes) (hevent : k.event = .opened tag)
    (hlo : lo ≤ p.offset) (ho : Awaits t lo p.offset o) :
    Awaits t lo (p.offset + k.source.length) (opened sel ⟨p, k⟩ tag o) := by
  obtain ⟨body, hbody⟩ := hk tag hevent
  cases o with
  | some x => exact ho.mono (Nat.le_add_right _ _)
  | none =>
    simp only [opened]
    split
    · intro x hx
      obtain rfl := Option.mem_some.1 hx
      refine ⟨⟨?_, before ++ body, ?_⟩, ?_, Nat.le_refl _⟩
      · simp [ht, hp]
      · rw [ht, hp, ← List.length_append, List.take_left, hbody, List.append_assoc]
      · simp only [hbody, List.length_append, List.length_singleton]
        omega
    · exact awaits_none _ _ _

/-- What an end tag at `n` completes. -/
theorem sits_of_closed? {sel : Selector} {t name : Text} {lo n m : Nat} {o : Option Opening}
    {r : Region} (h : closed? sel t n name o = some r) (ho : Awaits t lo m o) (hlo : lo ≤ n)
    (hn : n ≤ t.length) : r.Sits t lo ∧ r.stop = n ∧ r.start ≤ m := by
  cases o with
  | none => cases h
  | some x =>
    obtain ⟨start, source⟩ := x
    obtain ⟨hstart, hlt, hle⟩ := ho _ rfl
    simp only [closed?] at h
    split at h
    · obtain rfl := Option.some.inj h
      exact ⟨⟨hstart, hlt, hlo, hn⟩, rfl, hle⟩
    · cases h

theorem chain_ofTokens (sel : Selector) {t rest : Text} (ts : List Token)
    (hclose : ∀ k ∈ ts, k.Closes) {before : Text} {p : Position} {lo : Nat} {o : Option Opening}
    (ht : t = before ++ sources ts ++ rest) (hp : p.offset = before.length) (hlo : lo ≤ p.offset)
    (ho : Awaits t lo p.offset o) : Chain t lo (ofTokens sel t o (Located.of p ts)) := by
  induction ts generalizing before p lo o with
  | nil => trivial
  | cons k ts ih =>
    have ht' : t = (before ++ k.source) ++ sources ts ++ rest := by simp [ht]
    have hp' : (p.advance k.source).offset = (before ++ k.source).length := by simp [hp]
    have hoff : (p.advance k.source).offset = p.offset + k.source.length := by simp
    have hlen : p.offset ≤ t.length := by simp [ht, hp]
    -- In each of the cases the rest of the tokens goes on behind this one.
    have hnext {lo : Nat} {o : Option Opening} (hlo : lo ≤ p.offset + k.source.length)
        (ho : Awaits t lo (p.offset + k.source.length) o) :
        Chain t lo (ofTokens sel t o (Located.of (p.advance k.source) ts)) :=
      ih (fun k hk => hclose k (List.mem_cons_of_mem _ hk)) ht' hp' (hoff ▸ hlo) (hoff ▸ ho)
    simp only [Located.of, ofTokens]
    split
    · exact hnext (by omega) (ho.mono (by omega))
    · split
      · rename_i r hr
        obtain ⟨hsits, hstop, hstart⟩ := sits_of_closed? hr ho hlo hlen
        exact ⟨hsits, hnext (by omega) (awaits_none _ _ _)⟩
      · exact hnext (by omega) (ho.mono (by omega))
    · rename_i tag hevent
      have ht'' : t = before ++ k.source ++ (sources ts ++ rest) := by simp [ht]
      have hopened : Awaits t lo (p.offset + k.source.length) (opened sel ⟨p, k⟩ tag o) :=
        awaits_opened ht'' hp (hclose k List.mem_cons_self) hevent hlo ho
      split
      · split
        · rename_i r hr
          obtain ⟨hsits, hstop, hstart⟩ := sits_of_closed? hr hopened hlo hlen
          exact ⟨hsits, hnext (by omega) (awaits_none _ _ _)⟩
        · exact hnext (by omega) hopened
      · exact hnext (by omega) hopened

/-- The regions of a document lie in order. -/
theorem chain_of_locate {sel : Selector} {t : Text} {rs : List Region}
    (h : locate sel t = .ok rs) : Chain t 0 rs := by
  obtain ⟨⟨s, hscan⟩, rfl⟩ := scan_of_locateWith h
  obtain ⟨ts, rest, htokens, hcover, hclose⟩ := Scanner.scan_covers hscan
  have ht : t = [] ++ sources ts ++ rest := by simp [hcover]
  rw [htokens]
  exact chain_ofTokens sel ts hclose ht rfl (Nat.le_refl _) (awaits_none _ _ _)

end HtmlDeps.Region
