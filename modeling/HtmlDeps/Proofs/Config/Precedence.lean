import HtmlDeps.Config.Load
import HtmlDeps.Proofs.Except
import HtmlDeps.Proofs.Table
import HtmlDeps.Proofs.Text.Letters
import Mathlib.Data.List.Induction

/-!
# Which value a setting gets

Settings are written in maps inside maps, each under the keys of one of them or, at the top, under its own
name, and variables of the environment have values for them too.  Flattening the maps takes up their
leaves one after the other, whatever the nesting (`Settings.takesUp_flattenInto`).  So a setting gets the value
of the last variable for it, else that of the last leaf for it, else none (`Environment.Settled`).

From the file to the fields, this is `Settings.from_yaml`: `resolve_config_path` finds the file and
`_read_yaml` reads it (`Environment.config_eq_ok_iff`), `_flatten_yaml` and `_load_env_overrides` have the
values, and what is absent takes its default (`Environment.settings_eq_ok_iff`).
-/

namespace HtmlDeps

/-! ### The leaves of a map -/

namespace Value

mutual

/-- All that a value holds but maps, in order, each with the keys that lead to it. -/
def leaves (keys : List Value) : Value → List (List Value × Value)
  | .map es => leavesOf keys es
  | v => [(keys, v)]

/-- The leaves of the entries of a map, in order. -/
def leavesOf (keys : List Value) : List (Value × Value) → List (List Value × Value)
  | [] => []
  | (k, v) :: es => leaves (keys ++ [k]) v ++ leavesOf keys es

end

end Value

namespace KeyPath

/-- The path that keys make. -/
def ofKeys (keys : List Value) : KeyPath := keys.foldl under (some [])

theorem ofKeys_concat (keys : List Value) (k : Value) : ofKeys (keys ++ [k]) = (ofKeys keys).under k := by
  simp [ofKeys]

theorem under_eq_some_iff {p : KeyPath} {k : Value} {names : List Text} :
    p.under k = some names ↔ ∃ front name, p = some front ∧ k = .text name ∧ names = front ++ [name] := by
  constructor
  · intro h
    unfold under at h
    split at h
    · rename_i name
      obtain ⟨front, rfl, hnames⟩ := Option.map_eq_some_iff.1 h
      exact ⟨front, name, rfl, rfl, hnames.symm⟩
    · cases h
  · rintro ⟨front, name, rfl, rfl, rfl⟩
    rfl

theorem ofKeys_eq_some_iff {keys : List Value} {names : List Text} :
    ofKeys keys = some names ↔ keys = names.map .text := by
  induction keys using List.reverseRecOn generalizing names with
  | nil =>
    cases names with
    | nil => exact iff_of_true rfl rfl
    | cons name names => exact iff_of_false nofun nofun
  | append_singleton keys k ih =>
    rw [ofKeys_concat, under_eq_some_iff]
    constructor
    · rintro ⟨front, name, hkeys, rfl, rfl⟩
      rw [ih.1 hkeys, List.map_append, List.map_singleton]
    · intro h
      obtain ⟨front, last, rfl, hfront, hlast⟩ := List.map_eq_append_iff.1 h.symm
      obtain ⟨name, rest, rfl, hname, hrest⟩ := List.map_eq_cons_iff.1 hlast
      obtain rfl := List.map_eq_nil_iff.1 hrest
      exact ⟨front, name, ih.2 hfront.symm, hname.symm, rfl⟩

theorem field?_eq_some_iff {names : List Text} {f : Text} : field? (some names) = some f ↔
    f ∈ Settings.fieldNames ∧ names = [f] ∨ (names, f) ∈ nestedFields := by
  have hfound : ∀ x ∈ nestedFields, (nestedFields.find? (·.1 == x.1)).map (·.2) = some x.2 := by decide
  have hpairs : ∀ x ∈ nestedFields, x.1.length = 2 := by decide
  unfold field?
  split  -- A single name is a field of its own; two names are looked up among the nested ones.
  · rename_i name heq
    obtain rfl := Option.some.inj heq
    have hnested : ([name], f) ∉ nestedFields := fun hmem => absurd (hpairs _ hmem) (by simp)
    rw [or_iff_left hnested, Option.ite_none_right_eq_some, List.contains_iff_mem, Option.some.injEq,
      List.singleton_inj]
    constructor
    · rintro ⟨hname, rfl⟩
      exact ⟨hname, rfl⟩
    · rintro ⟨hname, rfl⟩
      exact ⟨hname, rfl⟩
  · rename_i keys hone heq
    obtain rfl := Option.some.inj heq
    have hsingle : ¬ (f ∈ Settings.fieldNames ∧ names = [f]) := by
      rintro ⟨-, rfl⟩
      exact hone f rfl
    rw [or_iff_right hsingle]
    constructor
    · intro h
      obtain ⟨x, hx, rfl⟩ := Option.map_eq_some_iff.1 h
      have hkeys : x.1 = names := by simpa using List.find?_some hx
      rw [← hkeys]
      exact List.mem_of_find?_eq_some hx
    · intro h
      exact hfound _ h
  · rename_i heq
    cases heq

end KeyPath

namespace Settings

/-- Keys lead to the value of a field. -/
def Leads (f : Text) (keys : List Value) : Prop :=
  f ∈ fieldNames ∧ keys = [.text f] ∨ ∃ names, (names, f) ∈ KeyPath.nestedFields ∧ keys = names.map .text

theorem mem_fieldNames_of_leads {f : Text} {keys : List Value} (h : Leads f keys) : f ∈ fieldNames := by
  rcases h with ⟨hf, -⟩ | ⟨names, hnames, -⟩
  · exact hf
  · have hall : ∀ x ∈ KeyPath.nestedFields, x.2 ∈ fieldNames := by decide
    exact hall _ hnames

theorem field?_ofKeys_iff {f : Text} {keys : List Value} :
    (KeyPath.ofKeys keys).field? = some f ↔ Leads f keys := by
  constructor
  · intro h
    cases hkeys : KeyPath.ofKeys keys with
    | none =>
      rw [hkeys] at h
      cases h
    | some names =>
      rw [hkeys, KeyPath.field?_eq_some_iff] at h
      obtain rfl := KeyPath.ofKeys_eq_some_iff.1 hkeys
      rcases h with ⟨hf, rfl⟩ | h
      · exact .inl ⟨hf, rfl⟩
      · exact .inr ⟨names, h, rfl⟩
  · rintro (⟨hf, rfl⟩ | ⟨names, hnames, rfl⟩)
    · exact KeyPath.field?_eq_some_iff.2 (.inl ⟨hf, rfl⟩)
    · rw [KeyPath.ofKeys_eq_some_iff.2 rfl]
      exact KeyPath.field?_eq_some_iff.2 (.inr hnames)

/-- The last of some leaves that keys of a field lead to. -/
def lastLeaf? (f : Text) (ls : List (List Value × Value)) : Option Value :=
  (ls.filter fun x => (KeyPath.ofKeys x.1).field? = some f).getLast?.map (·.2)

/-- The table `all` is `flat` with the fields that leaves hold, the last leaf of a field counting. -/
structure TakesUp (flat : Table Text Value) (ls : List (List Value × Value)) (all : Table Text Value) : Prop where
  value : ∀ f, all.get? f = (lastLeaf? f ls).or (flat.get? f)
  keys : flat.keys.Nodup → all.keys.Nodup

namespace TakesUp

variable {flat mid all inner : Table Text Value} {ls ms : List (List Value × Value)} {keys : List Value} {v : Value}

theorem nil (flat : Table Text Value) : TakesUp flat [] flat := ⟨fun _ => rfl, id⟩

theorem append (h : TakesUp flat ls mid) (h' : TakesUp mid ms all) : TakesUp flat (ls ++ ms) all where
  value f := by
    rw [h'.value, h.value, lastLeaf?, lastLeaf?, lastLeaf?, getLast?_filter_append, Option.map_or,
      Option.or_assoc]
  keys hflat := h'.keys (h.keys hflat)

/-- What a map inside holds is taken up by itself first. -/
theorem update (h : TakesUp [] ls inner) : TakesUp flat ls (flat.update inner) where
  value f := by
    have hinner : inner.keys.Nodup := h.keys List.nodup_nil
    rw [Table.get?_update, Table.last?_eq_get? hinner, h.value]
    simp [Table.get?]
  keys hflat := Table.nodup_keys_update hflat inner

theorem put {name : Text} (h : (KeyPath.ofKeys keys).field? = some name) :
    TakesUp flat [(keys, v)] (flat.put name v) where
  value f := by
    rw [Table.get?_put, lastLeaf?, List.filter_singleton, h]
    by_cases hf : name = f <;> simp [hf]
  keys hflat := Table.nodup_keys_put hflat name v

theorem skip (h : (KeyPath.ofKeys keys).field? = none) : TakesUp flat [(keys, v)] flat where
  value f := by simp [lastLeaf?, h]
  keys := id

end TakesUp

/-- Flattening writes the value of a field that is no map under its name. -/
theorem flattenInto_of_ne_map {v : Value} (hv : ∀ es, v ≠ .map es) (p : KeyPath) (flat : Table Text Value) :
    flattenInto p flat v = p.field?.elim flat fun name => flat.put name v := by
  cases v with
  | map es => exact absurd rfl (hv es)
  | _ => cases hfield : p.field? <;> simp only [flattenInto, hfield, Option.elim]

theorem leaves_of_ne_map {v : Value} (hv : ∀ es, v ≠ .map es) (keys : List Value) : v.leaves keys = [(keys, v)] := by
  cases v with
  | map es => exact absurd rfl (hv es)
  | _ => rfl

theorem takesUp_of_ne_map {v : Value} (hv : ∀ es, v ≠ .map es) (keys : List Value) (flat : Table Text Value) :
    TakesUp flat (v.leaves keys) (flattenInto (KeyPath.ofKeys keys) flat v) := by
  rw [flattenInto_of_ne_map hv, leaves_of_ne_map hv]
  cases hfield : (KeyPath.ofKeys keys).field? with
  | some name => exact .put hfield
  | none => exact .skip hfield

mutual

/-- Flattening takes up the leaves of a value. -/
theorem takesUp_flattenInto (keys : List Value) (flat : Table Text Value) (v : Value) :
    TakesUp flat (v.leaves keys) (flattenInto (KeyPath.ofKeys keys) flat v) := by
  cases v with
  | map es =>
    rw [flattenInto, Value.leaves]
    exact (takesUp_flattenEntries keys [] es).update
  | _ => exact takesUp_of_ne_map (by simp) keys flat

/-- Flattening takes up the leaves of the entries of a map. -/
theorem takesUp_flattenEntries (keys : List Value) (flat : Table Text Value) (es : List (Value × Value)) :
    TakesUp flat (Value.leavesOf keys es) (flattenEntries (KeyPath.ofKeys keys) flat es) := by
  match es with
  | [] => exact .nil flat
  | (k, v) :: es =>
    rw [flattenEntries, Value.leavesOf, ← KeyPath.ofKeys_concat]
    exact (takesUp_flattenInto (keys ++ [k]) flat v).append (takesUp_flattenEntries keys _ es)

end

/-! ### Maps under the name of a field -/

/-- A path on which no field can lie any more: it starts with the name of one. -/
def Barren (p : KeyPath) : Prop := ∀ names, p = some names → ∃ f rest, f ∈ fieldNames ∧ names = f :: rest

theorem Barren.under {p : KeyPath} (h : Barren p) (k : Value) : Barren (p.under k) := by
  intro names hnames
  obtain ⟨front, name, hfront, -, rfl⟩ := KeyPath.under_eq_some_iff.1 hnames
  obtain ⟨f, rest, hf, rfl⟩ := h front hfront
  exact ⟨f, rest ++ [name], hf, rfl⟩

theorem Barren.field?_under {p : KeyPath} (h : Barren p) (k : Value) : (p.under k).field? = none := by
  rw [Option.eq_none_iff_forall_ne_some]
  intro g hg
  cases hnames : p.under k with
  | none =>
    rw [hnames] at hg
    cases hg
  | some names =>
    rw [hnames, KeyPath.field?_eq_some_iff] at hg
    obtain ⟨front, name, hfront, -, rfl⟩ := KeyPath.under_eq_some_iff.1 hnames
    obtain ⟨f, rest, hf, rfl⟩ := h front hfront
    rcases hg with ⟨-, hg⟩ | hg
    · simp at hg
    · -- the maps that hold fields are not named like fields
      have hheads : ∀ x ∈ KeyPath.nestedFields, ∀ f ∈ fieldNames, x.1.head? ≠ some f := by decide
      exact hheads _ hg f hf rfl

mutual

theorem flattenInto_of_barren {p : KeyPath} (h : Barren p) (hnone : p.field? = none) (flat : Table Text Value)
    (v : Value) : flattenInto p flat v = flat := by
  cases v with
  | map es =>
    rw [flattenInto, flattenEntries_of_barren h [] es]
    rfl
  | _ =>
    rw [flattenInto_of_ne_map, hnone]
    · rfl
    · nofun

theorem flattenEntries_of_barren {p : KeyPath} (h : Barren p) (flat : Table Text Value)
    (es : List (Value × Value)) : flattenEntries p flat es = flat := by
  match es with
  | [] => rfl
  | (k, v) :: es =>
    rw [flattenEntries, flattenInto_of_barren (h.under k) (h.field?_under k) flat v]
    exact flattenEntries_of_barren h flat es

end

theorem flattenEntries_append (p : KeyPath) (flat : Table Text Value) (es es' : List (Value × Value)) :
    flattenEntries p flat (es ++ es') = flattenEntries p (flattenEntries p flat es) es' := by
  induction es generalizing flat with
  | nil => rfl
  | cons e es ih =>
    obtain ⟨k, v⟩ := e
    rw [List.cons_append, flattenEntries, flattenEntries, ih]

/-- A map under the name of a field counts for nothing. -/
theorem nested_skip {f : Text} (hf : f ∈ fieldNames) (before inner after : List (Value × Value)) :
    nested (.map (before ++ (.text f, .map inner) :: after)) = nested (.map (before ++ after)) := by
  have hbarren : Barren (some [f]) := by
    rintro names hnames
    exact ⟨f, [], hf, (Option.some.inj hnames).symm⟩
  have hmap : ∀ flat, flattenInto (KeyPath.under (some []) (.text f)) flat (.map inner) = flat := by
    intro flat
    rw [flattenInto, show KeyPath.under (some []) (.text f) = some [f] from rfl, flattenEntries_of_barren hbarren]
    rfl
  simp only [nested]
  rw [flattenEntries_append, flattenEntries_append, flattenEntries, hmap]

end Settings

namespace Environment

variable {e : Environment}

/-! ### Variables -/

/-- A variable has a value for a field: it is named `FGRAPH_` and then like the field, in any case. -/
def Sets (f name : Text) : Prop :=
  f ∈ Settings.fieldNames ∧ ∃ spelling, name = variableStart ++ spelling ∧ spelling.InCaseOf f

theorem field?_eq_some_iff {f name : Text} : field? name = some f ↔ Sets f name := by
  have hplain : ∀ f ∈ Settings.fieldNames, ∀ g ∈ f, g.isPlain := by decide
  unfold field?
  rw [Option.bind_eq_some_iff]
  constructor
  · rintro ⟨spelling, hstart, h⟩
    rw [Option.ite_none_right_eq_some, List.contains_iff_mem] at h
    obtain ⟨hf, hlower⟩ := h
    obtain rfl := Option.some.inj hlower
    exact ⟨hf, spelling, Text.after?_eq_some.1 hstart, (Text.lower_eq_iff (hplain _ hf)).1 rfl⟩
  · rintro ⟨hf, spelling, rfl, hcase⟩
    refine ⟨spelling, Text.after?_eq_some.2 rfl, ?_⟩
    dsimp only
    rw [(Text.lower_eq_iff (hplain f hf)).2 hcase, if_pos (List.contains_iff_mem.2 hf)]

theorem last?_overrides (e : Environment) (f : Text) :
    Table.last? (e.overrides.map fun (f, v) => (f, Value.text v)) f =
      (e.assignments.filter fun x => field? x.1 = some f).getLast?.map fun x => .text x.2 := by
  have hentries : e.overrides =
      .ofEntries (e.assignments.filterMap fun x => (field? x.1).map fun f => (f, x.2)) := rfl
  have hkeys : e.overrides.keys.Nodup := Table.nodup_keys_ofEntries _
  rw [Table.last?_map, Table.last?_eq_get? hkeys, hentries, Table.get?_ofEntries, Table.last?_filterMap,
    Option.map_map]
  rfl

/-! ### What a setting is given -/

/-- The leaves of a configuration file, if there is one. -/
def leaves (file : Option Value) : List (List Value × Value) := file.elim [] (Value.leaves [])

/-- What a setting is given: the value of the last variable for it; if there is none, that of the last
leaf for it; if there is none either, nothing. -/
inductive Settled (e : Environment) (file : Option Value) (f : Text) : Option Value → Prop
  | ofVariable {name v : Text} (hlast : Last (fun x => Sets f x.1) e.assignments (name, v)) :
    Settled e file f (some (.text v))
  | ofLeaf {keys : List Value} {v : Value} (hvariables : ∀ x ∈ e.assignments, ¬ Sets f x.1)
    (hlast : Last (fun x => Settings.Leads f x.1) (leaves file) (keys, v)) : Settled e file f (some v)
  | absent (hvariables : ∀ x ∈ e.assignments, ¬ Sets f x.1)
    (hleaves : ∀ x ∈ leaves file, ¬ Settings.Leads f x.1) : Settled e file f none

theorem mem_fieldNames_of_settled {file : Option Value} {f : Text} {v : Value}
    (h : Settled e file f (some v)) : f ∈ Settings.fieldNames := by
  cases h with
  | ofVariable hlast =>
    obtain ⟨before, after, -, hsets, -⟩ := hlast
    exact hsets.1
  | ofLeaf hvariables hlast =>
    obtain ⟨before, after, -, hleads, -⟩ := hlast
    exact Settings.mem_fieldNames_of_leads hleads

theorem takesUp_nested (file : Option Value) :
    Settings.TakesUp [] (leaves file) (file.elim [] Settings.nested) := by
  cases file with
  | none => exact .nil []
  | some v =>
    change Settings.TakesUp [] (v.leaves []) (Settings.nested v)
    unfold Settings.nested
    split
    · rename_i es
      rw [Value.leaves]
      exact Settings.takesUp_flattenEntries [] [] es
    · rename_i hv
      rw [Settings.leaves_of_ne_map hv []]
      exact .skip rfl

theorem settled_settingsData (e : Environment) (file : Option Value) (f : Text) :
    Settled e file f ((e.settingsData file).get? f) := by
  have hnested := (takesUp_nested file).value f
  rw [Table.get?, Option.or_none] at hnested
  rw [settingsData, Table.get?_update, last?_overrides, hnested]
  cases hvariable : (e.assignments.filter fun x => field? x.1 = some f).getLast? with
  | some x =>
    refine .ofVariable ((getLast?_filter_eq_some_iff.1 hvariable).imp fun y => ?_)
    rw [decide_eq_true_eq, field?_eq_some_iff]
  | none =>
    have hvariables : ∀ x ∈ e.assignments, ¬ Sets f x.1 := by
      intro x hx hsets
      refine getLast?_filter_eq_none_iff.1 hvariable x hx ?_
      rw [decide_eq_true_eq, field?_eq_some_iff]
      exact hsets
    unfold Settings.lastLeaf?
    cases hleaf : ((leaves file).filter fun x => (KeyPath.ofKeys x.1).field? = some f).getLast? with
    | some x =>
      refine .ofLeaf hvariables ((getLast?_filter_eq_some_iff.1 hleaf).imp fun y => ?_)
      rw [decide_eq_true_eq, Settings.field?_ofKeys_iff]
    | none =>
      refine .absent hvariables fun x hx hleads => ?_
      refine getLast?_filter_eq_none_iff.1 hleaf x hx ?_
      rw [decide_eq_true_eq, Settings.field?_ofKeys_iff]
      exact hleads

/-- The settings handed over hold each field at most once, no name but those of fields, and under each
field what it is given. -/
structure Hands (e : Environment) (file : Option Value) (data : Table Text Value) : Prop where
  once : data.keys.Nodup
  known : data.keys ⊆ Settings.fieldNames
  settled : ∀ f, Settled e file f (data.get? f)

theorem get?_record (t : Table Text Value) (f : Text) : (Value.record t).get? f = t.get? f := by
  induction t with
  | nil => rfl
  | cons e t ih =>
    obtain ⟨k, v⟩ := e
    have hsame : Value.sameKey (.text k) (.text f) = (k == f) := rfl
    have htail : (Value.record t).get? f =
        ((t.map fun e => (Value.text e.1, e.2)).find? fun e => e.1.sameKey (.text f)).map (·.2) := rfl
    rw [Table.get?, ← ih, htail]
    simp only [Value.record, Value.get?, Value.find?, List.map_cons, List.find?_cons, hsame]
    by_cases hk : k = f
    · rw [if_pos hk, beq_iff_eq.2 hk]
      rfl
    · rw [if_neg hk, beq_eq_false_iff_ne.2 hk]

theorem hands_settingsData (e : Environment) (file : Option Value) :
    Hands e file (e.settingsData file) where
  once := Table.nodup_keys_update ((takesUp_nested file).keys List.nodup_nil) _
  known f hf := by
    obtain ⟨v, hv⟩ := Option.isSome_iff_exists.1 ((Table.mem_keys_iff _ f).1 hf)
    exact mem_fieldNames_of_settled (hv ▸ settled_settingsData e file f)
  settled := settled_settingsData e file

/-! ### The file that is read -/

/-- No variable names a configuration file. -/
def Unnamed (e : Environment) : Prop := ∀ t, e.assignments.get? configVariable = some t → t = []

/-- Where the configuration file is looked for: at the path given, or at the one that a variable names, or in the
working directory if it is there. -/
inductive Sought (e : Environment) (d : Disk) : Option Path → Path → Prop
  | given {p q : Path} (hhome : p.atHome e.homes = .ok q) : Sought e d (some p) q
  | named {t : Text} {q : Path} (hname : e.assignments.get? configVariable = some t) (ht : t ≠ [])
    (hhome : (Path.ofText t).atHome e.homes = .ok q) : Sought e d none q
  | beside (hname : e.Unnamed) (hhas : d.has (e.cwd.extend [configName])) : Sought e d none (e.cwd.extend [configName])

theorem configPath_given (e : Environment) (d : Disk) (p : Path) :
    e.configPath d (some p) = (p.atHome e.homes).map some := by
  unfold configPath
  rfl

theorem configPath_named {t : Text} (hname : e.assignments.get? configVariable = some t) (ht : t ≠ []) (d : Disk) :
    e.configPath d none = ((Path.ofText t).atHome e.homes).map some := by
  obtain ⟨g, r, rfl⟩ := List.exists_cons_of_ne_nil ht
  unfold configPath
  rw [hname]
  rfl

theorem configPath_unnamed (hname : e.Unnamed) (d : Disk) : e.configPath d none =
    .ok (if d.has (e.cwd.extend [configName]) then some (e.cwd.extend [configName]) else none) := by
  have hnone : (e.assignments.get? configVariable).getD [] = [] := by
    cases hget : e.assignments.get? configVariable with
    | none => rfl
    | some t => exact hname t hget
  unfold configPath
  rw [hnone]

theorem named_or_unnamed (e : Environment) :
    (∃ t, e.assignments.get? configVariable = some t ∧ t ≠ []) ∨ e.Unnamed := by
  by_cases h : e.Unnamed
  · exact .inr h
  · obtain ⟨t, ht⟩ := Classical.not_forall.1 h
    exact .inl ⟨t, Classical.not_imp.1 ht⟩

/-- The path of the configuration file, if one is looked for. -/
theorem configPath_eq_ok_iff {d : Disk} {given found : Option Path} : e.configPath d given = .ok found ↔
    (∃ p, Sought e d given p ∧ found = some p) ∨
      given = none ∧ e.Unnamed ∧ ¬ d.has (e.cwd.extend [configName]) ∧ found = none := by
  have hmap {q : Path} : (q.atHome e.homes).map some = .ok found ↔ ∃ p, q.atHome e.homes = .ok p ∧ found = some p := by
    cases q.atHome e.homes <;> simp [Except.map, eq_comm]
  constructor
  · intro h
    cases given with
    | some p =>
      rw [configPath_given, hmap] at h
      obtain ⟨q, hq, rfl⟩ := h
      exact .inl ⟨q, .given hq, rfl⟩
    | none =>
      rcases e.named_or_unnamed with ⟨t, hname, ht⟩ | hname
      · rw [configPath_named hname ht, hmap] at h
        obtain ⟨q, hq, rfl⟩ := h
        exact .inl ⟨q, .named hname ht hq, rfl⟩
      · rw [configPath_unnamed hname] at h
        obtain rfl := Except.ok.inj h
        split
        · exact .inl ⟨_, .beside hname ‹_›, rfl⟩
        · exact .inr ⟨rfl, hname, ‹_›, rfl⟩
  · rintro (⟨p, hhome | ⟨hname, ht, hhome⟩ | ⟨hname, hhas⟩, rfl⟩ | ⟨rfl, hname, hhas, rfl⟩)
    · rw [configPath_given, hmap]
      exact ⟨p, hhome, rfl⟩
    · rw [configPath_named hname ht, hmap]
      exact ⟨p, hhome, rfl⟩
    · rw [configPath_unnamed hname, if_pos hhas]
    · rw [configPath_unnamed hname, if_neg hhas]

/-- The map that a document holds; one that holds nothing stands for an empty map. -/
inductive Maps (c : Yaml.Content) : Yaml.Content → Prop
  | map {es : List (Value × Value)} (hvalue : c.value = .map es) : Maps c c
  | nothing (hvalue : ∀ es, c.value ≠ .map es) (hholds : c.value.holdsSomething = false) : Maps c ⟨.map [], false⟩

/-- What the configuration file is read as, if there is one. -/
inductive Supplied (e : Environment) (d : Disk) (given : Option Path) : Option (Path × Yaml.Content) → Prop
  | unsought (hgiven : given = none) (hname : e.Unnamed) (hhas : ¬ d.has (e.cwd.extend [configName])) :
    Supplied e d given none
  | gone {p : Path} (hsought : Sought e d given p) (hhas : ¬ d.has (e.cwd.join p)) : Supplied e d given none
  | file {p : Path} {bytes : Bytes} {t : Text} {c m : Yaml.Content} (hsought : Sought e d given p)
    (hread : d.read e.cwd p = .ok bytes) (htext : Text.decodeStrict? bytes = some t)
    (hdocument : e.libraries.document t = .ok c) (hmap : Maps c m) : Supplied e d given (some (p, m))

theorem readMap_eq_ok_iff {d : Disk} {p : Path} {m : Yaml.Content} : e.readMap d p = .ok m ↔ ∃ bytes t c,
    d.read e.cwd p = .ok bytes ∧ Text.decodeStrict? bytes = some t ∧ e.libraries.document t = .ok c ∧ Maps c m := by
  constructor
  · intro h
    unfold readMap at h
    obtain ⟨bytes, hread, h⟩ := exists_of_bind_eq_ok h
    split at h
    · rename_i t ht
      obtain ⟨c, hdocument, h⟩ := exists_of_bind_eq_ok h
      refine ⟨bytes, t, c, mapError_eq_ok.1 hread, ht, mapError_eq_ok.1 hdocument, ?_⟩
      split at h
      · rename_i es hvalue
        obtain rfl := Except.ok.inj h
        exact .map hvalue
      · rename_i hvalue
        split at h
        · cases h
        · obtain rfl := Except.ok.inj h
          exact .nothing hvalue (Bool.eq_false_iff.2 ‹_›)
    · cases h
    · cases h
  · rintro ⟨bytes, t, c, hread, htext, hdocument, hmap⟩
    have hread := (mapError_eq_ok (f := LoadFault.access)).2 hread
    have hdocument := (mapError_eq_ok (f := LoadFault.document)).2 hdocument
    simp only [readMap, hread, bind, Except.bind, htext, hdocument]
    cases hmap with
    | map hvalue =>
      rw [hvalue]
      rfl
    | nothing hvalue hholds =>
      split
      · rename_i es hes
        exact absurd hes (hvalue es)
      · rw [hholds, if_neg Bool.false_ne_true]
        rfl

theorem has_of_read {d : Disk} {p : Path} {bytes : Bytes} (h : d.read e.cwd p = .ok bytes) : d.has (e.cwd.join p) := by
  unfold Disk.read at h
  unfold Disk.has
  split at h
  · rename_i hfind
    rw [hfind]
  · cases h
  · cases h

/-- What the configuration file is read as. -/
theorem config_eq_ok_iff {d : Disk} {given : Option Path} {file : Option (Path × Yaml.Content)} :
    e.config d given = .ok file ↔ Supplied e d given file := by
  constructor
  · intro h
    unfold config at h
    obtain ⟨found, hpath, h⟩ := exists_of_bind_eq_ok h
    rcases configPath_eq_ok_iff.1 (mapError_eq_ok.1 hpath) with ⟨p, hsought, rfl⟩ | ⟨rfl, hname, hhas, rfl⟩
    · dsimp only at h
      split at h
      · obtain ⟨m, hread, h⟩ := exists_of_bind_eq_ok h
        obtain ⟨bytes, t, c, hread, htext, hdocument, hmap⟩ := readMap_eq_ok_iff.1 hread
        obtain rfl := Except.ok.inj h
        exact .file hsought hread htext hdocument hmap
      · obtain rfl := Except.ok.inj h
        exact .gone hsought ‹_›
    · obtain rfl := Except.ok.inj h
      exact .unsought rfl hname hhas
  · intro h
    cases h with
    | unsought hgiven hname hhas =>
      rw [config, configPath_eq_ok_iff.2 (.inr ⟨hgiven, hname, hhas, rfl⟩)]
      rfl
    | @gone p hsought hhas =>
      rw [config, configPath_eq_ok_iff.2 (.inl ⟨p, hsought, rfl⟩)]
      exact if_neg hhas
    | @file p bytes t c m hsought hread htext hdocument hmap =>
      have hmap : e.readMap d p = .ok m := readMap_eq_ok_iff.2 ⟨bytes, t, c, hread, htext, hdocument, hmap⟩
      rw [config, configPath_eq_ok_iff.2 (.inl ⟨p, hsought, rfl⟩)]
      change (if d.has (e.cwd.join p) then _ else _) = _
      rw [if_pos (has_of_read hread), hmap]
      rfl

/-! ### The settings that are read -/

/-- A field has the value that is read from what is given for it; if nothing is, it has its default. -/
def Given {α : Type} (data : Table Text Value) (f : Text) (r : FieldReader α) (default x : α) : Prop :=
  match data.get? f with
  | some v => r [f] v = .ok x
  | none => x = default

/-- Settings that are read from what is given. -/
structure Takes (c : Coercions) (data : Table Text Value) (s : Settings) : Prop where
  logLevel : Given data "log_level" c.text Settings.default.logLevel s.logLevel
  logJson : Given data "log_json" c.bool Settings.default.logJson s.logJson
  loadTimeout : Given data "load_timeout" (.positive c.number) Settings.default.loadTimeout s.loadTimeout
  splitScripts : Given data "split_scripts" c.bool Settings.default.splitScripts s.splitScripts
  outDir : Given data "out_dir" c.path Settings.default.outDir s.outDir

theorem field_eq_ok_iff {α : Type} {data : Table Text Value} {f : Text} {r : FieldReader α} {default x : α} :
    FieldReader.field (.record data) f r default = .ok x ↔ Given data f r default x := by
  rw [FieldReader.field, get?_record, Given]
  cases data.get? f with
  | none => exact ⟨fun h => (Except.ok.inj h).symm, fun h => congrArg Except.ok h.symm⟩
  | some v => rfl

theorem both_eq_ok_iff {α β : Type} {a : Checked α} {b : Checked β} {z : α × β} :
    a.both b = .ok z ↔ a = .ok z.1 ∧ b = .ok z.2 := by
  obtain ⟨x, y⟩ := z
  cases a <;> cases b <;> simp [Checked.both]

theorem read_eq_ok_iff {c : Coercions} {data : Table Text Value} {s : Settings} :
    Settings.read c (.record data) = .ok s ↔ Takes c data s := by
  have hmap {α : Type} {x : Checked α} {f : α → Settings} : x.map f = .ok s ↔ ∃ a, x = .ok a ∧ f a = s := by
    cases x <;> simp [Except.map]
  unfold Settings.read
  rw [hmap]
  simp only [both_eq_ok_iff, field_eq_ok_iff]
  constructor
  · rintro ⟨⟨l, j, w, b, o⟩, ⟨hl, hj, hw, hb, ho⟩, rfl⟩
    exact ⟨hl, hj, hw, hb, ho⟩
  · rintro ⟨hl, hj, hw, hb, ho⟩
    exact ⟨(s.logLevel, s.logJson, s.loadTimeout, s.splitScripts, s.outDir), ⟨hl, hj, hw, hb, ho⟩, rfl⟩

theorem settings_of_config {d : Disk} {given : Option Path} {file : Option (Path × Yaml.Content)}
    (h : e.config d given = .ok file) : e.settings d given =
      if file.any fun (_, c) => e.isTooDeep c then .error .tooDeep else
        (Settings.read e.libraries.coercions (.record (e.settingsData (file.map (·.2.value))))).mapError
          (.fields "Settings") := by
  rw [settings, h]
  change (if file.any _ then _ else _) = _
  split <;> rfl

theorem settings_eq_ok_iff {d : Disk} {given : Option Path} {s : Settings} : e.settings d given = .ok s ↔
    ∃ file, Supplied e d given file ∧ (∀ x ∈ file, ¬ e.isTooDeep x.2) ∧
      Takes e.libraries.coercions (e.settingsData (file.map (·.2.value))) s := by
  have hany (file : Option (Path × Yaml.Content)) :
      ¬ (file.any fun (_, c) => e.isTooDeep c) = true ↔ ∀ x ∈ file, ¬ e.isTooDeep x.2 := by
    cases file <;> simp
  constructor
  · intro h
    obtain ⟨file, hfile, -⟩ := exists_of_bind_eq_ok h
    rw [settings_of_config hfile] at h
    split at h
    · cases h
    · rename_i hdeep
      exact ⟨file, config_eq_ok_iff.1 hfile, (hany file).1 hdeep, read_eq_ok_iff.1 (mapError_eq_ok.1 h)⟩
  · rintro ⟨file, hfile, hdeep, htakes⟩
    rw [settings_of_config (config_eq_ok_iff.2 hfile), if_neg ((hany file).2 hdeep)]
    exact mapError_eq_ok.2 (read_eq_ok_iff.2 htakes)

/-- **Settings take their values** from the last variable, then from the last leaf of the file that is read, or
else they have their defaults.  A map under the name of a field counts for nothing. -/
theorem settings_precedence (e : Environment) (d : Disk) (given : Option Path) :
    (∀ s, e.settings d given = .ok s ↔ ∃ file, Supplied e d given file ∧ (∀ x ∈ file, ¬ e.isTooDeep x.2) ∧
      Takes e.libraries.coercions (e.settingsData (file.map (·.2.value))) s) ∧
    (∀ file, Hands e file (e.settingsData file)) ∧
    ∀ (f : Text) (before inner after : List (Value × Value)), f ∈ Settings.fieldNames →
      e.settingsData (some (.map (before ++ (.text f, .map inner) :: after))) =
        e.settingsData (some (.map (before ++ after))) := by
  refine ⟨fun s => settings_eq_ok_iff, hands_settingsData e, fun f before inner after hf => ?_⟩
  simp only [settingsData, Option.elim_some, Settings.nested_skip hf]

/-- Three variables, two of them for one setting. -/
def spellings : Environment :=
  .usual "/app" [("FGRAPH_log_level", "ERROR"), ("FGRAPH_Log_Level", "DEBUG"), ("fgraph_out_dir", "x")] "/root" []

/-- A setting by its own name, and then the same and another one inside a map. -/
def levels : List (Value × Value) :=
  [(.text "log_json", .bool true),
    (.text "logging", .map [(.text "level", .text "INFO"), (.text "json", .bool false)])]

/-- The level is that of the last variable; `log_json` is that of the last leaf; and a map that is written
as the timeout changes nothing. -/
theorem settings_precedence_levels :
    ("load_timeout" : Text) ∈ Settings.fieldNames ∧
      spellings.settingsData (some (.map (levels ++ [(.text "load_timeout", .map [(.text "out_dir", .text "dist")])]))) =
      [(("log_json" : Text), Value.bool false), ("log_level", Value.text "DEBUG")] := by
  have hfield : ("load_timeout" : Text) ∈ Settings.fieldNames := by decide
  refine ⟨hfield, ?_⟩
  rw [(settings_precedence spellings Disk.empty none).2.2 "load_timeout" levels _ [] hfield]
  rfl

end Environment
end HtmlDeps
