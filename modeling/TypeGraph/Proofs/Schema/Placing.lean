import TypeGraph.Proofs.Schema.Loading
import TypeGraph.Proofs.Schema.WellFormed
/-!
The first pass of the loader, which gives every definition its place. It reports an error unless all
names are new and the bases of enumerations can carry constants; the definitions it keeps have names
of their own whatever it reports.
-/

namespace TypeGraph.Schema

/-- Nothing but warnings was reported. -/
def Loading.Clean (l : Loading) : Prop :=
  ∀ d ∈ l.diagnostics, d.isError = false

/-- What the type of a definition is: none for a transparent synonym, the base for an enum. -/
structure Entry.Matches (t : TypeSet) (e : Entry) : Prop where
  transparent : e.type? = none ↔ e.definition.Transparent
  kind : ∀ d, e.item = .enum d → ∃ id, e.type? = some id ∧
    (t.get? id).bind (·.scalar?) = some ((Scalar.ofKeyword? d.base.text).getD .any)

/-- The base of an enum can carry constants. -/
def Definition.BaseFine (d : Definition) : Prop :=
  ∀ e, d.item = .enum e → (Scalar.ofKeyword? e.base.text).any (·.enumerable)

/-- What holds between two items of the first pass. -/
structure Placed (l : Loading) : Prop where
  distinct : (l.entries.map (·.definition.key)).Nodup
  matched : ∀ e ∈ l.entries, e.Matches l.types
  named : ∀ id d name, l.types.get? id = some d → d.name = some name →
    (d.package, name) ∈ l.entries.map (·.definition.key)
  resolved : l.resolved = []

/-- How the first pass stands after the definitions `ds`. -/
structure Placing (ds : List Definition) (l : Loading) : Prop where
  placed : Placed l
  clean_iff : l.Clean ↔ (ds.map (·.key)).Nodup ∧ ∀ d ∈ ds, d.BaseFine
  entries : l.Clean → l.entries.map (·.definition) = ds

variable {l : Loading} {t t' : TypeSet} {e : Entry}

theorem Entry.Matches.evolves (h : e.Matches t) (ht : t.Evolves t') : e.Matches t' := by
  refine ⟨h.transparent, ?_⟩
  intro d hd
  obtain ⟨id, hid, hk⟩ := h.kind d hd
  obtain ⟨desc, hg, hs⟩ := Option.bind_eq_some_iff.mp hk
  obtain ⟨desc', hg', hm⟩ := ht id desc hg
  exact ⟨id, hid, by rw [hg', Option.bind_some, hm.scalar?, hs]⟩

theorem mem_base_iff {word : String} :
    word ∈ ["int", "uint", "float", "string"] ↔
      (Scalar.ofKeyword? word).any (·.enumerable) := by
  constructor
  · intro h
    simp only [List.mem_cons, List.not_mem_nil, or_false] at h
    rcases h with rfl | rfl | rfl | rfl <;> decide
  · intro h
    cases hk : Scalar.ofKeyword? word with
    | none => simp [hk] at h
    | some kind =>
      rw [← Scalar.keyword_of_ofKeyword? hk]
      rw [hk, Option.any_some] at h
      revert h
      cases kind <;> decide

namespace Loader

theorem clean_report {source : SourceId} {kind : Diagnostic.Kind} {span : Span}
    {detail? : Option String} {related : List Diagnostic.Related} :
    (report source kind span detail? related l).2.Clean ↔ l.Clean ∧ kind.severity ≠ .error := by
  have hd : (report source kind span detail? related l).2.diagnostics =
      l.diagnostics ++ [.make source kind span detail? related []] := rfl
  simp only [Loading.Clean, hd, List.forall_mem_append, List.forall_mem_singleton]
  simp [Diagnostic.isError, Diagnostic.severity, Diagnostic.make]

/-- What comes of giving an item a type. -/
structure Typing (l : Loading) (package : String) (item : Item) (r : Option TypeId × Loading) :
    Prop where
  entries : r.2.entries = l.entries
  resolved : r.2.resolved = l.resolved
  clean_iff : r.2.Clean ↔ l.Clean ∧ (Definition.mk package item).BaseFine
  evolves : l.types.Evolves r.2.types
  matched : ∀ source, Entry.Matches r.2.types ⟨package, source, item, r.1⟩
  named : ∀ id d name, r.2.types.get? id = some d → d.name = some name →
    l.types.get? id = some d ∨ (d.package = package ∧ name = item.name.text)

theorem declareNamed_new {package name : String} {shape : Shape}
    (h : t.lookup package name = none) :
    t.declareNamed package name shape = t.push { name := some name, package, shape } := by
  simp [TypeSet.declareNamed, h]

theorem named_push {d : Description} {package name : String} (hn : d.name = some name)
    (hp : d.package = package) (id : TypeId) (e : Description) (n : String)
    (he : (t.push d).2.get? id = some e) (hen : e.name = some n) :
    t.get? id = some e ∨ (e.package = package ∧ n = name) := by
  rw [TypeSet.get?_push] at he
  split at he
  · obtain rfl := Option.some.inj he
    exact .inr ⟨hp, Option.some.inj (hen.symm.trans hn)⟩
  · exact .inl he

/-- A new name for a struct or a scalar; `l₀` is the loading before its base was looked at. -/
theorem typing_declareNamed {l₀ : Loading} {package : String} {item : Item} {shape : Shape}
    (hentries : l.entries = l₀.entries) (hresolved : l.resolved = l₀.resolved)
    (htypes : l.types = l₀.types)
    (hclean : l.Clean ↔ l₀.Clean ∧ (Definition.mk package item).BaseFine)
    (hnew : l₀.types.lookup package item.name.text = none)
    (hitem : ¬(Definition.mk package item).Transparent)
    (hkind : ∀ d, item = .enum d → shape = .scalar ((Scalar.ofKeyword? d.base.text).getD .any)) :
    Typing l₀ package item ((do
      return some (← withTypes (·.declareNamed package item.name.text shape)) :
        Loader (Option TypeId)) l) := by
  let desc : Description := { name := some item.name.text, package, shape }
  have hr : ((do return some (← withTypes (·.declareNamed package item.name.text shape)) :
      Loader (Option TypeId)) l) = (some (l.types.push desc).1,
        { l with types := (l.types.push desc).2 }) := by
    rw [← declareNamed_new (htypes ▸ hnew)]
    rfl
  rw [hr]
  refine ⟨hentries, hresolved, hclean, htypes ▸ .push _ _, fun source => ⟨?_, ?_⟩, ?_⟩
  · simpa [Entry.definition] using hitem
  · intro d hd
    subst hd
    refine ⟨(l.types.push desc).1, rfl, ?_⟩
    simp only [TypeSet.get?_push]
    simp [TypeSet.push, desc, hkind d rfl, Description.scalar?]
  · intro id e name he hn
    exact htypes ▸ named_push rfl rfl id e name he hn

theorem typing_transparent {package : String} {d : SynonymDef}
    (h : (Definition.mk package (.synonym d)).Transparent) :
    Typing l package (.synonym d) (none, l) := by
  refine ⟨rfl, rfl, by simp [Definition.BaseFine], .refl _, fun source => ⟨?_, by simp⟩,
    fun _ _ _ he _ => .inl he⟩
  simpa [Entry.definition] using h

theorem enumBase_eq (source : SourceId) (d : EnumDef) (l : Loading) :
    enumBase source d l = ((Scalar.ofKeyword? d.base.text).getD .any,
      if (Scalar.ofKeyword? d.base.text).any (·.enumerable) then l
      else (report source .invalidEnumBase d.base.span (some d.base.text) [] l).2) := by
  unfold enumBase
  cases (Scalar.ofKeyword? d.base.text).any (·.enumerable) <;> rfl

theorem typing_declaredType (file : File) (item : Item)
    (hnew : l.types.lookup file.packagePath item.name.text = none) :
    Typing l file.packagePath item (declaredType file item l) := by
  cases item with
  | struct d =>
    exact typing_declareNamed rfl rfl rfl (by simp [Definition.BaseFine]) hnew
      (by simp [Definition.Transparent]) (by simp)
  | enum d =>
    have hget : declaredType file (.enum d) l = (do
        return some (← withTypes (·.declareNamed file.packagePath d.name.text
          (.scalar (enumBase file.source d l).1))) : Loader (Option TypeId))
            (enumBase file.source d l).2 := rfl
    rw [hget, enumBase_eq]
    split
    · next hk =>
      refine typing_declareNamed rfl rfl rfl ?_ hnew (by simp [Definition.Transparent]) (by simp)
      simp [Definition.BaseFine, hk]
    · next hk =>
      refine typing_declareNamed rfl rfl rfl ?_ hnew (by simp [Definition.Transparent]) (by simp)
      rw [clean_report]
      simp [Definition.BaseFine, Diagnostic.Kind.severity, hk]
  | synonym d =>
    obtain ⟨name, doc, target⟩ := d
    cases target with
    | scalar kind span =>
      exact typing_declareNamed rfl rfl rfl (by simp [Definition.BaseFine]) hnew
        (by simp [Definition.Transparent]) (by simp)
    | _ => exact typing_transparent ⟨_, rfl, by simp⟩

/-- A name that no definition has is new among the types. -/
theorem lookup_eq_none (h : Placed l) {package name : String}
    (hk : (package, name) ∉ l.entries.map (·.definition.key)) :
    l.types.lookup package name = none := by
  cases hl : l.types.lookup package name with
  | none => rfl
  | some id =>
    obtain ⟨d, hd, hn, rfl⟩ := TypeSet.lookup_eq_some hl
    exact absurd (h.named id d name hd hn) hk

theorem find?_eq_none_iff {package name : String} :
    (l.entries.find? fun e => e.package = package ∧ e.name = name) = none ↔
      (package, name) ∉ l.entries.map (·.definition.key) := by
  simp only [List.find?_eq_none, decide_eq_true_eq]
  simp [Entry.definition, Definition.key, Definition.name, Entry.name]

theorem placed_declareItem (file : File) (item : Item) (h : Placed l) :
    Placed (declareItem file item l).2 := by
  rw [declareItem_eq]
  split
  · exact ⟨h.distinct, h.matched, h.named, h.resolved⟩
  · next hf =>
    have hnew := find?_eq_none_iff.mp hf
    have ht := typing_declaredType file item (lookup_eq_none h hnew)
    generalize declaredType file item l = r at ht
    have hentries := ht.entries
    refine ⟨?_, ?_, ?_, ht.resolved.trans h.resolved⟩
    · simp only [hentries, List.map_append]
      refine List.nodup_append.mpr ⟨h.distinct, List.nodup_singleton _, ?_⟩
      intro k hk k' hk' heq
      subst heq
      obtain rfl := List.mem_singleton.mp hk'
      exact hnew hk
    · intro e he
      simp only [hentries] at he
      rcases List.mem_append.mp he with he | he
      · exact (h.matched e he).evolves ht.evolves
      · obtain rfl := List.mem_singleton.mp he
        exact ht.matched _
    · intro id d name hd hn
      simp only [hentries, List.map_append]
      rcases ht.named id d name hd hn with hd | ⟨hp, rfl⟩
      · exact List.mem_append_left _ (h.named id d name hd hn)
      · exact List.mem_append_right _ (hp ▸ List.mem_singleton_self _)

theorem distinct_concat_iff {ds : List Definition} {d : Definition} :
    ((ds ++ [d]).map (·.key)).Nodup ∧ (∀ d' ∈ ds ++ [d], d'.BaseFine) ↔
      ((ds.map (·.key)).Nodup ∧ ∀ d ∈ ds, d.BaseFine) ∧ d.key ∉ ds.map (·.key) ∧ d.BaseFine := by
  rw [List.map_append, List.map_singleton, ← List.concat_eq_append, List.nodup_concat,
    List.forall_mem_append, List.forall_mem_singleton]
  constructor
  · intro hall
    obtain ⟨⟨hnot, hnodup⟩, hfine, hnew⟩ := hall
    exact ⟨⟨hnodup, hfine⟩, hnot, hnew⟩
  · intro hall
    obtain ⟨⟨hnodup, hfine⟩, hnot, hnew⟩ := hall
    exact ⟨⟨hnot, hnodup⟩, hfine, hnew⟩

theorem placing_declareItem {ds : List Definition} (file : File) (item : Item)
    (h : Placing ds l) :
    Placing (ds ++ [⟨file.packagePath, item⟩]) (declareItem file item l).2 := by
  have hkeys (hclean : l.Clean) : l.entries.map (·.definition.key) = ds.map (·.key) := by
    rw [← h.entries hclean, List.map_map]
    rfl
  have hplaced := placed_declareItem file item h.placed
  rw [declareItem_eq] at hplaced ⊢
  cases hf : l.entries.find? fun e => e.package = file.packagePath ∧ e.name = item.name.text with
  | some first =>
    have hdirty : ¬(report file.source .duplicateDefinition item.name.span (some item.name.text)
        [⟨first.source, first.item.name.span, "first defined here"⟩] l).2.Clean := by
      simp [clean_report, Diagnostic.Kind.severity]
    simp only [hf] at hplaced ⊢
    refine ⟨hplaced, ⟨fun hc => absurd hc hdirty, ?_⟩, fun hc => absurd hc hdirty⟩
    intro hd
    obtain ⟨hall, hnot, -⟩ := distinct_concat_iff.mp hd
    rw [← hkeys (h.clean_iff.mpr hall)] at hnot
    have hnone : (l.entries.find? fun e =>
        e.package = file.packagePath ∧ e.name = item.name.text) = none :=
      find?_eq_none_iff.mpr hnot
    exact absurd (hnone.symm.trans hf) nofun
  | none =>
    have hnew := find?_eq_none_iff.mp hf
    have ht := typing_declaredType file item (lookup_eq_none h.placed hnew)
    simp only [hf] at hplaced ⊢
    generalize declaredType file item l = r at ht hplaced ⊢
    have hentries := ht.entries
    refine ⟨hplaced, ?_, ?_⟩
    · have hclean : r.2.Clean ↔ _ := ht.clean_iff
      rw [distinct_concat_iff, ← h.clean_iff]
      refine hclean.trans (and_congr_right fun hc => ?_)
      rw [← hkeys hc]
      exact (and_iff_right hnew).symm
    · intro hc
      have hc : l.Clean := (ht.clean_iff.mp hc).1
      simp only [hentries, List.map_append, h.entries hc]
      rfl

/-- What every declared item preserves, the first pass preserves. `P` speaks of the definitions met so
far and of the loading. -/
theorem firstPass_induction {P : List Definition → Loading → Prop}
    (hstep : ∀ ds file item l, P ds l →
      P (ds ++ [⟨file.packagePath, item⟩]) (declareItem file item l).2)
    {ds : List Definition} (files : List File) (h : P ds l) :
    P (ds ++ definitions files) (firstPass files l).2 := by
  have hitems (file : File) (items : List Item) {ds : List Definition} {l : Loading} (h : P ds l) :
      P (ds ++ items.map (⟨file.packagePath, ·⟩)) (items.forM (declareItem file) l).2 := by
    induction items generalizing ds l with
    | nil =>
      rw [List.map_nil, List.append_nil]
      exact h
    | cons item items ih =>
      have hnext := ih (hstep ds file item l h)
      rw [List.append_assoc] at hnext
      exact hnext
  induction files generalizing ds l with
  | nil =>
    rw [definitions, List.flatMap_nil, List.append_nil]
    exact h
  | cons file files ih =>
    have hnext := ih (hitems file file.items h)
    rw [List.append_assoc] at hnext
    exact hnext

/-- After the first pass the loading is clean if and only if all names differ and all bases are
fine. -/
theorem placing_firstPass {ds : List Definition} (files : List File) (h : Placing ds l) :
    Placing (ds ++ definitions files) (firstPass files l).2 :=
  firstPass_induction (fun _ file item _ h => placing_declareItem file item h) files h

theorem placed_start (diagnostics : List Diagnostic) : Placed { diagnostics } := by
  refine ⟨by simp, by simp, ?_, rfl⟩
  intro id d name hd hn
  obtain ⟨kind, -, rfl⟩ := List.mem_map.mp (List.mem_of_getElem? hd)
  simp at hn

theorem placing_start {diagnostics : List Diagnostic} (h : Loading.Clean { diagnostics }) :
    Placing [] { diagnostics } :=
  ⟨placed_start diagnostics, iff_of_true h (by simp), by simp⟩

/-- Work of the first pass: names stay distinct, and what was reported is not taken back. -/
def Places (m : Loader Unit) : Prop :=
  ∀ l, Placed l → Placed (m l).2 ∧ ((m l).2.Clean → l.Clean)

theorem places_declareItem (file : File) (item : Item) : Places (declareItem file item) := by
  intro l h
  refine ⟨placed_declareItem file item h, ?_⟩
  rw [declareItem_eq]
  cases hf : l.entries.find? fun e => e.package = file.packagePath ∧ e.name = item.name.text with
  | some first => exact fun hc => (clean_report.mp hc).1
  | none =>
    have ht := typing_declaredType file item (lookup_eq_none h (find?_eq_none_iff.mp hf))
    exact fun hc => (ht.clean_iff.mp hc).1

theorem places_forM {α : Type} {f : α → Loader Unit} (hf : ∀ a, Places (f a)) (xs : List α) :
    Places (xs.forM f) := by
  induction xs with
  | nil => exact fun l h => ⟨h, fun hc => hc⟩
  | cons x xs ih =>
    intro l h
    obtain ⟨hplaced, hclean⟩ := hf x l h
    obtain ⟨hplaced', hclean'⟩ := ih _ hplaced
    exact ⟨hplaced', fun hc => hclean (hclean' hc)⟩

theorem places_firstPass (files : List File) : Places (firstPass files) :=
  places_forM (fun file => places_forM (places_declareItem file) file.items) files

theorem placed_firstPass (files : List File) (diagnostics : List Diagnostic) :
    Placed (firstPass files { diagnostics }).2 :=
  (places_firstPass files _ (placed_start diagnostics)).1

end Loader

end TypeGraph.Schema
