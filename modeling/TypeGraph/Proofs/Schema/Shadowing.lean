import TypeGraph.Proofs.Schema.Passes
/-!
Definitions whose names are taken. Each is reported, and leaves no other trace: all other work of
the loader takes no notice of what was reported before it, and reports no such definition.
-/

namespace TypeGraph.Schema

/-- The items whose names are new in their package: neither taken nor those of items before them. -/
def freshItems (package : String) (taken : List (String × String)) : List Item → List Item
  | [] => []
  | item :: items =>
    let rest := freshItems package ((package, item.name.text) :: taken) items
    if taken.contains (package, item.name.text) then rest else item :: rest

/-- The files without the items whose names are taken in their package: by `taken`, which is empty
at the beginning, or by an item before them. -/
def firstDefinitions (taken : List (String × String)) : List File → List File
  | [] => []
  | file :: files =>
    { file with items := freshItems file.packagePath taken file.items } ::
      firstDefinitions (file.items.map (file.packagePath, ·.name.text) ++ taken) files

namespace Loader

variable {α β : Type} {l l' : Loading}

/-- Work that takes no notice of earlier reports: it does the same and reports the same whatever was
reported before, and it reports no name that is taken. -/
def Blind (m : Loader α) : Prop :=
  ∀ l, ∃ news : List Diagnostic, (∀ d ∈ news, d.kind ≠ .duplicateDefinition) ∧
    ∀ ds, m { l with diagnostics := ds } =
      ((m l).1, { (m l).2 with diagnostics := ds ++ news })

namespace Blind

theorem bind {m : Loader α} {f : α → Loader β} (hm : Blind m) (hf : ∀ a, Blind (f a)) :
    Blind (m >>= f) := by
  intro l
  obtain ⟨news, hnews, hrun⟩ := hm l
  obtain ⟨news', hnews', hrun'⟩ := hf (m l).1 (m l).2
  refine ⟨news ++ news', List.forall_mem_append.mpr ⟨hnews, hnews'⟩, fun ds => ?_⟩
  rw [run_bind, run_bind, hrun, hrun', List.append_assoc]

/-- Work that looks at the loading, but not at its reports. -/
theorem get {f : Loading → Loader α} (hf : ∀ l, Blind (f l))
    (hsame : ∀ l ds, f { l with diagnostics := ds } = f l) : Blind (get >>= f) := by
  intro l
  obtain ⟨news, hnews, hrun⟩ := hf l l
  refine ⟨news, hnews, fun ds => ?_⟩
  rw [run_bind, run_bind, run_get, run_get, hsame]
  exact hrun ds

/-- Work that reports nothing and changes the loading without a look at its reports. -/
theorem silent {m : Loader α}
    (h : ∀ l ds, m { l with diagnostics := ds } = ((m l).1, { (m l).2 with diagnostics := ds })) :
    Blind m :=
  fun l => ⟨[], by simp, fun ds => by rw [h, List.append_nil]⟩

end Blind

theorem blind_pure (a : α) : Blind (pure a : Loader α) :=
  .silent fun _ _ => rfl

theorem blind_report (source : SourceId) {kind : Diagnostic.Kind} (span : Span)
    (detail? : Option String) (related : List Diagnostic.Related)
    (hkind : kind ≠ .duplicateDefinition) : Blind (report source kind span detail? related) :=
  fun _ => ⟨[.make source kind span detail? related []], by simpa [Diagnostic.make] using hkind,
    fun _ => rfl⟩

theorem blind_reportRepeated (source : SourceId) (name : Name) (first : Span) :
    Blind (reportRepeated source name first) :=
  blind_report source _ _ _ (by decide)

theorem blind_withTypes (f : TypeSet → TypeId × TypeSet) : Blind (withTypes f) :=
  .silent fun _ _ => rfl

theorem blind_updateTypes (f : TypeSet → TypeSet) : Blind (updateTypes f) :=
  .silent fun _ _ => rfl

theorem blind_made (f : TypeSet → TypeId × TypeSet) :
    Blind (do return some (← withTypes f) : Loader (Option TypeId)) :=
  (blind_withTypes f).bind fun id => blind_pure (some id)

section Expressions

variable {synonym : Nat → Loader (Option TypeId)}

theorem blind_reference (hs : ∀ i, Blind (synonym i)) (place : Place) (qualifier : Option String)
    (name : String) (span : Span) : Blind (reference synonym place qualifier name span) := by
  unfold reference
  apply Blind.get
  · intro l
    rcases candidates l.entries place.package qualifier name with _ | ⟨⟨entry, i⟩, _ | ⟨c, cs⟩⟩
    · exact (blind_report _ _ _ _ (by decide)).bind fun _ => blind_pure none
    · simp only
      cases entry.type? with
      | some id => exact blind_pure (some id)
      | none => exact hs i
    · exact (blind_report _ _ _ _ (by decide)).bind fun _ => blind_pure none
  · exact fun _ _ => rfl

mutual

theorem blind_type (hs : ∀ i, Blind (synonym i)) (place : Place) :
    ∀ x, Blind (type synonym place x)
  | .scalar kind _ => by
    rw [type]
    exact blind_made _
  | .reference qualifier name span => by
    rw [type]
    exact blind_reference hs place qualifier name span
  | .pointer target _ => by
    rw [type]
    apply (blind_type hs place target).bind
    intro id?
    cases id? with
    | none => exact blind_pure none
    | some id => exact blind_made _
  | .sequence element _ => by
    rw [type]
    apply (blind_type hs place element).bind
    intro id?
    cases id? with
    | none => exact blind_pure none
    | some id => exact blind_made _
  | .map key value _ => by
    rw [type]
    apply (blind_type hs place key).bind
    intro key?
    apply (blind_type hs place value).bind
    intro value?
    match key?, value? with
    | some k, some v => exact blind_made _
    | none, _ => exact blind_pure none
    | some _, none => exact blind_pure none
  | .record definitions _ => by
    rw [type]
    apply (blind_members hs place [] definitions).bind
    intro members
    exact blind_made _
  | .hole _ => by
    rw [type]
    exact blind_pure none

theorem blind_members (hs : ∀ i, Blind (synonym i)) (place : Place) :
    ∀ seen definitions, Blind (members synonym place seen definitions)
  | seen, [] => by
    rw [members]
    exact blind_pure []
  | seen, ⟨name, expr, embedded, attributes, doc⟩ :: definitions => by
    rw [members]
    cases seen.lookup name.text with
    | some first =>
      exact (blind_reportRepeated _ _ _).bind fun _ => blind_members hs place seen definitions
    | none =>
      apply (blind_type hs place expr).bind
      intro ty?
      apply (blind_members hs place ((name.text, name.span) :: seen) definitions).bind
      intro rest
      cases ty? with
      | none => exact blind_pure rest
      | some ty => exact blind_pure _

end

end Expressions

section SecondPass

theorem blind_resolved (position : Nat) (ty? : Option TypeId) :
    Blind (do
      modify fun l => { l with resolved := (position, ty?) :: l.resolved }
      return ty? : Loader (Option TypeId)) :=
  .silent fun _ _ => rfl

theorem blind_synonym (depth : Nat) (path : List Nat) (position : Nat) :
    Blind (synonym depth path position) := by
  induction depth generalizing path position with
  | zero => exact blind_pure none
  | succ depth ih =>
    rw [synonym, follow]
    apply Blind.get
    · intro l
      cases l.resolved.lookup position with
      | some known => exact blind_pure known
      | none =>
        rcases l.entries[position]? with _ | ⟨package, source, item, type?⟩
        · exact blind_pure none
        · cases item with
          | struct d | enum d => exact blind_pure none
          | synonym d =>
            cases type? with
            | some id => exact blind_pure none
            | none =>
              simp only
              split
              · exact (blind_report _ _ _ _ (by decide)).bind fun _ => blind_pure none
              · exact (blind_type (ih (position :: path)) _ _).bind (blind_resolved position)
    · exact fun _ _ => rfl

theorem blind_topSynonym (position : Nat) : Blind (topSynonym position) :=
  .get (fun l => blind_synonym (l.entries.length + 1) [] position) fun _ _ => rfl

theorem blind_constants (source : SourceId) (id : TypeId) (kind : Scalar)
    (seen : List (String × Span)) (vs : List Variant) :
    Blind (constants source id kind seen vs) := by
  induction vs generalizing seen with
  | nil => exact blind_pure 0
  | cons v vs ih =>
    rw [constants]
    cases seen.lookup v.name.text with
    | some first => exact (blind_reportRepeated _ _ _).bind fun _ => ih seen
    | none =>
      simp only
      split
      · apply (blind_updateTypes _).bind
        intro _
        exact (ih _).bind fun n => blind_pure (n + 1)
      · exact (blind_report _ _ _ _ (by decide)).bind fun _ => ih _

theorem blind_documentType (id : TypeId) (doc : Option String) : Blind (documentType id doc) :=
  blind_updateTypes _

theorem blind_addRoot (ty : TypeId) (kind : RootKind) : Blind (addRoot ty kind) :=
  .silent fun _ _ => rfl

theorem blind_resolveStruct (place : Place) (id : TypeId) (d : StructDef) :
    Blind (resolveStruct place id d) := by
  unfold resolveStruct
  apply (blind_members blind_topSynonym place [] d.members).bind
  intro members
  apply (blind_updateTypes _).bind
  intro _
  apply (blind_documentType id d.doc).bind
  intro _
  exact Blind.bind (.silent fun _ _ => rfl) fun _ => blind_addRoot id .struct

theorem blind_resolveEnum (place : Place) (id : TypeId) (d : EnumDef) :
    Blind (resolveEnum place id d) := by
  unfold resolveEnum
  apply (blind_documentType id d.doc).bind
  intro _
  apply Blind.get
  · intro l
    simp only
    split
    · apply (blind_constants place.source id _ [] d.variants).bind
      intro count
      split
      · exact blind_report _ _ _ _ (by decide)
      · split
        · exact blind_addRoot id .enum
        · exact blind_pure ()
    · exact blind_pure ()
  · exact fun _ _ => rfl

theorem blind_resolveEntry (e : Entry) (position : Nat) : Blind (resolveEntry e position) := by
  obtain ⟨package, source, item, type?⟩ := e
  have htop : Blind (do let _ ← topSynonym position : Loader Unit) :=
    (blind_topSynonym position).bind fun _ => blind_pure ()
  cases type? with
  | none =>
    cases item with
    | struct d | enum d => exact blind_pure ()
    | synonym d => exact htop
  | some id =>
    cases item with
    | struct d => exact blind_resolveStruct ⟨package, source⟩ id d
    | enum d => exact blind_resolveEnum ⟨package, source⟩ id d
    | synonym d => exact blind_documentType id d.doc

theorem blind_forM {f : α → Loader Unit} (hf : ∀ a, Blind (f a)) (xs : List α) :
    Blind (xs.forM f) := by
  induction xs with
  | nil => exact blind_pure ()
  | cons x xs ih => exact (hf x).bind fun _ => ih

theorem blind_secondPass : Blind secondPass :=
  .get (fun l => blind_forM (fun e => blind_resolveEntry e.1 e.2) l.entries.zipIdx) fun _ _ => rfl

end SecondPass

section FirstPass

theorem blind_declaredType (file : File) (item : Item) : Blind (declaredType file item) := by
  cases item with
  | struct d => exact blind_made _
  | enum d =>
    have hbase : Blind (enumBase file.source d) := by
      unfold enumBase
      simp only
      split
      · exact (blind_report _ _ _ _ (by decide)).bind fun _ => blind_pure _
      · exact blind_pure _
    exact hbase.bind fun kind => blind_made _
  | synonym d =>
    obtain ⟨name, doc, target⟩ := d
    cases target with
    | scalar kind span => exact blind_made _
    | _ => exact blind_pure none

/-- A loading beside another one, which began with the same reports `ds`. They differ only in what
was reported since: in the second the `n` reports of names that are taken are missing. -/
def Beside (ds : List Diagnostic) (n : Nat) (l l' : Loading) : Prop :=
  ∃ news : List Diagnostic, l.diagnostics = ds ++ news ∧
    l' = { l with diagnostics := ds ++ news.filter (·.kind ≠ .duplicateDefinition) } ∧
    news.countP (·.kind = .duplicateDefinition) = n

variable {ds : List Diagnostic} {n : Nat} {taken : List (String × String)}

theorem Beside.refl (l : Loading) : Beside l.diagnostics 0 l l :=
  ⟨[], by simp, by simp, rfl⟩

/-- Work without a look at the reports goes the same way in both. -/
theorem Beside.after (h : Beside ds n l l') {m : Loader α} (hm : Blind m) :
    (m l').1 = (m l).1 ∧ Beside ds n (m l).2 (m l').2 := by
  obtain ⟨news, hl, rfl, hn⟩ := h
  obtain ⟨more, hmore, hrun⟩ := hm l
  have hself := congrArg (·.2.diagnostics) (hrun l.diagnostics)
  have hkept : more.filter (·.kind ≠ .duplicateDefinition) = more :=
    List.filter_eq_self.mpr (by simpa using hmore)
  have hnone : more.countP (·.kind = .duplicateDefinition) = 0 :=
    List.countP_eq_zero.mpr (by simpa using hmore)
  rw [hrun]
  refine ⟨rfl, news ++ more, ?_, ?_, ?_⟩
  · rw [← List.append_assoc, ← hl]
    exact hself
  · rw [List.filter_append, hkept, List.append_assoc]
  · rw [List.countP_append, hn, hnone, Nat.add_zero]

/-- An item whose name is taken adds a report to the one and nothing to the other. -/
theorem Beside.shadowed (h : Beside ds n l l') (file : File) {item : Item}
    (hk : (file.packagePath, item.name.text) ∈ l.entries.map (·.definition.key)) :
    Beside ds (n + 1) (declareItem file item l).2 l' := by
  obtain ⟨news, hl, rfl, hn⟩ := h
  rw [declareItem_eq]
  cases hf : l.entries.find? fun e => e.package = file.packagePath ∧ e.name = item.name.text with
  | none => exact absurd hk (find?_eq_none_iff.mp hf)
  | some first =>
    let d : Diagnostic := .make file.source .duplicateDefinition item.name.span
      (some item.name.text) [⟨first.source, first.item.name.span, "first defined here"⟩] []
    have hkept : (news ++ [d]).filter (·.kind ≠ .duplicateDefinition) =
        news.filter (·.kind ≠ .duplicateDefinition) := by
      simp [d, Diagnostic.make]
    refine ⟨news ++ [d], ?_, ?_, ?_⟩
    · rw [← List.append_assoc, ← hl]
      rfl
    · rw [hkept]
      rfl
    · simp [d, Diagnostic.make, hn]

/-- An item whose name is new gets the same place in both. -/
theorem Beside.placed (h : Beside ds n l l') (file : File) {item : Item}
    (hk : (file.packagePath, item.name.text) ∉ l.entries.map (·.definition.key)) :
    Beside ds n (declareItem file item l).2 (declareItem file item l').2 := by
  have hentries : l'.entries = l.entries := by
    obtain ⟨_, _, rfl, _⟩ := h
    rfl
  obtain ⟨htype, news, hl, hl', hn⟩ := h.after (blind_declaredType file item)
  have hf := find?_eq_none_iff.mpr hk
  rw [declareItem_eq, declareItem_eq, hentries, hf]
  refine ⟨news, hl, ?_, hn⟩
  simp only [htype, hl']

/-- The names that are taken, with their packages. -/
def Taken (taken : List (String × String)) (l : Loading) : Prop :=
  ∀ key, key ∈ l.entries.map (·.definition.key) ↔ key ∈ taken

theorem Taken.definitions_declareItem (h : Taken taken l) (file : File) (item : Item) :
    (declareItem file item l).2.entries.map (·.definition) = l.entries.map (·.definition) ++
      if taken.contains (file.packagePath, item.name.text) then [] else
        [⟨file.packagePath, item⟩] := by
  rw [declareItem_eq]
  cases hf : l.entries.find? fun e => e.package = file.packagePath ∧ e.name = item.name.text with
  | some first =>
    have htaken : (file.packagePath, item.name.text) ∈ taken := by
      by_contra hnew
      have hnone := find?_eq_none_iff.mpr (mt (h _).mp hnew)
      cases hnone.symm.trans hf
    rw [if_pos (List.contains_iff_mem.mpr htaken), List.append_nil]
    rfl
  | none =>
    obtain ⟨-, hentries, -⟩ := steady_declaredType file item l rfl
    have hnew := mt (h _).mpr (find?_eq_none_iff.mp hf)
    rw [if_neg (mt List.contains_iff_mem.mp hnew)]
    simp only [hentries, List.map_append]
    rfl

theorem Taken.declareItem (h : Taken taken l) (file : File) (item : Item) :
    Taken ((file.packagePath, item.name.text) :: taken) (declareItem file item l).2 := by
  have hkeys (es : List Entry) :
      es.map (·.definition.key) = (es.map (·.definition)).map (·.key) := by
    rw [List.map_map]
    rfl
  intro key
  rw [hkeys, h.definitions_declareItem, List.map_append, List.mem_append, ← hkeys, h key,
    List.mem_cons]
  by_cases hk : (file.packagePath, item.name.text) ∈ taken
  · rw [if_pos (List.contains_iff_mem.mpr hk), List.map_nil, or_iff_left List.not_mem_nil,
      or_iff_right_of_imp fun heq => heq ▸ hk]
  · rw [if_neg (mt List.contains_iff_mem.mp hk)]
    exact or_comm.trans (or_congr_left List.mem_singleton)

theorem Taken.items (h : Taken taken l) (file : File) (items : List Item) :
    Taken (items.map (file.packagePath, ·.name.text) ++ taken)
      (items.forM (Loader.declareItem file) l).2 := by
  induction items generalizing l taken with
  | nil => exact h
  | cons item items ih =>
    intro key
    refine (ih (h.declareItem file item) key).trans ?_
    simp only [List.map_cons, List.cons_append, List.mem_append, List.mem_cons]
    exact or_left_comm

/-- The first pass keeps the definitions whose names are new. -/
theorem Taken.definitions_items (h : Taken taken l) (file : File) (items : List Item) :
    (items.forM (Loader.declareItem file) l).2.entries.map (·.definition) =
      l.entries.map (·.definition) ++
        (freshItems file.packagePath taken items).map (⟨file.packagePath, ·⟩) := by
  induction items generalizing l taken with
  | nil => exact (List.append_nil _).symm
  | cons item items ih =>
    refine (ih (h.declareItem file item)).trans ?_
    rw [h.definitions_declareItem, freshItems]
    split
    · rw [List.append_nil]
    · rw [List.append_assoc]
      rfl

theorem Taken.definitions_firstPass (h : Taken taken l) (files : List File) :
    (firstPass files l).2.entries.map (·.definition) =
      l.entries.map (·.definition) ++ definitions (firstDefinitions taken files) := by
  induction files generalizing l taken with
  | nil => exact (List.append_nil _).symm
  | cons file files ih =>
    refine (ih (h.items file file.items)).trans ?_
    rw [h.definitions_items, List.append_assoc]
    rfl

theorem Beside.items (h : Beside ds n l l') (htaken : Taken taken l) (file : File)
    (items : List Item) : ∃ m, m + (freshItems file.packagePath taken items).length =
      n + items.length ∧ Beside ds m (items.forM (declareItem file) l).2
        ((freshItems file.packagePath taken items).forM (declareItem file) l').2 := by
  induction items generalizing n l l' taken with
  | nil => exact ⟨n, rfl, h⟩
  | cons item items ih =>
    have hrest := htaken.declareItem file item
    rw [freshItems]
    by_cases hk : (file.packagePath, item.name.text) ∈ taken
    · obtain ⟨m, hm, hb⟩ := ih (h.shadowed file ((htaken _).mpr hk)) hrest
      rw [if_pos (List.contains_iff_mem.mpr hk)]
      exact ⟨m, by rw [hm, List.length_cons]; omega, hb⟩
    · obtain ⟨m, hm, hb⟩ := ih (h.placed file (mt (htaken _).mp hk)) hrest
      rw [if_neg (mt List.contains_iff_mem.mp hk)]
      exact ⟨m, by rw [List.length_cons, List.length_cons, ← Nat.add_assoc, hm, Nat.add_assoc], hb⟩

theorem Beside.firstPass (h : Beside ds n l l') (htaken : Taken taken l) (files : List File) :
    ∃ m, m + (definitions (firstDefinitions taken files)).length =
      n + (definitions files).length ∧
        Beside ds m (firstPass files l).2 (firstPass (firstDefinitions taken files) l').2 := by
  induction files generalizing n l l' taken with
  | nil => exact ⟨n, rfl, h⟩
  | cons file files ih =>
    obtain ⟨m, hm, hb⟩ := h.items htaken file file.items
    obtain ⟨m', hm', hb'⟩ := ih hb (htaken.items file file.items)
    refine ⟨m', ?_, hb'⟩
    simp only [definitions, firstDefinitions, List.flatMap_cons, List.length_append,
      List.length_map] at hm' ⊢
    omega

/-- The second pass goes over just the first definitions: the others stand at the positions that the
first pass answers. -/
theorem definitions_not_shadowed (files : List File) (diagnostics : List Diagnostic) :
    ((occurrences files).filter fun o =>
      !(declare files { diagnostics }).1.contains o.position).map
        (fun o => (⟨o.file.packagePath, o.item⟩ : Definition)) =
      definitions (firstDefinitions [] files) := by
  have hstart : Taken [] { diagnostics } := fun key => by simp
  have hentries := (sifted_declare files diagnostics).entries
  have hdefinitions := hstart.definitions_firstPass files
  rw [declare_run] at hentries
  let definition : Place × Item → Definition := fun x => ⟨x.1.package, x.2⟩
  have hkept := congrArg (List.map definition) hentries
  rw [List.map_map, List.map_map] at hkept
  exact hkept.symm.trans hdefinitions

end FirstPass

end Loader

open Loader

/-- The first definition of a name wins completely. Files load like the same files without the items
whose names some item before them has in the same package: to the same types, roots and definitions,
and with the same reports, but for one more about each of those items. -/
theorem first_definition_wins (files : List File) (ds : List Diagnostic) :
    let kept := firstDefinitions [] files
    let l := load files ds
    ∃ news, l.diagnostics = ds ++ news ∧
      load kept ds = { l with
        diagnostics := ds ++ news.filter (·.kind ≠ .duplicateDefinition) } ∧
      news.countP (·.kind = .duplicateDefinition) + (definitions kept).length =
        (definitions files).length := by
  intro kept l
  have hstart : Taken [] { diagnostics := ds } := fun key => by simp
  have hbegun : Beside ds 0 { diagnostics := ds } { diagnostics := ds } := .refl _
  obtain ⟨n, hn, hfirst⟩ := hbegun.firstPass hstart files
  obtain ⟨-, hsecond⟩ := hfirst.after blind_secondPass
  rw [← load_eq, ← load_eq] at hsecond
  obtain ⟨news, hl, hkept, hcount⟩ := hsecond
  exact ⟨news, hl, hkept, by rw [hcount, hn, Nat.zero_add]⟩

/-- A struct, an enum and two synonyms of one name: the first is kept. -/
example :
    let struct : Item := .struct ⟨⟨"A", default⟩, none, []⟩
    let scalar : Item := .synonym ⟨⟨"A", default⟩, none, .scalar .int default⟩
    let synonym : Item := .synonym ⟨⟨"A", default⟩, none, .reference none "A" default⟩
    let enum : Item := .enum ⟨⟨"A", default⟩, none, ⟨"int", default⟩, []⟩
    let l := load [⟨0, none, [struct, scalar]⟩, ⟨1, none, [synonym, enum]⟩] []
    l.diagnostics.map (·.kind) = List.replicate 3 .duplicateDefinition ∧
      l.types = (load [⟨0, none, [struct]⟩, ⟨1, none, []⟩] []).types ∧
      l.roots = [⟨⟨7⟩, .struct⟩] := by
  decide +kernel

end TypeGraph.Schema
