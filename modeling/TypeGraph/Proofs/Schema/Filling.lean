import TypeGraph.Proofs.Schema.Resolving
/-!
The second pass definition by definition. Each one fills in its own type and no other, so in the end
every type is what its definition says, and the roots stand in the order of the definitions.
-/

namespace TypeGraph.Schema

/-- What the type of a definition is in the end. -/
inductive Portrays (files : List File) (t : TypeSet) (d : Definition) (desc : Description) : Prop
  | struct {s : StructDef} {ms : List Member} (hi : d.item = .struct s)
      (hs : desc.shape = .aggregate ms) (hdoc : desc.doc = s.doc)
      (hms : MeantMembers files d.package s.members t ms) : Portrays files t d desc
  | enum {e : EnumDef} {kind : Scalar} (hi : d.item = .enum e)
      (hk : Scalar.ofKeyword? e.base.text = some kind) (hs : desc.shape = .scalar kind)
      (hdoc : desc.doc = e.doc) (hc : desc.constants = e.variants.map (·.constant)) :
      Portrays files t d desc
  | synonym {s : SynonymDef} (hi : d.item = .synonym s) (hs : d.shape? = some desc.shape)
      (hdoc : desc.doc = s.doc) : Portrays files t d desc

/-- The root that a definition with a type is, if it is one. -/
def Entry.root? (e : Entry) : Option Root :=
  e.type?.bind fun id => e.definition.rootKind?.map (⟨id, ·⟩)

/-- What filling in the types of some definitions leaves behind. -/
structure Fills (files : List File) (l : Loading) (es : List Entry) (l' : Loading) : Prop where
  others : ∀ id d, id ∉ es.filterMap (·.type?) → l.types.get? id = some d →
    l'.types.get? id = some d
  retains : l.types.Retains l'.types
  keys : l'.types.keys = l.types.keys
  filled : ∀ e ∈ es, ∀ id, e.type? = some id →
    ∃ desc, l'.types.get? id = some desc ∧ Portrays files l'.types e.definition desc
  roots : l'.roots = l.roots ++ es.filterMap (·.root?)
  resolving : Resolving files l'

variable {files : List File} {t t' : TypeSet} {l l' l'' : Loading} {e : Entry} {es : List Entry}
variable {id : TypeId} {desc : Description} {d : Definition}

theorem Portrays.retained (h : Portrays files t d desc) (hr : t.Retains t') :
    Portrays files t' d desc := by
  cases h with
  | struct hi hs hdoc hms => exact .struct hi hs hdoc (hms.retained hr)
  | enum hi hk hs hdoc hc => exact .enum hi hk hs hdoc hc
  | synonym hi hs hdoc => exact .synonym hi hs hdoc

namespace Fills

theorem nil (hl : Resolving files l) : Fills files l [] l :=
  ⟨fun _ _ _ hd => hd, .refl _, rfl, by simp, by simp, hl⟩

/-- What was filled in first stays, as the rest are other types. -/
theorem cons (h : Fills files l [e] l') (k : Fills files l' es l'')
    (hid : ∀ id, e.type? = some id → id ∉ es.filterMap (·.type?)) :
    Fills files l (e :: es) l'' := by
  refine ⟨?_, h.retains.trans k.retains, k.keys.trans h.keys, ?_, ?_, k.resolving⟩
  · intro id d hno hd
    cases ht : e.type? with
    | none =>
      simp only [List.filterMap_cons, ht] at hno
      exact k.others id d hno (h.others id d (by simp [ht]) hd)
    | some x =>
      simp only [List.filterMap_cons, ht, List.mem_cons, not_or] at hno
      obtain ⟨hne, hno⟩ := hno
      exact k.others id d hno (h.others id d (by simpa [ht] using hne) hd)
  · intro e' he' id ht
    rcases List.mem_cons.mp he' with rfl | he'
    · obtain ⟨desc, hd, hp⟩ := h.filled e' (by simp) id ht
      exact ⟨desc, k.others id desc (hid id ht) hd, hp.retained k.retains⟩
    · exact k.filled e' he' id ht
  · rw [k.roots, h.roots, List.append_assoc]
    cases hr : e.root? <;> simp [hr]

/-- One type becomes what its definition says, after others without names were added. -/
theorem one {l₁ : Loading} (hadds : l.types.Adds l₁.types) (hl₁ : Resolving files l₁)
    (hb : l₁.types.Becomes id desc l'.types) (ht : e.type? = some id)
    (hp : Portrays files l'.types e.definition desc) (hentries : l'.entries = l₁.entries)
    (hresolved : l'.resolved = l₁.resolved) (hroots : l'.roots = l.roots ++ e.root?.toList) :
    Fills files l [e] l' := by
  refine ⟨?_, hadds.retains.trans hb.retains, hb.keys.trans hadds.keys, ?_, ?_,
    hl₁.retained hentries hb.retains hresolved⟩
  · intro x d hno hd
    rw [hb.others x (by simpa [ht] using hno)]
    exact hadds.get? hd
  · intro e' he' x hx
    obtain rfl := List.mem_singleton.mp he'
    obtain rfl := Option.some.inj (ht.symm.trans hx)
    exact ⟨desc, hb.self, hp⟩
  · rw [hroots]
    cases hr : e.root? <;> simp [hr]

end Fills

namespace Loader

theorem becomes_document (doc : Option String) (hd : t.get? id = some desc)
    (hn : desc.name.isSome) (hnone : desc.doc = none) :
    t.Becomes id { desc with doc } (doc.elim t (t.setDoc id)) := by
  cases doc with
  | none =>
    have hsame : { desc with doc := none } = desc := by rw [← hnone]
    rw [hsame]
    exact .refl hd
  | some text =>
    have hf : desc.withDoc text = { desc with doc := some text } := by
      rw [Description.withDoc, if_pos hn]
    rw [← hf]
    refine .modify hd ?_ fun d => .withDoc d text
    simpa [Description.key?, Option.isSome_iff_ne_none] using hn

theorem becomes_addConstants (vs : List Variant) {kind : Scalar} (hd : t.get? id = some desc)
    (hn : desc.name.isSome) (hs : desc.shape = .scalar kind) :
    t.Becomes id { desc with constants := desc.constants ++ vs.map (·.constant) }
      (vs.foldl (fun t v => t.addConstant id v.constant) t) := by
  induction vs generalizing t desc with
  | nil => simpa using .refl hd
  | cons v vs ih =>
    have hf : desc.withConstant v.constant =
        { desc with constants := desc.constants ++ [v.constant] } := by
      simp [Description.withConstant, hn, Description.scalar?, hs]
    have hone : t.Becomes id (desc.withConstant v.constant) (t.addConstant id v.constant) := by
      refine .modify hd ?_ fun d => .withConstant d _
      simpa [Description.key?, Option.isSome_iff_ne_none] using hn
    rw [hf] at hone
    have hrest := ih hone.self hn hs
    rw [List.append_assoc] at hrest
    exact hone.trans hrest

/-- Variants that are new and fit are all added. -/
theorem constants_eq (source : SourceId) (id : TypeId) (kind : Scalar)
    (seen : List (String × Span)) (vs : List Variant) (hnew : NewNames seen (vs.map (·.name.text)))
    (hfits : ∀ v ∈ vs, v.value.fits kind) (l : Loading) :
    constants source id kind seen vs l = (vs.length,
      { l with types := vs.foldl (fun t v => t.addConstant id v.constant) l.types }) := by
  induction vs generalizing seen l with
  | nil => rfl
  | cons v vs ih =>
    rw [List.map_cons, newNames_cons v.name.span] at hnew
    obtain ⟨hfirst, hrest⟩ := List.forall_mem_cons.mp hfits
    rw [constants]
    simp only [hnew.1, hfirst, if_true]
    rw [run_bind, run_bind, ih _ hnew.2 hrest]
    rfl

theorem fillEnum_eq (place : Place) (id : TypeId) {kind : Scalar} {d : EnumDef}
    (hnames : (d.variants.map (·.name.text)).Nodup) (hfits : ∀ v ∈ d.variants, v.value.fits kind)
    (l : Loading) :
    fillEnum place id kind d l =
      let l' := { l with
        types := d.variants.foldl (fun t v => t.addConstant id v.constant) l.types }
      if d.variants = [] then report place.source .emptyEnum d.name.span none [] l'
      else addRoot id .enum l' := by
  rw [fillEnum, run_bind,
    constants_eq place.source id kind [] d.variants (newNames_nil_seen.mpr hnames) hfits]
  simp only
  split
  · rfl
  · next hne =>
    rw [if_pos (List.length_pos_iff.mpr hne)]

theorem exists_base {d : EnumDef} (h : d.base.text ∈ ["int", "uint", "float", "string"]) :
    ∃ kind, Scalar.ofKeyword? d.base.text = some kind ∧ kind.enumerable := by
  have hbase := mem_base_iff.mp h
  cases hk : Scalar.ofKeyword? d.base.text with
  | none => simp [hk] at hbase
  | some kind => exact ⟨kind, rfl, by simpa [hk] using hbase⟩

theorem fills_resolveStruct (hwf : WellFormed files)
    (hwhole : ∀ d ∈ definitions files, d.item.Whole) (hl : Resolving files l) {package : String}
    {source : SourceId} {s : StructDef}
    (hmem : (Definition.mk package (.struct s)) ∈ definitions files)
    (hseed : l.types.get? id = (Definition.mk package (.struct s)).seed?) :
    Fills files l [⟨package, source, .struct s, some id⟩]
      (resolveStruct ⟨package, source⟩ id s l).2 := by
  have hx : (Definition.mk package (.struct s)).item.expression? =
    some (.record s.members s.name.span) := rfl
  obtain ⟨hnames, hfine⟩ := forall_within_record.mp (hwf.expressions _ hmem _ hx)
  have hleads (m : MemberDef TypeExpr) : Leads files package topSynonym m.type :=
    fun i d s _ hi ht hs => finds_topSynonym hwf hwhole hi ht hs
  have hmembers := finds_members hwf ⟨package, source⟩ [] s.members (newNames_nil_seen.mpr hnames)
    hfine (forall_within_record.mp (hwhole _ hmem _ hx)).2 (fun m _ => hleads m) l hl
  have hrun : (resolveStruct ⟨package, source⟩ id s l).2 =
      let r := members topSynonym ⟨package, source⟩ [] s.members l
      let types := r.2.types.setMembers id r.1
      { r.2 with
        types := s.doc.elim types (types.setDoc id)
        journal := r.2.journal ++ [.structResolved s.name.text]
        roots := r.2.roots ++ [⟨id, .struct⟩] } := rfl
  rw [hrun]
  generalize members topSynonym ⟨package, source⟩ [] s.members l = r at hmembers
  obtain ⟨hmeant, hadds, hroots, hl₁⟩ := hmembers
  have hget := hadds.get? hseed
  have hset : r.2.types.Becomes id _ (r.2.types.setMembers id r.1) :=
    .modify hget (by simp [Description.key?]) fun d => .withMembers d _
  have hdoc := hset.trans (becomes_document s.doc hset.self rfl rfl)
  exact .one hadds hl₁ hdoc rfl (.struct rfl rfl rfl (hmeant.retained hdoc.retains)) rfl rfl
    (by simp [hroots, Entry.root?, Entry.definition, Definition.rootKind?])

theorem fills_resolveEnum (hwf : WellFormed files) (hl : Resolving files l) {package : String}
    {source : SourceId} {d : EnumDef}
    (hmem : (Definition.mk package (.enum d)) ∈ definitions files)
    (hseed : l.types.get? id = (Definition.mk package (.enum d)).seed?) :
    Fills files l [⟨package, source, .enum d, some id⟩]
      (resolveEnum ⟨package, source⟩ id d l).2 := by
  obtain ⟨hbase, hvariants, hliterals⟩ := hwf.enums _ hmem d rfl
  obtain ⟨kind, hk, henumerable⟩ := exists_base hbase
  have hget : l.types.get? id =
      some { name := some d.name.text, package, shape := .scalar kind } := by
    simp only [hseed, Definition.seed?, Definition.shape?, hk]
    rfl
  have hdoc := becomes_document d.doc hget rfl rfl
  have hall := hdoc.trans (becomes_addConstants d.variants hdoc.self rfl rfl)
  have hfill := fillEnum_eq ⟨package, source⟩ id hvariants (hliterals kind hk)
    (documentType id d.doc l).2
  have hkind : (((documentType id d.doc l).2.types.get? id).bind (·.scalar?)).getD .any = kind := by
    have hself : (documentType id d.doc l).2.types.get? id = _ := hdoc.self
    rw [hself]
    rfl
  rw [resolveEnum_eq]
  simp only [hkind, henumerable, if_true, hfill]
  split
  · next hnone =>
    have hroot : Entry.root? ⟨package, source, .enum d, some id⟩ = none := by
      simp [Entry.root?, Entry.definition, Definition.rootKind?, hnone]
    exact .one (.refl _) hl hall rfl (.enum rfl hk rfl rfl rfl) rfl rfl
      (by rw [hroot]; exact (List.append_nil _).symm)
  · next hne =>
    have hroot : Entry.root? ⟨package, source, .enum d, some id⟩ = some ⟨id, .enum⟩ := by
      simp [Entry.root?, Entry.definition, Definition.rootKind?, hne]
    exact .one (.refl _) hl hall rfl (.enum rfl hk rfl rfl rfl) rfl rfl (by rw [hroot]; rfl)

theorem fills_resolveEntry (hwf : WellFormed files)
    (hwhole : ∀ d ∈ definitions files, d.item.Whole) (hl : Resolving files l) {i : Nat}
    (hi : (definitions files)[i]? = some e.definition)
    (ht : e.type? = none ↔ e.definition.Transparent)
    (hseed : ∀ id, e.type? = some id → l.types.get? id = e.definition.seed?) :
    Fills files l [e] (resolveEntry e i l).2 := by
  have hmem := List.mem_of_getElem? hi
  obtain ⟨package, source, item, type?⟩ := e
  cases type? with
  | none =>
    have htr := ht.mp rfl
    obtain ⟨s, hs, hscalar⟩ := id htr
    obtain rfl : item = .synonym s := hs
    obtain ⟨-, hadds, hroots, hl'⟩ := finds_topSynonym hwf hwhole hi htr rfl l hl
    have hrun : (resolveEntry ⟨package, source, .synonym s, none⟩ i l).2 = (topSynonym i l).2 := rfl
    rw [hrun]
    exact ⟨fun _ _ _ hd => hadds.get? hd, hadds.retains, hadds.keys, by simp,
      by simpa [Entry.root?] using hroots, hl'⟩
  | some id =>
    cases item with
    | struct s => exact fills_resolveStruct hwf hwhole hl hmem (hseed id rfl)
    | enum d => exact fills_resolveEnum hwf hl hmem (hseed id rfl)
    | synonym s =>
      have hseed : l.types.get? id = (Definition.mk package (.synonym s)).seed? := hseed id rfl
      have hopaque : ¬(Definition.mk package (.synonym s)).Transparent :=
        fun htr => by simpa using ht.mpr htr
      obtain ⟨shape, hshape, hsome⟩ := Definition.exists_seed? hopaque
      have hdoc := becomes_document s.doc (hseed.trans hsome) rfl rfl
      exact .one (.refl _) hl hdoc rfl (.synonym rfl hshape rfl) rfl rfl
        (by simp [Entry.root?, Entry.definition, Definition.rootKind?]; rfl)

theorem fills_forM (hwf : WellFormed files) (hwhole : ∀ d ∈ definitions files, d.item.Whole)
    (hl : Resolving files l) {xs : List (Entry × Nat)}
    (hi : ∀ x ∈ xs, (definitions files)[x.2]? = some x.1.definition)
    (ht : ∀ x ∈ xs, x.1.type? = none ↔ x.1.definition.Transparent)
    (hseed : ∀ x ∈ xs, ∀ id, x.1.type? = some id → l.types.get? id = x.1.definition.seed?)
    (hids : ((xs.map (·.1)).filterMap (·.type?)).Nodup) :
    Fills files l (xs.map (·.1)) ((xs.forM fun x => resolveEntry x.1 x.2 : Loader Unit) l).2 := by
  induction xs generalizing l with
  | nil => exact .nil hl
  | cons x xs ih =>
    obtain ⟨hi₁, hi⟩ := List.forall_mem_cons.mp hi
    obtain ⟨ht₁, ht⟩ := List.forall_mem_cons.mp ht
    obtain ⟨hseed₁, hseed⟩ := List.forall_mem_cons.mp hseed
    have hfirst := fills_resolveEntry hwf hwhole hl hi₁ ht₁ hseed₁
    have hnew (id : TypeId) (hid : x.1.type? = some id) :
        id ∉ (xs.map (·.1)).filterMap (·.type?) := by
      simp only [List.map_cons, List.filterMap_cons, hid, List.nodup_cons] at hids
      exact hids.1
    have hrest : ((xs.map (·.1)).filterMap (·.type?)).Nodup := by
      rw [List.map_cons, List.filterMap_cons] at hids
      cases hid : x.1.type? with
      | none => simpa [hid] using hids
      | some id => exact (List.nodup_cons.mp (by simpa [hid] using hids)).2
    -- no two definitions share a type, so those still to come are as the first pass left them
    have hpending : ∀ y ∈ xs, ∀ id, y.1.type? = some id →
        (resolveEntry x.1 x.2 l).2.types.get? id = y.1.definition.seed? := by
      intro y hy id hid
      have hmem : id ∈ (xs.map (·.1)).filterMap (·.type?) :=
        List.mem_filterMap.mpr ⟨y.1, List.mem_map_of_mem hy, hid⟩
      have hopaque : ¬y.1.definition.Transparent := fun htr => by
        simp [(ht y hy).mpr htr] at hid
      obtain ⟨shape, -, hsome⟩ := Definition.exists_seed? hopaque
      have hget := (hseed y hy id hid).trans hsome
      rw [hsome]
      refine hfirst.others id _ ?_ hget
      intro hx
      exact hnew id (by simpa using hx) hmem
    exact hfirst.cons (ih hfirst.resolving hi ht hpending hrest) hnew

end Loader

end TypeGraph.Schema
