import TypeGraph.Proofs.Schema.Passes
import TypeGraph.Proofs.Schema.WellFormed
/-!
The names in a type set. Whatever is loaded, and whatever is reported of it, types and members have
names that stand in the trees, packages are those of the files, and no struct has two members of one
name.
-/

namespace TypeGraph

/-- A description with names from `W` and a package from `Q`, all of whose members have different
names. -/
structure Description.WellNamed (W Q : String → Prop) (d : Description) : Prop where
  name : ∀ name ∈ d.name, W name
  package : Q d.package
  members : ∀ m ∈ d.members, W m.name
  distinct : (d.members.map (·.name)).Nodup

def TypeSet.WellNamed (W Q : String → Prop) (t : TypeSet) : Prop :=
  ∀ d ∈ t.descriptions, d.WellNamed W Q

variable {W Q : String → Prop}

namespace Description.WellNamed

variable {d d' : Description}

theorem of_members_eq_nil (hname : ∀ name ∈ d.name, W name) (hpackage : Q d.package)
    (hmembers : d.members = []) : d.WellNamed W Q :=
  ⟨hname, hpackage, by simp [hmembers], by simp [hmembers]⟩

theorem matured (h : d.WellNamed W Q) (hm : d.Matures d') (hshape : d'.shape = d.shape) :
    d'.WellNamed W Q := by
  have hmembers : d'.members = d.members := by
    rw [Description.members, Description.members, hshape]
  exact ⟨hm.name ▸ h.name, hm.package ▸ h.package, hmembers ▸ h.members, hmembers ▸ h.distinct⟩

theorem withMembers (h : d.WellNamed W Q) {ms : List Member} (hms : ∀ m ∈ ms, W m.name)
    (hdistinct : (ms.map (·.name)).Nodup) : (d.withMembers ms).WellNamed W Q := by
  unfold Description.withMembers
  split
  · exact ⟨h.name, h.package, hms, hdistinct⟩
  · exact h

end Description.WellNamed

namespace TypeSet.WellNamed

variable {t : TypeSet}

theorem initial (hpackage : Q "") : TypeSet.initial.WellNamed W Q := by
  intro d hd
  obtain ⟨kind, -, rfl⟩ := List.mem_map.mp hd
  exact .of_members_eq_nil (by simp) hpackage rfl

theorem push (h : t.WellNamed W Q) {d : Description} (hd : d.WellNamed W Q) :
    (t.push d).2.WellNamed W Q :=
  List.forall_mem_append.mpr ⟨h, List.forall_mem_singleton.mpr hd⟩

theorem intern (h : t.WellNamed W Q) {shape : Shape}
    (hshape : Description.WellNamed W Q { shape }) : (t.intern shape).2.WellNamed W Q := by
  rcases t.intern_cases shape with ⟨i, d, -, -, hi⟩ | hi <;> rw [hi]
  · exact h
  · exact h.push hshape

theorem declareNamed (h : t.WellNamed W Q) {package name : String} {shape : Shape}
    (hshape : Description.WellNamed W Q { name := some name, package, shape }) :
    (t.declareNamed package name shape).2.WellNamed W Q := by
  rcases t.declareNamed_cases package name shape with ⟨i, d, -, -, -, hi⟩ | ⟨-, hi⟩ <;> rw [hi]
  · exact h
  · exact h.push hshape

theorem modify (h : t.WellNamed W Q) (id : TypeId) {f : Description → Description}
    (hf : ∀ d : Description, d.WellNamed W Q → (f d).WellNamed W Q) :
    (t.modify id f).WellNamed W Q := by
  intro d hd
  obtain ⟨i, hi⟩ := List.mem_iff_getElem?.mp hd
  rw [TypeSet.modify, List.getElem?_modify] at hi
  obtain ⟨e, he, rfl⟩ := Option.map_eq_some_iff.mp hi
  have hold := h e (List.mem_of_getElem? he)
  split
  · exact hf e hold
  · exact hold

end TypeSet.WellNamed

namespace Schema

/-- The names in an expression: those of the members of a record, and that of a type referred to. -/
def TypeExpr.NamedAt (W : String → Prop) : TypeExpr → Prop
  | .record ms _ => ∀ m ∈ ms, W m.name.text
  | .reference _ name _ => W name
  | _ => True

/-- An expression in which all names are from `W`. -/
def TypeExpr.NamedIn (W : String → Prop) (x : TypeExpr) : Prop :=
  ∀ y, Within y x → y.NamedAt W

def Item.NamedIn (W : String → Prop) (item : Item) : Prop :=
  W item.name.text ∧ ∀ x, item.expression? = some x → x.NamedIn W

/-- A file with names from `W` and a package from `Q`. -/
structure File.NamedIn (W Q : String → Prop) (file : File) : Prop where
  package : Q file.packagePath
  items : ∀ item ∈ file.items, item.NamedIn W

/-- What holds all through loading. -/
structure Loading.WellNamed (W Q : String → Prop) (l : Loading) : Prop where
  types : l.types.WellNamed W Q
  entries : ∀ e ∈ l.entries, e.item.NamedIn W

namespace Loader

variable {α β : Type} {P : α → Prop} {R : β → Prop}

/-- Work that keeps names in order and has a result of which `P` holds. -/
def Keeps (W Q : String → Prop) (m : Loader α) (P : α → Prop) : Prop :=
  ∀ l : Loading, l.WellNamed W Q → (m l).2.WellNamed W Q ∧ P (m l).1

/-- Work that keeps names in order. -/
abbrev KeepsAny (W Q : String → Prop) (m : Loader α) : Prop :=
  Keeps W Q m fun _ => True

namespace Keeps

theorem pure {a : α} (h : P a) : Keeps W Q (Pure.pure a) P :=
  fun _ hl => ⟨hl, h⟩

theorem bind {m : Loader α} {f : α → Loader β} (hm : Keeps W Q m P)
    (hf : ∀ a, P a → Keeps W Q (f a) R) : Keeps W Q (m >>= f) R :=
  fun l hl => hf _ (hm l hl).2 _ (hm l hl).1

theorem withTypes {f : TypeSet → TypeId × TypeSet}
    (hf : ∀ t, t.WellNamed W Q → (f t).2.WellNamed W Q) : KeepsAny W Q (Loader.withTypes f) :=
  fun l hl => ⟨⟨hf l.types hl.types, hl.entries⟩, trivial⟩

theorem updateTypes {f : TypeSet → TypeSet} (hf : ∀ t, t.WellNamed W Q → (f t).WellNamed W Q) :
    KeepsAny W Q (Loader.updateTypes f) :=
  fun l hl => ⟨⟨hf l.types hl.types, hl.entries⟩, trivial⟩

theorem report (source : SourceId) (kind : Diagnostic.Kind) (span : Span)
    (detail? : Option String) (related : List Diagnostic.Related) :
    KeepsAny W Q (Loader.report source kind span detail? related) :=
  fun _ hl => ⟨⟨hl.types, hl.entries⟩, trivial⟩

theorem intern {shape : Shape} (hshape : Description.WellNamed W Q { shape }) :
    KeepsAny W Q (do return some (← Loader.withTypes (·.intern shape)) : Loader (Option TypeId)) :=
  (withTypes fun _ ht => ht.intern hshape).bind fun _ _ => pure trivial

theorem declareNamed {package name : String} {shape : Shape}
    (hshape : Description.WellNamed W Q { name := some name, package, shape }) :
    KeepsAny W Q (do
      return some (← Loader.withTypes (·.declareNamed package name shape)) :
        Loader (Option TypeId)) :=
  (withTypes fun _ ht => ht.declareNamed hshape).bind fun _ _ => pure trivial

theorem forM {xs : List α} {f : α → Loader Unit} (hf : ∀ x ∈ xs, KeepsAny W Q (f x)) :
    KeepsAny W Q (xs.forM f) := by
  induction xs with
  | nil => exact pure trivial
  | cons x xs ih =>
    obtain ⟨hx, hxs⟩ := List.forall_mem_cons.mp hf
    exact hx.bind fun _ _ => ih hxs

end Keeps

section Expressions

variable {synonym : Nat → Loader (Option TypeId)} {place : Place}

theorem keeps_reference (hs : ∀ i, KeepsAny W Q (synonym i)) (qualifier : Option String)
    (name : String) (span : Span) :
    KeepsAny W Q (reference synonym place qualifier name span) := by
  intro l hl
  have href := referred_reference synonym place qualifier name span l
  generalize reference synonym place qualifier name span l = r at href
  cases href with
  | typed => exact ⟨hl, trivial⟩
  | synonym => exact hs _ l hl
  | @reported found =>
    cases found <;> exact Keeps.report _ _ _ _ _ l hl

/-- Members that have names from `W`, different from one another and from those seen before. -/
structure Fresh (W : String → Prop) (seen : List (String × Span)) (ms : List Member) : Prop where
  names : ∀ m ∈ ms, W m.name
  distinct : (ms.map (·.name)).Nodup
  unseen : ∀ m ∈ ms, seen.lookup m.name = none

variable {seen : List (String × Span)} {ms : List Member} {name : Name}

theorem lookup_cons_eq_none {word other : String} {span : Span} :
    List.lookup other ((word, span) :: seen) = none ↔ other ≠ word ∧ seen.lookup other = none := by
  rw [List.lookup_cons]
  by_cases h : other = word
  · simp [h]
  · rw [beq_false_of_ne h]
    exact (and_iff_right h).symm

/-- Without the name that was seen last. -/
theorem Fresh.tail (h : Fresh W ((name.text, name.span) :: seen) ms) : Fresh W seen ms :=
  ⟨h.names, h.distinct, fun m hm => (lookup_cons_eq_none.mp (h.unseen m hm)).2⟩

theorem Fresh.cons (h : Fresh W ((name.text, name.span) :: seen) ms) {m : Member}
    (hname : m.name = name.text) (hnamed : W name.text) (hfirst : seen.lookup name.text = none) :
    Fresh W seen (m :: ms) := by
  have hnew : m.name ∉ ms.map (·.name) := by
    intro hmem
    obtain ⟨m', hm', heq⟩ := List.mem_map.mp hmem
    exact (lookup_cons_eq_none.mp (h.unseen m' hm')).1 (heq.trans hname)
  exact ⟨List.forall_mem_cons.mpr ⟨hname ▸ hnamed, h.names⟩,
    List.nodup_cons.mpr ⟨hnew, h.distinct⟩,
    List.forall_mem_cons.mpr ⟨hname ▸ hfirst, h.tail.unseen⟩⟩

mutual

theorem keeps_type (hpackage : Q "") (hs : ∀ i, KeepsAny W Q (synonym i)) (place : Place) :
    ∀ x : TypeExpr, x.NamedIn W → KeepsAny W Q (type synonym place x)
  | .scalar kind _, _ => by
    rw [type]
    exact .intern (.of_members_eq_nil (by simp) hpackage rfl)
  | .reference qualifier name span, _ => by
    rw [type]
    exact keeps_reference hs qualifier name span
  | .pointer target _, hx => by
    rw [type]
    apply (keeps_type hpackage hs place target (forall_within_pointer.mp hx).2).bind
    intro id? _
    cases id? with
    | none => exact .pure trivial
    | some id => exact .intern (.of_members_eq_nil (by simp) hpackage rfl)
  | .sequence element _, hx => by
    rw [type]
    apply (keeps_type hpackage hs place element (forall_within_sequence.mp hx).2).bind
    intro id? _
    cases id? with
    | none => exact .pure trivial
    | some id => exact .intern (.of_members_eq_nil (by simp) hpackage rfl)
  | .map key value _, hx => by
    rw [type]
    obtain ⟨-, hkey, hvalue⟩ := forall_within_map.mp hx
    apply (keeps_type hpackage hs place key hkey).bind
    intro key? _
    apply (keeps_type hpackage hs place value hvalue).bind
    intro value? _
    cases key? with
    | none => exact .pure trivial
    | some k =>
      cases value? with
      | none => exact .pure trivial
      | some v => exact .intern (.of_members_eq_nil (by simp) hpackage rfl)
  | .record definitions _, hx => by
    rw [type]
    obtain ⟨hself, hparts⟩ := forall_within_record.mp hx
    apply (keeps_members hpackage hs place [] definitions fun m hm =>
      ⟨hself m hm, hparts m hm⟩).bind
    intro ms hms
    exact .intern ⟨by simp, hpackage, hms.names, hms.distinct⟩
  | .hole _, _ => by
    rw [type]
    exact .pure trivial

theorem keeps_members (hpackage : Q "") (hs : ∀ i, KeepsAny W Q (synonym i)) (place : Place) :
    ∀ seen definitions, (∀ m ∈ definitions, W m.name.text ∧ m.type.NamedIn W) →
      Keeps W Q (members synonym place seen definitions) (Fresh W seen)
  | seen, [], _ => by
    rw [members]
    exact .pure ⟨by simp, by simp, by simp⟩
  | seen, ⟨name, expr, embedded, attributes, doc⟩ :: definitions, hall => by
    rw [members]
    obtain ⟨⟨hname, hexpr⟩, hrest⟩ := List.forall_mem_cons.mp hall
    cases hfirst : seen.lookup name.text with
    | some first =>
      apply (Keeps.report _ _ _ _ _).bind
      exact fun _ _ => keeps_members hpackage hs place seen definitions hrest
    | none =>
      apply (keeps_type hpackage hs place expr hexpr).bind
      intro ty? _
      apply (keeps_members hpackage hs place _ definitions hrest).bind
      intro ms hms
      cases ty? with
      | none => exact .pure hms.tail
      | some ty => exact .pure (hms.cons rfl hname hfirst)

end

theorem keeps_synonym (hpackage : Q "") (depth : Nat) (path : List Nat) (position : Nat) :
    KeepsAny W Q (Loader.synonym depth path position) := by
  induction depth generalizing path position with
  | zero => exact .pure trivial
  | succ depth ih =>
    intro l hl
    have hfollowed := followed_synonym depth path position l
    generalize Loader.synonym (depth + 1) path position l = r at hfollowed
    cases hfollowed with
    | known => exact ⟨hl, trivial⟩
    | cycle => exact ⟨(Keeps.report _ _ _ _ _ l hl).1, trivial⟩
    | @target package source d r he hp ht =>
      obtain ⟨-, hitem⟩ := hl.entries _ (List.mem_of_getElem? he)
      obtain ⟨htarget, -⟩ := keeps_type hpackage (ih (position :: path)) ⟨package, source⟩ d.target
        (hitem d.target rfl) l hl
      rw [ht] at htarget
      exact ⟨⟨htarget.types, htarget.entries⟩, trivial⟩
    | other => exact ⟨hl, trivial⟩

theorem keeps_topSynonym (hpackage : Q "") (position : Nat) :
    KeepsAny W Q (topSynonym position) :=
  fun l hl => keeps_synonym hpackage (l.entries.length + 1) [] position l hl

end Expressions

section Definitions

variable {place : Place} {file : File} {item : Item}

theorem keeps_constants (source : SourceId) (id : TypeId) (kind : Scalar)
    (seen : List (String × Span)) (vs : List Variant) :
    KeepsAny W Q (constants source id kind seen vs) := by
  induction vs generalizing seen with
  | nil => exact .pure trivial
  | cons v vs ih =>
    rw [constants]
    cases seen.lookup v.name.text with
    | some first => exact (Keeps.report _ _ _ _ _).bind fun _ _ => ih seen
    | none =>
      simp only
      split
      · have hconstant : KeepsAny W Q
            (updateTypes (·.addConstant id ⟨v.name.text, v.value, v.doc⟩)) :=
          .updateTypes fun t ht => ht.modify id fun d hd =>
            hd.matured (.withConstant d _) (TypeSet.shape_withConstant d _)
        exact hconstant.bind fun _ _ => (ih _).bind fun _ _ => .pure trivial
      · exact (Keeps.report _ _ _ _ _).bind fun _ _ => ih _

theorem keeps_documentType (id : TypeId) (doc : Option String) :
    KeepsAny W Q (documentType id doc) := by
  apply Keeps.updateTypes
  intro t ht
  cases doc with
  | none => exact ht
  | some doc =>
    exact ht.modify id fun d hd => hd.matured (.withDoc d doc) (TypeSet.shape_withDoc d doc)

theorem keeps_addRoot (ty : TypeId) (kind : RootKind) : KeepsAny W Q (addRoot ty kind) :=
  fun _ hl => ⟨⟨hl.types, hl.entries⟩, trivial⟩

theorem keeps_resolveStruct (hpackage : Q "") (id : TypeId) {d : StructDef}
    (hd : (Item.struct d).NamedIn W) : KeepsAny W Q (resolveStruct place id d) := by
  obtain ⟨hself, hparts⟩ := forall_within_record.mp (hd.2 _ rfl)
  apply (keeps_members hpackage (keeps_topSynonym hpackage) place [] d.members fun m hm =>
    ⟨hself m hm, hparts m hm⟩).bind
  intro ms hms
  have hset : KeepsAny W Q (updateTypes (·.setMembers id ms)) :=
    .updateTypes fun t ht => ht.modify id fun d hd => hd.withMembers hms.names hms.distinct
  apply hset.bind
  intro _ _
  apply (keeps_documentType id d.doc).bind
  intro _ _ l hl
  exact keeps_addRoot id .struct _ ⟨hl.types, hl.entries⟩

theorem keeps_resolveEnum (id : TypeId) (d : EnumDef) : KeepsAny W Q (resolveEnum place id d) := by
  have hfill (kind : Scalar) : KeepsAny W Q (fillEnum place id kind d) := by
    apply (keeps_constants place.source id kind [] d.variants).bind
    intro count _
    split
    · exact .report _ _ _ _ _
    · split
      · exact keeps_addRoot id .enum
      · exact .pure trivial
  have hdocument : KeepsAny W Q (documentType id d.doc) := keeps_documentType id d.doc
  intro l hl
  obtain ⟨hdoc, -⟩ := hdocument l hl
  rw [resolveEnum_eq]
  simp only
  split
  · exact hfill _ _ hdoc
  · exact ⟨hdoc, trivial⟩

theorem keeps_resolveEntry (hpackage : Q "") {e : Entry} (position : Nat)
    (he : e.item.NamedIn W) : KeepsAny W Q (resolveEntry e position) := by
  obtain ⟨package, source, item, type?⟩ := e
  have htop : KeepsAny W Q (do let _ ← topSynonym position : Loader Unit) :=
    (keeps_topSynonym hpackage position).bind fun _ _ => .pure trivial
  cases type? with
  | none =>
    cases item with
    | struct d | enum d => exact .pure trivial
    | synonym d => exact htop
  | some id =>
    cases item with
    | struct d => exact keeps_resolveStruct hpackage id he
    | enum d => exact keeps_resolveEnum id d
    | synonym d => exact keeps_documentType id d.doc

theorem keeps_declaredType (hfile : Q file.packagePath) (hitem : W item.name.text) :
    KeepsAny W Q (declaredType file item) := by
  have hname (name : String) (h : name = item.name.text) : ∀ n ∈ some name, W n := by
    rintro n hn
    obtain rfl := Option.some.inj hn
    exact h ▸ hitem
  cases item with
  | struct d => exact .declareNamed (.of_members_eq_nil (hname _ rfl) hfile rfl)
  | enum d =>
    have hbase : KeepsAny W Q (enumBase file.source d) := by
      unfold enumBase
      simp only
      split
      · exact (Keeps.report _ _ _ _ _).bind fun _ _ => .pure trivial
      · exact .pure trivial
    exact hbase.bind fun kind _ => .declareNamed (.of_members_eq_nil (hname _ rfl) hfile rfl)
  | synonym d =>
    obtain ⟨name, doc, target⟩ := d
    cases target with
    | scalar kind span => exact .declareNamed (.of_members_eq_nil (hname _ rfl) hfile rfl)
    | _ => exact .pure trivial

theorem keeps_declareItem (hfile : Q file.packagePath) (hitem : item.NamedIn W) :
    KeepsAny W Q (declareItem file item) := by
  intro l hl
  rw [declareItem_eq]
  split
  · exact Keeps.report _ _ _ _ _ l hl
  · obtain ⟨htype, -⟩ := keeps_declaredType hfile hitem.1 l hl
    refine ⟨⟨htype.types, ?_⟩, trivial⟩
    exact List.forall_mem_append.mpr ⟨htype.entries, List.forall_mem_singleton.mpr hitem⟩

theorem keeps_firstPass {fs : List File} (hfs : ∀ file ∈ fs, file.NamedIn W Q) :
    KeepsAny W Q (firstPass fs) := by
  apply Keeps.forM
  intro file hfile
  exact .forM fun item hitem =>
    keeps_declareItem (hfs file hfile).package ((hfs file hfile).items item hitem)

theorem keeps_secondPass (hpackage : Q "") : KeepsAny W Q secondPass := by
  intro l hl
  refine Keeps.forM ?_ l hl
  intro e he
  exact keeps_resolveEntry hpackage e.2 (hl.entries e.1 (List.fst_mem_of_mem_zipIdx he))

end Definitions

end Loader

/-- The names in what was loaded are from the trees and from the files. -/
theorem wellNamed_load (hpackage : Q "") {files : List File}
    (hfiles : ∀ file ∈ files, file.NamedIn W Q) (diagnostics : List Diagnostic) :
    (load files diagnostics).types.WellNamed W Q := by
  obtain ⟨hfirst, -⟩ := Loader.keeps_firstPass hfiles { diagnostics }
    ⟨.initial hpackage, by simp⟩
  rw [load_eq]
  exact (Loader.keeps_secondPass hpackage _ hfirst).1.types

/-- The members of a struct have different names, whatever is loaded. -/
theorem nodup_members_load (files : List File) (diagnostics : List Diagnostic) :
    ∀ d ∈ (load files diagnostics).types.descriptions, (d.members.map (·.name)).Nodup := by
  have hany : ∀ file ∈ files, file.NamedIn (fun _ => True) (fun _ => True) := by
    intro file hfile
    refine ⟨trivial, fun item hitem => ⟨trivial, fun x hx y hy => ?_⟩⟩
    cases y <;> simp [TypeExpr.NamedAt]
  intro d hd
  exact (wellNamed_load trivial hany diagnostics d hd).distinct

end Schema

end TypeGraph
