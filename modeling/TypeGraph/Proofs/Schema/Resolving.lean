import TypeGraph.Proofs.Schema.Checking
import TypeGraph.Proofs.Schema.Seeding
import TypeGraph.Proofs.Schema.Sound
/-!
The second pass of the loader finds what is written: in a well-formed schema without holes every
expression is resolved to a type of the form that it denotes, and what is found stays. Types are
only added, and only such without names, so the order in which synonyms are followed does not
matter.
-/

namespace TypeGraph.Schema

open Relation

/-- The expression was resolved, to a type of the form that it denotes. -/
def Meant (files : List File) (package : String) (x : TypeExpr) (t : TypeSet)
    (id? : Option TypeId) : Prop :=
  ∃ id form, id? = some id ∧ Denotes (definitions files) package x form ∧ t.Unfolds id form

/-- The members were resolved, to types of the forms that their expressions denote. -/
def MeantMembers (files : List File) (package : String) (ds : List (MemberDef TypeExpr))
    (t : TypeSet) (ms : List Member) : Prop :=
  ms.map (·.shown) = ds.map (·.shown) ∧ ∃ forms : List Form, forms.length = ds.length ∧
    ∀ (i : Nat) m d form, ms[i]? = some m → ds[i]? = some d → forms[i]? = some form →
      Denotes (definitions files) package d.type form ∧ t.Unfolds m.ty form

/-- What holds all through the second pass. The synonyms resolved so far mean their targets. -/
structure Resolving (files : List File) (l : Loading) : Prop where
  definitions : l.entries.map (·.definition) = definitions files
  typed : ∀ e ∈ l.entries, ∀ id, e.type? = some id → l.types.key? id = some e.definition.key
  transparent : ∀ e ∈ l.entries, e.type? = none ↔ e.definition.Transparent
  resolved : ∀ i known, l.resolved.lookup i = some known → ∀ d s, (Schema.definitions files)[i]? =
    some d → d.item = .synonym s → Meant files d.package s.target l.types known

variable {files : List File} {package : String} {x : TypeExpr} {t t' : TypeSet} {l l' : Loading}

theorem Meant.retained {id? : Option TypeId} (h : Meant files package x t id?)
    (hr : t.Retains t') : Meant files package x t' id? := by
  obtain ⟨id, form, hid, hden, hun⟩ := h
  exact ⟨id, form, hid, hden, hun.retained hr⟩

theorem MeantMembers.retained {ds : List (MemberDef TypeExpr)} {ms : List Member}
    (h : MeantMembers files package ds t ms) (hr : t.Retains t') :
    MeantMembers files package ds t' ms := by
  obtain ⟨hshown, forms, hl, hforms⟩ := h
  refine ⟨hshown, forms, hl, ?_⟩
  intro i m d form hm hd hf
  obtain ⟨hden, hun⟩ := hforms i m d form hm hd hf
  exact ⟨hden, hun.retained hr⟩

/-- Types may be added and filled in while the pass goes on. -/
theorem Resolving.retained (h : Resolving files l) (he : l'.entries = l.entries)
    (hr : l.types.Retains l'.types) (hresolved : l'.resolved = l.resolved) :
    Resolving files l' := by
  refine ⟨he ▸ h.definitions, ?_, he ▸ h.transparent, ?_⟩
  · intro e hm id hid
    exact hr.key? (h.typed e (he ▸ hm) id hid)
  · intro i known hk d s hd hs
    exact (h.resolved i known (hresolved ▸ hk) d s hd hs).retained hr

namespace Loader

variable {α β : Type} {Q : TypeSet → α → Prop} {R : TypeSet → β → Prop}

/-- What resolving leaves behind: more types without names, and a result of which `Q` holds. -/
structure Resolves (files : List File) (l : Loading) (r : α × Loading) (Q : TypeSet → α → Prop) :
    Prop where
  result : Q r.2.types r.1
  adds : l.types.Adds r.2.types
  roots : r.2.roots = l.roots
  resolving : Resolving files r.2

/-- Work of the second pass that finds something of which `Q` holds. -/
def Finds (files : List File) (m : Loader α) (Q : TypeSet → α → Prop) : Prop :=
  ∀ l, Resolving files l → Resolves files l (m l) Q

theorem Resolves.mono {r : α × Loading} {Q' : TypeSet → α → Prop} (h : Resolves files l r Q)
    (hq : Q r.2.types r.1 → Q' r.2.types r.1) : Resolves files l r Q' :=
  ⟨hq h.result, h.adds, h.roots, h.resolving⟩

theorem Resolves.pure {a : α} (hl : Resolving files l) (h : Q l.types a) :
    Resolves files l ((Pure.pure a : Loader α) l) Q :=
  ⟨h, .refl _, rfl, hl⟩

theorem Resolves.bind {m : Loader α} {f : α → Loader β} (hm : Resolves files l (m l) Q)
    (hf : ∀ a l', l.types.Adds l'.types → Resolving files l' → Q l'.types a →
      Resolves files l' (f a l') R) : Resolves files l ((m >>= f) l) R := by
  obtain ⟨hresult, hadds, hroots, hresolving⟩ := hf _ _ hm.adds hm.resolving hm.result
  exact ⟨hresult, hm.adds.trans hadds, hroots.trans hm.roots, hresolving⟩

/-- The synonyms that an expression mentions are found in turn. -/
def Leads (files : List File) (package : String) (synonym : Nat → Loader (Option TypeId))
    (x : TypeExpr) : Prop :=
  ∀ i d s, Mentions (definitions files) package x i → (definitions files)[i]? = some d →
    d.Transparent → d.item = .synonym s →
      Finds files (synonym i) (Meant files d.package s.target)

variable {synonym : Nat → Loader (Option TypeId)} {place : Place} {y : TypeExpr}

theorem Leads.within (h : Leads files package synonym x)
    (hy : ∀ z, Within z y → Within z x) : Leads files package synonym y := by
  intro i d s hmention hd ht hs
  obtain ⟨q, n, span, hw, hc⟩ := hmention
  exact h i d s ⟨q, n, span, hy _ hw, hc⟩ hd ht hs

/-- Of several names the last one counts, and an attribute that is repeated counts once. -/
theorem attributesOf_eq (attributes : List Attribute) (doc : Option String) :
    attributesOf attributes doc =
      { rename := (attributes.filterMap (·.kind.rename?)).getLast?
        skip := attributes.any (·.kind = .skip)
        optional := attributes.any (·.kind = .optional)
        doc } := by
  induction attributes using List.reverseRecOn with
  | nil => rfl
  | append_singleton front one ih =>
    unfold attributesOf at ih ⊢
    rw [List.foldl_append, ih, List.foldl_cons, List.foldl_nil]
    cases hk : one.kind <;>
      simp only [hk, AttributeKind.rename?, List.filterMap_append, List.filterMap_cons,
        List.filterMap_nil, List.any_append, List.any_cons, List.any_nil] <;>
      simp

theorem finds_reference (hwf : WellFormed files) {qualifier : Option String} {name : String}
    {span : Span}
    (hfine : Fine (definitions files) place.package (.reference qualifier name span))
    (hleads : Leads files place.package synonym (.reference qualifier name span)) :
    Finds files (reference synonym place qualifier name span)
      (Meant files place.package (.reference qualifier name span)) := by
  intro l hl
  have hone := forall_within_reference.mp hfine
  obtain ⟨c, hc⟩ := (exists_candidates_singleton_iff hl.definitions hwf.distinct).mpr hone
  have hsingle {entry : Entry} {i : Nat}
      (hc : candidates l.entries place.package qualifier name = [(entry, i)]) :
      Candidate (definitions files) place.package qualifier name i ∧
        (definitions files)[i]? = some entry.definition ∧ entry ∈ l.entries := by
    obtain ⟨hi, hcand⟩ := (mem_candidates_iff hl.definitions hwf.distinct).mp
      (hc ▸ List.mem_singleton_self _)
    exact ⟨hcand, (getElem?_definitions hl.definitions).mpr ⟨entry, hi, rfl⟩,
      List.mem_of_getElem? hi⟩
  -- one candidate, so there is a type or a synonym to follow and nothing to report
  have href := referred_reference synonym place qualifier name span l
  generalize reference synonym place qualifier name span l = r at href
  cases href with
  | @typed entry i id hc ht =>
    obtain ⟨hcand, hdef, hmem⟩ := hsingle hc
    have hopaque : ¬entry.definition.Transparent := by
      rw [← hl.transparent entry hmem, ht]
      simp
    obtain ⟨d, hd, hk⟩ := Option.bind_eq_some_iff.mp (hl.typed entry hmem id ht)
    exact .pure hl ⟨id, _, rfl, .named span hcand hdef hopaque, .named hd hk⟩
  | @synonym entry i hc ht =>
    obtain ⟨hcand, hdef, hmem⟩ := hsingle hc
    have htr := (hl.transparent entry hmem).mp ht
    obtain ⟨s, hs, -⟩ := id htr
    have hfound := hleads i _ s ⟨_, _, _, .self _, hcand⟩ hdef htr hs l hl
    refine hfound.mono fun hmeant => ?_
    obtain ⟨id, form, hid, hden, hun⟩ := hmeant
    exact ⟨id, form, hid, .synonym span hcand hdef htr hs hden, hun⟩
  | reported hc' hno => exact absurd (hc'.symm.trans hc) (hno c)

/-- Interning a shape finds the type without a name of this shape. -/
theorem resolves_intern {shape : Shape} {Q : TypeSet → Option TypeId → Prop}
    (hl : Resolving files l)
    (hq : ∀ t id d, l.types.Adds t → t.get? id = some d → d.key? = none → d.shape = shape →
      Q t (some id)) :
    Resolves files l
      ((do return some (← withTypes (·.intern shape)) : Loader (Option TypeId)) l) Q := by
  have hadds := l.types.adds_intern shape
  obtain ⟨d, hd, hk, hs⟩ := l.types.get?_intern shape
  exact ⟨hq _ _ d hadds hd hk hs, hadds, rfl, hl.retained rfl hadds.retains rfl⟩

mutual

theorem finds_type (hwf : WellFormed files) (place : Place) : ∀ x,
    Fine (definitions files) place.package x → x.Whole → Leads files place.package synonym x →
      Finds files (type synonym place x) (Meant files place.package x)
  | .scalar kind span, _, _, _ => by
    rw [type]
    intro l hl
    refine resolves_intern hl fun t id d _ hd hk hs => ?_
    exact ⟨id, _, rfl, .scalar kind span, .scalar hd hk hs⟩
  | .reference qualifier name span, hfine, _, hleads => by
    rw [type]
    exact finds_reference hwf hfine hleads
  | .pointer target span, hfine, hwhole, hleads => by
    rw [type]
    intro l hl
    have htarget := finds_type hwf place target (forall_within_pointer.mp hfine).2
      (forall_within_pointer.mp hwhole).2 (hleads.within fun z hz => .pointer span hz) l hl
    refine htarget.bind fun id? l' _ hl' hmeant => ?_
    obtain ⟨target, form, rfl, hden, hun⟩ := hmeant
    refine resolves_intern hl' fun t id d hadds hd hk hs => ?_
    exact ⟨id, _, rfl, .pointer span hden, .pointer hd hk hs (hun.retained hadds.retains)⟩
  | .sequence element span, hfine, hwhole, hleads => by
    rw [type]
    intro l hl
    have helement := finds_type hwf place element (forall_within_sequence.mp hfine).2
      (forall_within_sequence.mp hwhole).2 (hleads.within fun z hz => .sequence span hz) l hl
    refine helement.bind fun id? l' _ hl' hmeant => ?_
    obtain ⟨element, form, rfl, hden, hun⟩ := hmeant
    refine resolves_intern hl' fun t id d hadds hd hk hs => ?_
    exact ⟨id, _, rfl, .sequence span hden, .sequence hd hk hs (hun.retained hadds.retains)⟩
  | .map key value span, hfine, hwhole, hleads => by
    rw [type]
    intro l hl
    obtain ⟨-, hfk, hfv⟩ := forall_within_map.mp hfine
    obtain ⟨-, hwk, hwv⟩ := forall_within_map.mp hwhole
    have hleadsKey := hleads.within fun z hz => .key value span hz
    have hleadsValue := hleads.within fun z hz => .value key span hz
    refine (finds_type hwf place key hfk hwk hleadsKey l hl).bind fun key? l₁ _ hl₁ hkey => ?_
    have hvalue := finds_type hwf place value hfv hwv hleadsValue l₁ hl₁
    refine hvalue.bind fun value? l₂ hadds₂ hl₂ hvalue => ?_
    obtain ⟨k, kform, rfl, hkden, hkun⟩ := hkey.retained hadds₂.retains
    obtain ⟨v, vform, rfl, hvden, hvun⟩ := hvalue
    refine resolves_intern hl₂ fun t id d hadds hd hk hs => ?_
    exact ⟨id, _, rfl, .map span hkden hvden,
      .map hd hk hs (hkun.retained hadds.retains) (hvun.retained hadds.retains)⟩
  | .record ds span, hfine, hwhole, hleads => by
    rw [type]
    intro l hl
    obtain ⟨hnames, hfines⟩ := forall_within_record.mp hfine
    have hmembers := finds_members hwf place [] ds (newNames_nil_seen.mpr hnames) hfines
      (forall_within_record.mp hwhole).2
      (fun m hm => hleads.within fun z hz => .member span hm hz) l hl
    refine hmembers.bind fun ms l' _ hl' hmeant => ?_
    obtain ⟨hshown, forms, hlen, hforms⟩ := hmeant
    have hlength : ms.length = ds.length := by
      simpa using congrArg List.length hshown
    refine resolves_intern hl' fun t id d hadds hd hk hs => ?_
    refine ⟨id, .record (ds.map (·.shown)) forms, rfl, .record span hlen ?_, ?_⟩
    · intro i m form hm hform
      have hi : i < ms.length := hlength ▸ (List.getElem?_eq_some_iff.mp hm).1
      exact (hforms i ms[i] m form (List.getElem?_eq_getElem hi) hm hform).1
    · rw [← hshown]
      refine .record hd hk hs (hlen.trans hlength.symm) ?_
      intro i m form hm hform
      have hi : i < ds.length := hlength ▸ (List.getElem?_eq_some_iff.mp hm).1
      exact (hforms i m ds[i] form hm (List.getElem?_eq_getElem hi) hform).2.retained
        hadds.retains
  | .hole span, _, hwhole, _ => absurd (forall_within_hole.mp hwhole) (by simp [TypeExpr.isHole])

theorem finds_members (hwf : WellFormed files) (place : Place) :
    ∀ seen (ds : List (MemberDef TypeExpr)), NewNames seen (ds.map (·.name.text)) →
      (∀ m ∈ ds, Fine (definitions files) place.package m.type) → (∀ m ∈ ds, m.type.Whole) →
        (∀ m ∈ ds, Leads files place.package synonym m.type) →
          Finds files (members synonym place seen ds) (MeantMembers files place.package ds)
  | seen, [], _, _, _, _ => by
    rw [members]
    exact fun l hl => .pure hl ⟨rfl, [], rfl, by simp⟩
  | seen, ⟨name, expr, embedded, attributes, doc⟩ :: ds, hnew, hfine, hwhole, hleads => by
    rw [members]
    rw [List.map_cons, newNames_cons name.span] at hnew
    obtain ⟨hfine₁, hfine⟩ := List.forall_mem_cons.mp hfine
    obtain ⟨hwhole₁, hwhole⟩ := List.forall_mem_cons.mp hwhole
    obtain ⟨hleads₁, hleads⟩ := List.forall_mem_cons.mp hleads
    simp only [hnew.1]
    intro l hl
    refine (finds_type hwf place expr hfine₁ hwhole₁ hleads₁ l hl).bind fun ty? l₁ _ hl₁ hty => ?_
    refine (finds_members hwf place _ ds hnew.2 hfine hwhole hleads l₁ hl₁).bind
      fun rest l₂ hadds hl₂ hrest => ?_
    obtain ⟨ty, form, rfl, hden, hun⟩ := hty.retained hadds.retains
    obtain ⟨hshown, forms, hlen, hforms⟩ := hrest
    refine .pure hl₂ ⟨?_, form :: forms, by simp [hlen], ?_⟩
    · rw [List.map_cons, List.map_cons, hshown, attributesOf_eq]
      rfl
    · intro i m d f hm hd hf
      cases i with
      | zero =>
        simp only [List.getElem?_cons_zero, Option.some.injEq] at hm hd hf
        subst hm hd hf
        exact ⟨hden, hun⟩
      | succ i => exact hforms i m d f hm hd hf

end

/-- A synonym is resolved to what its target denotes. The path leads to it, and there are no cycles,
so it is not on the path; and the path is too short to use up the depth. -/
theorem finds_synonym (hwf : WellFormed files) (hwhole : ∀ d ∈ definitions files, d.item.Whole)
    (depth : Nat) (path : List Nat) {i : Nat} {d : Definition} {s : SynonymDef}
    (hi : (definitions files)[i]? = some d) (ht : d.Transparent) (hs : d.item = .synonym s)
    (hpath : ∀ p ∈ path, TransGen (SynonymEdge (definitions files)) p i)
    (hnodup : path.Nodup) (hbound : ∀ p ∈ path, p < (definitions files).length)
    (hdepth : (definitions files).length < depth + path.length) :
    Finds files (Loader.synonym depth path i) (Meant files d.package s.target) := by
  induction depth generalizing path i d s with
  | zero =>
    have hlen := length_path_le hnodup hbound
    omega
  | succ depth ih =>
    intro l hl
    have hx : d.item.expression? = some s.target := by simp [hs, Item.expression?]
    have hmem := List.mem_of_getElem? hi
    have hfollowed := followed_synonym depth path i l
    generalize Loader.synonym (depth + 1) path i l = r at hfollowed
    cases hfollowed with
    | @known known hr => exact .pure hl (hl.resolved i known hr d s hi hs)
    | cycle _ hin => exact absurd (hpath i hin) (hwf.acyclic i)
    | @target package source s' r hi' hout hr =>
      obtain rfl : d = ⟨package, .synonym s'⟩ :=
        Option.some.inj (hi.symm.trans ((getElem?_definitions hl.definitions).mpr ⟨_, hi', rfl⟩))
      obtain rfl : s' = s := by simpa using hs
      have hleads : Leads files package (Loader.synonym depth (i :: path)) s'.target := by
        intro j e s hj hdj htj hsj
        have hedge : SynonymEdge (definitions files) i j :=
          ⟨_, _, e, hi, ht, hx, hj, hdj, htj⟩
        have hlt : i < (definitions files).length := (List.getElem?_eq_some_iff.mp hi).1
        apply ih (i :: path) hdj htj hsj
        · exact List.forall_mem_cons.mpr ⟨.single hedge, fun p hp => (hpath p hp).tail hedge⟩
        · exact List.nodup_cons.mpr ⟨hout, hnodup⟩
        · exact List.forall_mem_cons.mpr ⟨hlt, hbound⟩
        · rw [List.length_cons]
          omega
      have hfound := finds_type hwf ⟨package, source⟩ s'.target (hwf.expressions _ hmem _ hx)
        (hwhole _ hmem _ hx) hleads l hl
      rw [hr] at hfound
      obtain ⟨hmeant, hadds, hroots, hresolving⟩ := hfound
      refine ⟨hmeant, hadds, hroots, hresolving.definitions, hresolving.typed,
        hresolving.transparent, ?_⟩
      intro j known hj e s'' he hs''
      rw [List.lookup_cons] at hj
      split at hj
      · next heq =>
        obtain rfl : j = i := by simpa using heq
        obtain rfl := Option.some.inj (hi.symm.trans he)
        obtain rfl : s' = s'' := by simpa using hs''
        obtain rfl := Option.some.inj hj
        exact hmeant
      · exact hresolving.resolved j known hj e s'' he hs''
    | other hno =>
      obtain ⟨e, hie, rfl⟩ := (getElem?_definitions hl.definitions).mp hi
      obtain ⟨package, source, item, type?⟩ := e
      have hnone : type? = none := (hl.transparent _ (List.mem_of_getElem? hie)).mpr ht
      obtain rfl : item = .synonym s := hs
      exact absurd (hnone ▸ hie) (hno package source s)

theorem finds_topSynonym (hwf : WellFormed files) (hwhole : ∀ d ∈ definitions files, d.item.Whole)
    {i : Nat} {d : Definition} {s : SynonymDef} (hi : (definitions files)[i]? = some d)
    (ht : d.Transparent) (hs : d.item = .synonym s) :
    Finds files (topSynonym i) (Meant files d.package s.target) := by
  intro l hl
  have hlen : l.entries.length = (definitions files).length := by
    rw [← hl.definitions, List.length_map]
  have htop := finds_synonym hwf hwhole (l.entries.length + 1) [] hi ht hs (by simp)
    List.nodup_nil (by simp) (by simp [hlen])
  exact htop l hl

end Loader

end TypeGraph.Schema
