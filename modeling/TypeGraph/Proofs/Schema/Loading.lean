import TypeGraph.Proofs.TypeSet.Growth
import TypeGraph.Schema.Loader
/-!
What loading makes, whatever it reports: a type set in order, definitions with types of their own
names, and roots that can be declared.
-/

namespace TypeGraph.Schema

/-- A type, if there is one, has a name and stands in a package. -/
def Declared (package name : String) (t : TypeSet) (type? : Option TypeId) : Prop :=
  ∀ id, type? = some id → ∃ d, t.get? id = some d ∧ d.name = some name ∧ d.package = package

/-- The type of a definition has its name and package. -/
def Entry.Typed (t : TypeSet) (e : Entry) : Prop :=
  Declared e.package e.name t e.type?

/-- A root is named, and a scalar if it is an enum. -/
def Root.Typed (t : TypeSet) (root : Root) : Prop :=
  ∃ d, t.get? root.ty = some d ∧ d.name.isSome ∧
    (root.kind = .enum → ∃ kind, d.shape = .scalar kind)

/-- What holds all through loading. -/
structure Loading.Sound (l : Loading) : Prop where
  types : l.types.Proper
  entries : ∀ e ∈ l.entries, e.Typed l.types
  resolved : ∀ position id, (position, some id) ∈ l.resolved → l.types.contains id
  roots : ∀ root ∈ l.roots, root.Typed l.types

variable {l : Loading} {t t' : TypeSet}

theorem Entry.Typed.evolves {e : Entry} (h : e.Typed t) (he : t.Evolves t') : e.Typed t' := by
  intro id hid
  obtain ⟨d, hd, hn, hp⟩ := h id hid
  obtain ⟨d', hd', hm⟩ := he id d hd
  exact ⟨d', hd', hm.name.trans hn, hm.package.trans hp⟩

theorem Root.Typed.evolves {root : Root} (h : root.Typed t) (he : t.Evolves t') :
    root.Typed t' := by
  obtain ⟨d, hd, hn, hk⟩ := h
  obtain ⟨d', hd', hm⟩ := he _ d hd
  refine ⟨d', hd', hm.name ▸ hn, ?_⟩
  intro henum
  obtain ⟨kind, hs⟩ := hk henum
  exact ⟨kind, (hm.shape_eq (by simp [Description.isAggregate, hs])).trans hs⟩

namespace Loading.Sound

theorem evolved (h : l.Sound) (ht : t.Proper) (he : l.types.Evolves t) :
    Sound { l with types := t } :=
  ⟨ht, fun e hm => (h.entries e hm).evolves he,
    fun position id hm => he.contains (h.resolved position id hm),
    fun root hm => (h.roots root hm).evolves he⟩

theorem rooted (h : l.Sound) {root : Root} (hr : root.Typed l.types) :
    Sound { l with roots := l.roots ++ [root] } := by
  refine ⟨h.types, h.entries, h.resolved, ?_⟩
  intro r hm
  rcases List.mem_append.mp hm with hm | hm
  · exact h.roots r hm
  · exact List.mem_singleton.mp hm ▸ hr

theorem entered (h : l.Sound) {e : Entry} (he : e.Typed l.types) :
    Sound { l with entries := l.entries ++ [e] } := by
  refine ⟨h.types, ?_, h.resolved, h.roots⟩
  intro e' hm
  rcases List.mem_append.mp hm with hm | hm
  · exact h.entries e' hm
  · exact List.mem_singleton.mp hm ▸ he

end Loading.Sound

namespace Loader

variable {α β : Type} {Q : TypeSet → α → Prop} {R : TypeSet → β → Prop}

/-- What work of the loader leaves behind: types that grew, and a result of which `Q` holds. -/
structure Outcome (l : Loading) (r : α × Loading) (Q : TypeSet → α → Prop) : Prop where
  sound : r.2.Sound
  evolves : l.types.Evolves r.2.types
  result : Q r.2.types r.1

/-- Work that keeps the loading sound. -/
def Yields (m : Loader α) (Q : TypeSet → α → Prop) : Prop :=
  ∀ l, l.Sound → Outcome l (m l) Q

/-- Work without a result that keeps the loading sound. -/
abbrev Safe (m : Loader Unit) : Prop :=
  Yields m fun _ _ => True

theorem run_get (l : Loading) : (get : Loader Loading) l = (l, l) :=
  rfl

theorem run_bind (m : Loader α) (f : α → Loader β) (l : Loading) :
    (m >>= f) l = f (m l).1 (m l).2 :=
  rfl

theorem Outcome.pure {a : α} (hl : l.Sound) (h : Q l.types a) :
    Outcome l ((Pure.pure a : Loader α) l) Q :=
  ⟨hl, .refl _, h⟩

theorem Outcome.bind {m : Loader α} {f : α → Loader β} (hm : Outcome l (m l) Q)
    (hf : ∀ a l, l.Sound → Q l.types a → Outcome l (f a l) R) : Outcome l ((m >>= f) l) R := by
  obtain ⟨hs', he', hr⟩ := hf _ _ hm.sound hm.result
  exact ⟨hs', hm.evolves.trans he', hr⟩

theorem Yields.bind {m : Loader α} {f : α → Loader β} (hm : Yields m Q)
    (hf : ∀ a l, l.Sound → Q l.types a → Outcome l (f a l) R) : Yields (m >>= f) R :=
  fun l hl => (hm l hl).bind hf

theorem Yields.andThen {m : Loader α} {f : α → Loader β} (hm : Yields m Q)
    (hf : ∀ a, Yields (f a) R) : Yields (m >>= f) R :=
  hm.bind fun a l hl _ => hf a l hl

theorem outcome_withTypes {f : TypeSet → TypeId × TypeSet} {Q : TypeSet → TypeId → Prop}
    (hl : l.Sound) (ht : (f l.types).2.Proper) (he : l.types.Evolves (f l.types).2)
    (hq : Q (f l.types).2 (f l.types).1) : Outcome l (withTypes f l) Q :=
  ⟨hl.evolved ht he, he, hq⟩

theorem outcome_updateTypes {f : TypeSet → TypeSet} (hl : l.Sound) (ht : (f l.types).Proper)
    (he : l.types.Evolves (f l.types)) : Outcome l (updateTypes f l) fun _ _ => True :=
  ⟨hl.evolved ht he, he, trivial⟩

theorem safe_report (source : SourceId) (kind : Diagnostic.Kind) (span : Span)
    (detail? : Option String) (related : List Diagnostic.Related) :
    Safe (report source kind span detail? related) :=
  fun _ hl => ⟨⟨hl.types, hl.entries, hl.resolved, hl.roots⟩, .refl _, trivial⟩

theorem safe_forM {xs : List α} {f : α → Loader Unit} {P : TypeSet → α → Prop}
    (hP : ∀ t t' a, t.Evolves t' → P t a → P t' a)
    (hf : ∀ a l, l.Sound → P l.types a → Outcome l (f a l) fun _ _ => True)
    (hl : l.Sound) (hx : ∀ a ∈ xs, P l.types a) : Outcome l (xs.forM f l) fun _ _ => True := by
  induction xs generalizing l with
  | nil => exact .pure hl trivial
  | cons x xs ih =>
    obtain ⟨hs, he, -⟩ := hf x l hl (hx x (by simp))
    obtain ⟨hs', he', -⟩ := ih hs fun a ha => hP _ _ a he (hx a (List.mem_cons_of_mem _ ha))
    exact ⟨hs', he.trans he', trivial⟩

/-- An id, if there is one, of the set. -/
def Known (t : TypeSet) (id? : Option TypeId) : Prop :=
  ∀ id, id? = some id → t.contains id

theorem known_none : Known t none := by simp [Known]

theorem known_some {id : TypeId} (h : t.contains id) : Known t (some id) :=
  fun _ he => Option.some.inj he ▸ h

theorem mem_candidates {entries : List Entry} {package name : String} {qualifier : Option String}
    {c : Entry × Nat} (h : c ∈ candidates entries package qualifier name) : c.1 ∈ entries := by
  have hcalled {p : Entry × Nat → Bool} {e : Entry × Nat} (he : e ∈ entries.zipIdx.filter p) :
      e.1 ∈ entries := List.fst_mem_of_mem_zipIdx (List.mem_filter.mp he).1
  unfold candidates at h
  cases qualifier with
  | some q => exact hcalled (List.mem_filter.mp h).1
  | none =>
    simp only at h
    split at h
    · next own ho =>
      obtain rfl := List.mem_singleton.mp h
      exact hcalled (List.mem_of_find?_eq_some ho)
    · exact hcalled h

variable {synonym : Nat → Loader (Option TypeId)} {place : Place}

/-- The report of a reference with no candidate or with several. -/
def reportReference (place : Place) (qualifier : Option String) (name : String) (span : Span)
    (found : List (Entry × Nat)) : Loader Unit :=
  let written := qualifier.elim name (· ++ "." ++ name)
  match found with
  | [] => report place.source .undefinedReference span (some written) []
  | several => report place.source .ambiguousReference span (some written)
      (several.map fun (e, _) => ⟨e.source, e.item.name.span, "candidate defined here"⟩)

/-- What comes of a reference: the type of its only candidate, for a synonym what it resolves to, or
else a report. -/
inductive Referred (synonym : Nat → Loader (Option TypeId)) (place : Place)
    (qualifier : Option String) (name : String) (span : Span) (l : Loading) :
    Option TypeId × Loading → Prop
  | typed {entry : Entry} {i : Nat} {id : TypeId}
      (hc : candidates l.entries place.package qualifier name = [(entry, i)])
      (ht : entry.type? = some id) : Referred synonym place qualifier name span l (some id, l)
  | synonym {entry : Entry} {i : Nat}
      (hc : candidates l.entries place.package qualifier name = [(entry, i)])
      (ht : entry.type? = none) : Referred synonym place qualifier name span l (synonym i l)
  | reported {found : List (Entry × Nat)}
      (hc : candidates l.entries place.package qualifier name = found) (hno : ∀ c, found ≠ [c]) :
      Referred synonym place qualifier name span l
        (none, (reportReference place qualifier name span found l).2)

theorem referred_reference (synonym : Nat → Loader (Option TypeId)) (place : Place)
    (qualifier : Option String) (name : String) (span : Span) (l : Loading) :
    Referred synonym place qualifier name span l
      (reference synonym place qualifier name span l) := by
  simp only [reference, run_bind, run_get]
  rcases hc : candidates l.entries place.package qualifier name with
    _ | ⟨⟨entry, i⟩, _ | ⟨c, cs⟩⟩
  · exact .reported hc (by simp)
  · cases ht : entry.type? with
    | some id =>
      simp only [ht]
      exact .typed hc ht
    | none =>
      simp only [ht]
      exact .synonym hc ht
  · exact .reported hc (by simp)

theorem safe_reportReference (qualifier : Option String) (name : String) (span : Span)
    (found : List (Entry × Nat)) : Safe (reportReference place qualifier name span found) := by
  cases found <;> exact safe_report _ _ _ _ _

theorem yields_reference (hs : ∀ position, Yields (synonym position) Known)
    (qualifier : Option String) (name : String) (span : Span) :
    Yields (reference synonym place qualifier name span) Known := by
  intro l hl
  have href := referred_reference synonym place qualifier name span l
  generalize reference synonym place qualifier name span l = r at href
  cases href with
  | @typed entry i id hc ht =>
    have hmem := mem_candidates (hc ▸ List.mem_singleton_self (entry, i))
    obtain ⟨d, hd, -⟩ := hl.entries entry hmem id ht
    exact ⟨hl, .refl _, known_some (TypeSet.contains_of_get? hd)⟩
  | synonym => exact hs _ l hl
  | reported =>
    obtain ⟨hs, he, -⟩ := safe_reportReference qualifier name span _ l hl
    exact ⟨hs, he, known_none⟩

/-- Interning a shape of known ids gives a known id. -/
theorem outcome_intern {shape : Shape} (hl : l.Sound) (hs : ∀ x ∈ shape.ids, l.types.contains x) :
    Outcome l ((do return some (← withTypes (·.intern shape)) : Loader (Option TypeId)) l) Known :=
  (outcome_withTypes (Q := fun t id => t.contains id) hl (hl.types.intern hs) (.intern _ _)
    (l.types.contains_intern shape)).bind fun _ _ hl hc => .pure hl (known_some hc)

/-- Members whose types are known. -/
def KnownMembers (t : TypeSet) (ms : List Member) : Prop :=
  ∀ m ∈ ms, t.contains m.ty

mutual

theorem yields_type (hs : ∀ position, Yields (synonym position) Known) (place : Place) :
    ∀ expr, Yields (type synonym place expr) Known
  | .scalar kind _ => by
    rw [type]
    exact fun l hl => outcome_intern hl (by simp [Shape.ids, Shape.held])
  | .reference qualifier name span => by
    rw [type]
    exact yields_reference hs qualifier name span
  | .pointer target _ => by
    rw [type]
    refine (yields_type hs place target).bind fun id? l hl hc => ?_
    cases id? with
    | none => exact .pure hl known_none
    | some id => exact outcome_intern hl (by simpa [Shape.ids, Shape.held] using hc id rfl)
  | .sequence element _ => by
    rw [type]
    refine (yields_type hs place element).bind fun id? l hl hc => ?_
    cases id? with
    | none => exact .pure hl known_none
    | some id => exact outcome_intern hl (by simpa [Shape.ids, Shape.held] using hc id rfl)
  | .map key value _ => by
    rw [type]
    refine (yields_type hs place key).bind fun key? l hl hk => ?_
    obtain ⟨hl', he, hv⟩ := yields_type hs place value l hl
    refine Outcome.bind (Q := fun t value? => Known t key? ∧ Known t value?)
      ⟨hl', he, fun id hid => he.contains (hk id hid), hv⟩ fun value? l hl hc => ?_
    match key?, value?, hc with
    | some k, some v, hc =>
      exact outcome_intern hl (by simp [Shape.ids, Shape.held, hc.1 k rfl, hc.2 v rfl])
    | none, _, _ => exact .pure hl known_none
    | some _, none, _ => exact .pure hl known_none
  | .record definitions _ => by
    rw [type]
    refine (yields_members hs place [] definitions).bind fun ms l hl hc => ?_
    exact outcome_intern hl (by simpa [Shape.ids, KnownMembers] using hc)
  | .hole _ => by
    rw [type]
    exact fun l hl => .pure hl known_none

theorem yields_members (hs : ∀ position, Yields (synonym position) Known) (place : Place) :
    ∀ seen definitions, Yields (members synonym place seen definitions) KnownMembers
  | seen, [] => by
    rw [members]
    exact fun l hl => .pure hl (by simp [KnownMembers])
  | seen, ⟨name, expr, embedded, attributes, doc⟩ :: definitions => by
    rw [members]
    cases seen.lookup name.text with
    | some first =>
      exact (safe_report _ _ _ _ _).andThen fun _ => yields_members hs place seen definitions
    | none =>
      refine (yields_type hs place expr).bind fun ty? l hl ht => ?_
      obtain ⟨hl', he, hm⟩ := yields_members hs place ((name.text, name.span) :: seen) definitions
        l hl
      refine Outcome.bind (Q := fun t ms => Known t ty? ∧ KnownMembers t ms)
        ⟨hl', he, fun id hid => he.contains (ht id hid), hm⟩ fun ms l hl hc => ?_
      cases ty? with
      | none => exact .pure hl hc.2
      | some ty => exact .pure hl (List.forall_mem_cons.mpr ⟨hc.1 ty rfl, hc.2⟩)

end

/-- What comes of a synonym: it is resolved already, or it is being resolved, or its target is
resolved now, or nothing comes of it as the position is not that of a transparent synonym. -/
inductive Followed (depth : Nat) (path : List Nat) (position : Nat) (l : Loading) :
    Option TypeId × Loading → Prop
  | known {known : Option TypeId} (hr : l.resolved.lookup position = some known) :
      Followed depth path position l (known, l)
  | cycle {package : String} {source : SourceId} {d : SynonymDef}
      (he : l.entries[position]? = some ⟨package, source, .synonym d, none⟩)
      (hp : position ∈ path) : Followed depth path position l
        (none, (report source .aliasCycle d.name.span (some d.name.text) [] l).2)
  | target {package : String} {source : SourceId} {d : SynonymDef} {r : Option TypeId × Loading}
      (he : l.entries[position]? = some ⟨package, source, .synonym d, none⟩)
      (hp : position ∉ path)
      (ht : type (Loader.synonym depth (position :: path)) ⟨package, source⟩ d.target l = r) :
      Followed depth path position l (r.1, { r.2 with resolved := (position, r.1) :: r.2.resolved })
  | other (hno : ∀ package source d,
        l.entries[position]? ≠ some ⟨package, source, .synonym d, none⟩) :
      Followed depth path position l (none, l)

theorem followed_synonym (depth : Nat) (path : List Nat) (position : Nat) (l : Loading) :
    Followed depth path position l (Loader.synonym (depth + 1) path position l) := by
  simp only [Loader.synonym, follow, run_bind, run_get]
  cases hr : l.resolved.lookup position with
  | some known => exact .known hr
  | none =>
    rcases he : l.entries[position]? with _ | ⟨package, source, item, type?⟩
    · exact .other (by simp [he])
    · cases item with
      | struct d | enum d => exact .other (by simp [he])
      | synonym d =>
        cases type? with
        | some id => exact .other (by simp [he])
        | none =>
          by_cases hp : position ∈ path
          · simp only [List.contains_eq_mem, hp, decide_true, if_true]
            exact .cycle he hp
          · simp only [List.contains_eq_mem, hp, decide_false, Bool.false_eq_true, if_false]
            exact .target he hp rfl

theorem yields_synonym (depth : Nat) (path : List Nat) (position : Nat) :
    Yields (Loader.synonym depth path position) Known := by
  induction depth generalizing path position with
  | zero => exact fun l hl => .pure hl known_none
  | succ depth ih =>
    intro l hl
    have hfollowed := followed_synonym depth path position l
    generalize Loader.synonym (depth + 1) path position l = r at hfollowed
    cases hfollowed with
    | @known known hr =>
      refine ⟨hl, .refl _, fun id hid => hl.resolved position id ?_⟩
      obtain ⟨before, after, hi, -⟩ := List.lookup_eq_some_iff.mp hr
      simp only at hid
      simp [hi, hid]
    | @cycle package source d he hp =>
      obtain ⟨hs, he, -⟩ := safe_report source .aliasCycle d.name.span (some d.name.text) [] l hl
      exact ⟨hs, he, known_none⟩
    | @target package source d r he hp ht =>
      obtain ⟨hs, he, hk⟩ := yields_type (ih (position :: path)) ⟨package, source⟩ d.target l hl
      rw [ht] at hs he hk
      refine ⟨⟨hs.types, hs.entries, ?_, hs.roots⟩, he, hk⟩
      intro q id hm
      rcases List.mem_cons.mp hm with heq | hm
      · exact hk id (congrArg Prod.snd heq).symm
      · exact hs.resolved q id hm
    | other hno => exact ⟨hl, .refl _, known_none⟩

theorem yields_topSynonym (position : Nat) : Yields (topSynonym position) Known :=
  fun l hl => yields_synonym (l.entries.length + 1) [] position l hl

theorem yields_constants (source : SourceId) (id : TypeId) (kind : Scalar)
    (seen : List (String × Span)) (vs : List Variant) :
    Yields (constants source id kind seen vs) fun _ _ => True := by
  induction vs generalizing seen with
  | nil => exact fun l hl => .pure hl trivial
  | cons v vs ih =>
    rw [constants]
    cases seen.lookup v.name.text with
    | some first => exact (safe_report _ _ _ _ _).andThen fun _ => ih seen
    | none =>
      simp only
      split
      · refine Yields.bind (Q := fun _ _ => True) (fun l hl => ?_) fun _ l hl _ => ?_
        · exact outcome_updateTypes hl (hl.types.addConstant _ _) (.modify _ _ fun d =>
            .withConstant d _)
        · exact (ih _ l hl).bind fun n l hl _ => .pure hl trivial
      · exact (safe_report _ _ _ _ _).andThen fun _ => ih _

theorem safe_documentType (id : TypeId) (doc : Option String) : Safe (documentType id doc) := by
  intro l hl
  cases doc with
  | none => exact outcome_updateTypes hl hl.types (.refl _)
  | some doc =>
    exact outcome_updateTypes hl (hl.types.setDoc id doc) (.modify _ _ fun d => .withDoc d doc)

/-- A type with a name. -/
def Named (t : TypeSet) (id : TypeId) : Prop :=
  ∃ d, t.get? id = some d ∧ d.name.isSome

theorem Named.evolves {id : TypeId} (h : Named t id) (he : t.Evolves t') : Named t' id := by
  obtain ⟨d, hd, hn⟩ := h
  obtain ⟨d', hd', hm⟩ := he id d hd
  exact ⟨d', hd', hm.name ▸ hn⟩

theorem outcome_resolveStruct {id : TypeId} (place : Place) (d : StructDef) (hl : l.Sound)
    (hn : Named l.types id) : Outcome l (resolveStruct place id d l) fun _ _ => True := by
  obtain ⟨hs, he, hm⟩ := yields_members yields_topSynonym place [] d.members l hl
  refine Outcome.bind (Q := fun t ms => Named t id ∧ KnownMembers t ms)
    ⟨hs, he, hn.evolves he, hm⟩ fun ms l hl hq => ?_
  have hset : l.types.Evolves (l.types.setMembers id ms) := .modify _ _ fun d => .withMembers d ms
  refine Outcome.bind (Q := fun t _ => Named t id)
    ⟨hl.evolved (hl.types.setMembers id hq.2) hset, hset, hq.1.evolves hset⟩ fun _ l hl hn => ?_
  obtain ⟨hs, he, -⟩ := safe_documentType id d.doc l hl
  refine Outcome.bind (Q := fun t _ => Named t id) ⟨hs, he, hn.evolves he⟩ fun _ l hl hn => ?_
  refine Outcome.bind (Q := fun t _ => Named t id)
    ⟨⟨hl.types, hl.entries, hl.resolved, hl.roots⟩, .refl _, hn⟩ fun _ l hl hn => ?_
  obtain ⟨d, hd, hn⟩ := hn
  exact ⟨hl.rooted ⟨d, hd, hn, by simp⟩, .refl _, trivial⟩

/-- What the loader does with an enum that can carry constants. -/
def fillEnum (place : Place) (id : TypeId) (kind : Scalar) (d : EnumDef) : Loader Unit := do
  let count ← constants place.source id kind [] d.variants
  if d.variants = [] then
    report place.source .emptyEnum d.name.span none []
  else if 0 < count then
    addRoot id .enum

theorem resolveEnum_eq (place : Place) (id : TypeId) (d : EnumDef) (l : Loading) :
    resolveEnum place id d l =
      let l := (documentType id d.doc l).2
      let kind := ((l.types.get? id).bind (·.scalar?)).getD .any
      if kind.enumerable then fillEnum place id kind d l else ((), l) := by
  have hget : resolveEnum place id d l =
      (let l := (documentType id d.doc l).2
      let kind := ((l.types.get? id).bind (·.scalar?)).getD .any
      if kind.enumerable then fillEnum place id kind d else return () : Loader Unit)
        (documentType id d.doc l).2 := rfl
  rw [hget]
  simp only
  split <;> rfl

theorem outcome_resolveEnum {id : TypeId} (place : Place) (d : EnumDef) (hl : l.Sound)
    (hn : Named l.types id) : Outcome l (resolveEnum place id d l) fun _ _ => True := by
  rw [resolveEnum_eq]
  obtain ⟨hs, he, -⟩ := safe_documentType id d.doc l hl
  simp only
  generalize (documentType id d.doc l).2 = l' at hs he ⊢
  split
  · next hk =>
    have hroot : Root.Typed l'.types ⟨id, .enum⟩ := by
      obtain ⟨desc, hd, hn⟩ := hn.evolves he
      refine ⟨desc, hd, hn, ?_⟩
      intro _
      have hany : Scalar.any.enumerable = false := rfl
      cases hshape : desc.shape with
      | scalar kind => exact ⟨kind, rfl⟩
      | _ => simp [hd, Description.scalar?, hshape, hany] at hk
    have hfill (kind : Scalar) : Outcome l' (fillEnum place id kind d l') fun _ _ => True := by
      obtain ⟨hs', he', -⟩ := yields_constants place.source id kind [] d.variants l' hs
      refine Outcome.bind (Q := fun t _ => Root.Typed t ⟨id, .enum⟩)
        ⟨hs', he', hroot.evolves he'⟩ fun count l hl hr => ?_
      split
      · exact safe_report _ _ _ _ _ l hl
      · split
        · exact ⟨hl.rooted hr, .refl _, trivial⟩
        · exact .pure hl trivial
    exact ⟨(hfill _).sound, he.trans (hfill _).evolves, trivial⟩
  · exact ⟨hs, he, trivial⟩

/-- Resolves a definition where it has its place. -/
def resolveEntry (entry : Entry) (position : Nat) : Loader Unit :=
  resolveAs ⟨entry.package, entry.source⟩ entry.item entry.type? position

theorem outcome_resolveEntry {entry : Entry} (position : Nat) (hl : l.Sound)
    (he : entry.Typed l.types) : Outcome l (resolveEntry entry position l) fun _ _ => True := by
  have hnamed {id : TypeId} (hid : entry.type? = some id) : Named l.types id := by
    obtain ⟨d, hd, hn, -⟩ := he id hid
    exact ⟨d, hd, by simp [hn]⟩
  have htop : Outcome l ((do let _ ← topSynonym position : Loader Unit) l) fun _ _ => True :=
    (yields_topSynonym position l hl).bind fun _ _ hl _ => .pure hl trivial
  obtain ⟨package, source, item, type?⟩ := entry
  cases type? with
  | none =>
    cases item with
    | struct d | enum d => exact .pure hl trivial
    | synonym d => exact htop
  | some id =>
    cases item with
    | struct d => exact outcome_resolveStruct ⟨package, source⟩ d hl (hnamed rfl)
    | enum d => exact outcome_resolveEnum ⟨package, source⟩ d hl (hnamed rfl)
    | synonym d => exact safe_documentType id d.doc l hl

theorem outcome_declareNamed (package name : String) {shape : Shape} (hs : shape.ids = [])
    (hl : l.Sound) :
    Outcome l ((do return some (← withTypes (·.declareNamed package name shape)) :
      Loader (Option TypeId)) l) (Declared package name) := by
  have hnamed : ∃ d, (l.types.declareNamed package name shape).2.get?
      (l.types.declareNamed package name shape).1 = some d ∧ d.name = some name ∧
        d.package = package := by
    rcases l.types.declareNamed_cases package name shape with ⟨i, d, hd, hn, hp, h⟩ | ⟨-, h⟩ <;>
      rw [h]
    · exact ⟨d, hd, hn, hp⟩
    · refine ⟨{ name := some name, package, shape }, ?_, rfl, rfl⟩
      rw [TypeSet.get?_push]
      simp [TypeSet.push]
  refine Outcome.bind (Q := fun t id => Declared package name t (some id))
    ⟨hl.evolved (hl.types.declareNamed package name hs) (.declareNamed _ _ _ _),
      .declareNamed _ _ _ _, fun id hid => ?_⟩ fun id l hl hq => .pure hl hq
  obtain rfl := Option.some.inj hid
  exact hnamed

theorem yields_declaredType (file : File) (item : Item) :
    Yields (declaredType file item) (Declared file.packagePath item.name.text) := by
  intro l hl
  cases item with
  | struct d => exact outcome_declareNamed file.packagePath d.name.text rfl hl
  | enum d =>
    have hbase : Yields (enumBase file.source d) fun _ _ => True := by
      unfold enumBase
      simp only
      split
      · exact (safe_report _ _ _ _ _).bind fun _ _ hl _ => .pure hl trivial
      · exact fun l hl => .pure hl trivial
    exact hbase.bind (fun kind l hl _ =>
      outcome_declareNamed file.packagePath d.name.text rfl hl) l hl
  | synonym d =>
    obtain ⟨name, doc, target⟩ := d
    cases target with
    | scalar kind span => exact outcome_declareNamed file.packagePath name.text rfl hl
    | _ => exact .pure hl (by simp [Declared])

/-- Gives an item its place, unless its name is taken. -/
def declareItem (file : File) (item : Item) : Loader Unit := do
  let _ ← declares file item

theorem declareItem_eq (file : File) (item : Item) (l : Loading) :
    declareItem file item l =
      match l.entries.find? fun e => e.package = file.packagePath ∧ e.name = item.name.text with
      | some first => report file.source .duplicateDefinition item.name.span (some item.name.text)
          [⟨first.source, first.item.name.span, "first defined here"⟩] l
      | none =>
        let r := declaredType file item l
        ((), { r.2 with
          entries := r.2.entries ++ [⟨file.packagePath, file.source, item, r.1⟩] }) := by
  simp only [declareItem, declares, run_bind, run_get]
  cases l.entries.find? fun e => e.package = file.packagePath ∧ e.name = item.name.text <;> rfl

theorem safe_declareItem (file : File) (item : Item) : Safe (declareItem file item) := by
  intro l hl
  rw [declareItem_eq]
  cases l.entries.find? fun e => e.package = file.packagePath ∧ e.name = item.name.text with
  | some first => exact safe_report _ _ _ _ _ l hl
  | none =>
    obtain ⟨hs, he, hq⟩ := yields_declaredType file item l hl
    exact ⟨hs.entered hq, he, trivial⟩

/-- The first pass without its answer. -/
def firstPass (files : List File) : Loader Unit :=
  files.forM fun file => file.items.forM (declareItem file)

/-- The second pass where it follows the definitions that have their places. -/
def secondPass : Loader Unit := do
  (← get).entries.zipIdx.forM fun (entry, position) => resolveEntry entry position

theorem safe_firstPass (files : List File) : Safe (firstPass files) := by
  have hall {α : Type} {f : α → Loader Unit} (hf : ∀ a, Safe (f a)) (xs : List α) :
      Safe (xs.forM f) := fun l hl =>
    safe_forM (P := fun _ _ => True) (fun _ _ _ _ _ => trivial) (fun a l hl _ => hf a l hl) hl
      (by simp)
  exact hall (fun file => hall (safe_declareItem file) file.items) files

theorem safe_secondPass : Safe secondPass :=
  fun _ hl => safe_forM (P := fun t (e : Entry × Nat) => e.1.Typed t)
    (fun _ _ _ he h => h.evolves he) (fun e _ hl he => outcome_resolveEntry e.2 hl he) hl
    fun e he => hl.entries e.1 (List.fst_mem_of_mem_zipIdx he)

end Loader

end TypeGraph.Schema
