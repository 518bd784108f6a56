import Mathlib.Data.List.Perm.Subperm
import TypeGraph.Proofs.Schema.Placing
/-!
What resolving leaves alone. Work on expressions keeps the definitions and the roots, and every
definition adds one root at most, for its own type. Following synonyms never uses up its depth, so
what is answered at that depth does not matter.
-/

namespace TypeGraph.Schema

namespace Loader

variable {α β : Type} {es : List Entry} {l : Loading}

/-- What two pieces of work do in a loading: the same, and the definitions and roots stay. -/
structure Same (l : Loading) (r r' : α × Loading) : Prop where
  eq : r' = r
  entries : r.2.entries = l.entries
  roots : r.2.roots = l.roots

/-- Work that does the same in every loading with the definitions `es`. -/
def Alike (es : List Entry) (m m' : Loader α) : Prop :=
  ∀ l, l.entries = es → Same l (m l) (m' l)

/-- Work that keeps the definitions and the roots. -/
abbrev Steady (es : List Entry) (m : Loader α) : Prop :=
  Alike es m m

theorem Alike.bind {m m' : Loader α} {f f' : α → Loader β} (hm : Alike es m m')
    (hf : ∀ a, Alike es (f a) (f' a)) : Alike es (m >>= f) (m' >>= f') := by
  intro l hl
  obtain ⟨heq, hentries, hroots⟩ := hm l hl
  obtain ⟨heq', hentries', hroots'⟩ := hf (m l).1 (m l).2 (hentries.trans hl)
  refine ⟨?_, hentries'.trans hentries, hroots'.trans hroots⟩
  rw [run_bind, run_bind, heq]
  exact heq'

theorem steady_pure (a : α) : Steady es (pure a : Loader α) :=
  fun _ _ => ⟨rfl, rfl, rfl⟩

theorem steady_get : Steady es (get : Loader Loading) :=
  fun _ _ => ⟨rfl, rfl, rfl⟩

theorem steady_report (source : SourceId) (kind : Diagnostic.Kind) (span : Span)
    (detail? : Option String) (related : List Diagnostic.Related) :
    Steady es (report source kind span detail? related) :=
  fun _ _ => ⟨rfl, rfl, rfl⟩

theorem steady_withTypes (f : TypeSet → TypeId × TypeSet) : Steady es (withTypes f) :=
  fun _ _ => ⟨rfl, rfl, rfl⟩

theorem steady_updateTypes (f : TypeSet → TypeSet) : Steady es (updateTypes f) :=
  fun _ _ => ⟨rfl, rfl, rfl⟩

theorem steady_resolved (position : Nat) (ty? : Option TypeId) :
    Steady es (do
      modify fun l => { l with resolved := (position, ty?) :: l.resolved }
      return ty? : Loader (Option TypeId)) :=
  fun _ _ => ⟨rfl, rfl, rfl⟩

theorem steady_intern (f : TypeSet → TypeId × TypeSet) :
    Steady es (do return some (← withTypes f) : Loader (Option TypeId)) :=
  (steady_withTypes f).bind fun id => steady_pure (some id)

section Expressions

variable {synonym synonym' : Nat → Loader (Option TypeId)}

theorem alike_reference (hs : ∀ i, Alike es (synonym i) (synonym' i)) (place : Place)
    (qualifier : Option String) (name : String) (span : Span) :
    Alike es (reference synonym place qualifier name span)
      (reference synonym' place qualifier name span) := by
  unfold reference
  apply Alike.bind steady_get
  intro a
  rcases candidates a.entries place.package qualifier name with _ | ⟨⟨entry, i⟩, _ | ⟨c, cs⟩⟩
  · exact (steady_report _ _ _ _ _).bind fun _ => steady_pure none
  · simp only
    cases entry.type? with
    | some id => exact steady_pure (some id)
    | none => exact hs i
  · exact (steady_report _ _ _ _ _).bind fun _ => steady_pure none

mutual

/-- Expressions mean the same with two ways to resolve synonyms that do the same. -/
theorem alike_type (hs : ∀ i, Alike es (synonym i) (synonym' i)) (place : Place) :
    ∀ x, Alike es (type synonym place x) (type synonym' place x)
  | .scalar kind _ => by
    rw [type, type]
    exact steady_intern _
  | .reference qualifier name span => by
    rw [type, type]
    exact alike_reference hs place qualifier name span
  | .pointer target _ => by
    rw [type, type]
    apply (alike_type hs place target).bind
    intro id?
    cases id? with
    | none => exact steady_pure none
    | some id => exact steady_intern _
  | .sequence element _ => by
    rw [type, type]
    apply (alike_type hs place element).bind
    intro id?
    cases id? with
    | none => exact steady_pure none
    | some id => exact steady_intern _
  | .map key value _ => by
    rw [type, type]
    apply (alike_type hs place key).bind
    intro key?
    apply (alike_type hs place value).bind
    intro value?
    match key?, value? with
    | some k, some v => exact steady_intern _
    | none, _ => exact steady_pure none
    | some _, none => exact steady_pure none
  | .record definitions _ => by
    rw [type, type]
    apply (alike_members hs place [] definitions).bind
    intro members
    exact steady_intern _
  | .hole _ => by
    rw [type, type]
    exact steady_pure none

theorem alike_members (hs : ∀ i, Alike es (synonym i) (synonym' i)) (place : Place) :
    ∀ seen definitions,
      Alike es (members synonym place seen definitions) (members synonym' place seen definitions)
  | seen, [] => by
    rw [members, members]
    exact steady_pure []
  | seen, ⟨name, expr, embedded, attributes, doc⟩ :: definitions => by
    rw [members, members]
    cases seen.lookup name.text with
    | some first =>
      exact (steady_report _ _ _ _ _).bind fun _ => alike_members hs place seen definitions
    | none =>
      apply (alike_type hs place expr).bind
      intro ty?
      apply (alike_members hs place ((name.text, name.span) :: seen) definitions).bind
      intro rest
      cases ty? with
      | none => exact steady_pure rest
      | some ty => exact steady_pure _

end

end Expressions

section Synonyms

/-- Positions on a path are those of definitions, and none comes twice. -/
theorem length_path_le {path : List Nat} {n : Nat} (hnodup : path.Nodup)
    (hbound : ∀ p ∈ path, p < n) : path.length ≤ n := by
  have hsub : path ⊆ List.range n := fun p hp => List.mem_range.mpr (hbound p hp)
  have hlen := (List.subperm_of_subset hnodup hsub).length_le
  rwa [List.length_range] at hlen

/-- The synonym at a position where `bottom` answers when the depth is used up. -/
def synonymOr (bottom : List Nat → Nat → Loader (Option TypeId)) :
    Nat → List Nat → Nat → Loader (Option TypeId)
  | 0, path, position => bottom path position
  | depth + 1, path, position => follow (synonymOr bottom depth (position :: path)) path position

variable {path : List Nat} {position : Nat}

theorem alike_follow {next next' : Nat → Loader (Option TypeId)}
    (hnext : position ∉ path → position < es.length → ∀ i, Alike es (next i) (next' i)) :
    Alike es (follow next path position) (follow next' path position) := by
  intro l hl
  simp only [follow, run_bind, run_get]
  cases l.resolved.lookup position with
  | some known => exact ⟨rfl, rfl, rfl⟩
  | none =>
    rcases he : l.entries[position]? with _ | ⟨package, source, item, type?⟩
    · exact ⟨rfl, rfl, rfl⟩
    · cases item with
      | struct d | enum d => exact ⟨rfl, rfl, rfl⟩
      | synonym d =>
        cases type? with
        | some id => exact ⟨rfl, rfl, rfl⟩
        | none =>
          by_cases hp : position ∈ path
          · simp only [List.contains_eq_mem, hp, decide_true, if_true]
            exact ⟨rfl, rfl, rfl⟩
          · have hlt : position < es.length := hl ▸ (List.getElem?_eq_some_iff.mp he).1
            have htarget : Alike es (type next ⟨package, source⟩ d.target)
              (type next' ⟨package, source⟩ d.target) := alike_type (hnext hp hlt) _ _
            have hboth := htarget.bind fun ty? => steady_resolved position ty?
            simp only [List.contains_eq_mem, hp, decide_false, Bool.false_eq_true, if_false]
            exact hboth l hl

/-- The depth is never used up: every level adds a position to the path. -/
theorem alike_synonymOr (bottom : List Nat → Nat → Loader (Option TypeId)) (depth : Nat)
    (position : Nat) (hnodup : path.Nodup) (hbound : ∀ p ∈ path, p < es.length)
    (hdepth : es.length < depth + path.length) :
    Alike es (synonym depth path position) (synonymOr bottom depth path position) := by
  induction depth generalizing path position with
  | zero =>
    have hle := length_path_le hnodup hbound
    omega
  | succ depth ih =>
    rw [synonym, synonymOr]
    apply alike_follow
    intro hp hlt i
    apply ih
    · exact List.nodup_cons.mpr ⟨hp, hnodup⟩
    · exact List.forall_mem_cons.mpr ⟨hlt, hbound⟩
    · rw [List.length_cons]
      omega

theorem alike_topSynonym (bottom : List Nat → Nat → Loader (Option TypeId)) (position : Nat) :
    Alike es (topSynonym position) (synonymOr bottom (es.length + 1) [] position) := by
  intro l hl
  subst hl
  have halike : Alike l.entries (synonym (l.entries.length + 1) [] position)
      (synonymOr bottom (l.entries.length + 1) [] position) :=
    alike_synonymOr bottom _ position List.nodup_nil (by simp) (by simp)
  exact halike l rfl

theorem steady_topSynonym (position : Nat) : Steady es (topSynonym position) := by
  intro l hl
  obtain ⟨-, hentries, hroots⟩ := alike_topSynonym (fun _ _ => pure none) position l hl
  exact ⟨rfl, hentries, hroots⟩

end Synonyms

section Roots

theorem steady_constants (source : SourceId) (id : TypeId) (kind : Scalar)
    (seen : List (String × Span)) (vs : List Variant) :
    Steady es (constants source id kind seen vs) := by
  induction vs generalizing seen with
  | nil => exact steady_pure 0
  | cons v vs ih =>
    rw [constants]
    cases seen.lookup v.name.text with
    | some first => exact (steady_report _ _ _ _ _).bind fun _ => ih seen
    | none =>
      simp only
      split
      · apply (steady_updateTypes _).bind
        intro _
        exact (ih _).bind fun n => steady_pure (n + 1)
      · exact (steady_report _ _ _ _ _).bind fun _ => ih _

/-- What resolving definitions leaves behind: the definitions as they were, and roots for some of
the types `ids`, in their order. -/
structure Roots (l : Loading) (ids : List TypeId) (l' : Loading) : Prop where
  entries : l'.entries = l.entries
  added : ∃ more, l'.roots = l.roots ++ more ∧ (more.map (·.ty)).Sublist ids

namespace Roots

variable {l' l'' : Loading} {ids ids' : List TypeId}

theorem none (hentries : l'.entries = l.entries) (hroots : l'.roots = l.roots) :
    Roots l ids l' :=
  ⟨hentries, [], by rw [hroots, List.append_nil], List.nil_sublist _⟩

theorem one (root : Root) (hentries : l'.entries = l.entries)
    (hroots : l'.roots = l.roots ++ [root]) : Roots l [root.ty] l' :=
  ⟨hentries, [root], hroots, List.Sublist.refl _⟩

theorem append (h : Roots l ids l') (k : Roots l' ids' l'') : Roots l (ids ++ ids') l'' := by
  obtain ⟨hentries, more, hmore, hsub⟩ := h
  obtain ⟨kentries, more', hmore', hsub'⟩ := k
  refine ⟨kentries.trans hentries, more ++ more', ?_, ?_⟩
  · rw [hmore', hmore, List.append_assoc]
  · rw [List.map_append]
    exact hsub.append hsub'

end Roots

theorem roots_resolveStruct (place : Place) (id : TypeId) (d : StructDef) (l : Loading) :
    Roots l [id] (resolveStruct place id d l).2 := by
  have hmembers : Steady l.entries (members topSynonym place [] d.members) :=
    alike_members steady_topSynonym place [] d.members
  obtain ⟨-, hentries, hroots⟩ := hmembers l rfl
  have hadded : (resolveStruct place id d l).2.roots =
    (members topSynonym place [] d.members l).2.roots ++ [⟨id, .struct⟩] := rfl
  exact .one ⟨id, .struct⟩ hentries (by rw [hadded, hroots])

theorem roots_resolveEnum (place : Place) (id : TypeId) (d : EnumDef) (l : Loading) :
    Roots l [id] (resolveEnum place id d l).2 := by
  rw [resolveEnum_eq]
  simp only
  split
  · have hconstants (kind : Scalar) :
        Steady l.entries (constants place.source id kind [] d.variants) :=
      steady_constants place.source id kind [] d.variants
    obtain ⟨-, hentries, hroots⟩ := hconstants _ (documentType id d.doc l).2 rfl
    have hsame : (documentType id d.doc l).2.roots = l.roots := rfl
    rw [hsame] at hroots
    rw [fillEnum, run_bind]
    split
    · exact .none hentries hroots
    · split
      · exact .one ⟨id, .enum⟩ hentries (by rw [← hroots]; rfl)
      · exact .none hentries hroots
  · exact .none rfl rfl

/-- A definition adds a root for its own type or none. -/
theorem roots_resolveEntry (e : Entry) (position : Nat) (l : Loading) :
    Roots l e.type?.toList (resolveEntry e position l).2 := by
  obtain ⟨package, source, item, type?⟩ := e
  cases type? with
  | none =>
    cases item with
    | struct d | enum d => exact .none rfl rfl
    | synonym d =>
      obtain ⟨-, hentries, hroots⟩ := steady_topSynonym position l rfl
      exact .none hentries hroots
  | some id =>
    cases item with
    | struct d => exact roots_resolveStruct ⟨package, source⟩ id d l
    | enum d => exact roots_resolveEnum ⟨package, source⟩ id d l
    | synonym d => exact .none rfl rfl

theorem roots_forM_resolveEntry (es : List (Entry × Nat)) (l : Loading) :
    Roots l ((es.map (·.1)).filterMap (·.type?)) (es.forM (fun e => resolveEntry e.1 e.2) l).2 := by
  induction es generalizing l with
  | nil => exact .none rfl rfl
  | cons e es ih =>
    have hfirst := roots_resolveEntry e.1 e.2 l
    have hall := hfirst.append (ih (resolveEntry e.1 e.2 l).2)
    have hids : ((e :: es).map (·.1)).filterMap (·.type?) =
        e.1.type?.toList ++ (es.map (·.1)).filterMap (·.type?) := by
      cases ht : e.1.type? <;> simp [ht]
    rw [hids]
    exact hall

theorem steady_declaredType (file : File) (item : Item) : Steady es (declaredType file item) := by
  have hnamed (f : TypeSet → TypeId × TypeSet) :
      Steady es (do return some (← withTypes f) : Loader (Option TypeId)) := steady_intern f
  cases item with
  | struct d => exact hnamed _
  | enum d =>
    have hbase : Steady es (enumBase file.source d) := by
      intro l _
      rw [enumBase_eq]
      split <;> exact ⟨rfl, rfl, rfl⟩
    exact hbase.bind fun kind => hnamed _
  | synonym d =>
    obtain ⟨name, doc, target⟩ := d
    cases target with
    | scalar kind span => exact hnamed _
    | _ => exact steady_pure none

theorem roots_declareItem (file : File) (item : Item) (l : Loading) :
    (declareItem file item l).2.roots = l.roots := by
  obtain ⟨-, -, hroots⟩ := steady_declaredType file item l rfl
  rw [declareItem_eq]
  split
  · rfl
  · exact hroots

theorem roots_forM {f : α → Loader Unit} (hf : ∀ a l, (f a l).2.roots = l.roots) (xs : List α)
    (l : Loading) : (xs.forM f l).2.roots = l.roots := by
  induction xs generalizing l with
  | nil => rfl
  | cons x xs ih => exact (ih (f x l).2).trans (hf x l)

theorem roots_firstPass (files : List File) (l : Loading) :
    (firstPass files l).2.roots = l.roots :=
  roots_forM (fun file => roots_forM (roots_declareItem file) file.items) files l

theorem roots_secondPass (l : Loading) :
    Roots l (l.entries.filterMap (·.type?)) (secondPass l).2 := by
  have hroots := roots_forM_resolveEntry l.entries.zipIdx l
  rw [List.zipIdx_map_fst] at hroots
  exact hroots

end Roots

end Loader

open Loader

/-- The types of definitions with different names are different. -/
theorem Loading.Sound.nodup_types {l : Loading} (h : l.Sound)
    (hd : (l.entries.map (·.definition.key)).Nodup) : (l.entries.filterMap (·.type?)).Nodup := by
  apply List.pairwise_filterMap.mpr
  apply (List.pairwise_map.mp hd).imp_of_mem
  intro e e' he he' hne id hid id' hid' heq
  subst heq
  obtain ⟨d, hget, hname, hpackage⟩ := h.entries e he id hid
  obtain ⟨d', hget', hname', hpackage'⟩ := h.entries e' he' id hid'
  obtain rfl : d = d' := Option.some.inj (hget.symm.trans hget')
  have hnames : e.name = e'.name := Option.some.inj (hname.symm.trans hname')
  have hpackages : e.package = e'.package := hpackage.symm.trans hpackage'
  exact hne (Prod.ext hpackages hnames)

end TypeGraph.Schema
