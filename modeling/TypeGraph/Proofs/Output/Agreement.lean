import TypeGraph.Proofs.Output.Evaluation
import TypeGraph.Proofs.Registry.Bodies
import TypeGraph.Proofs.Registry.Skipping
/-!
Discovery and resolving agree. Both follow pointers, sequences and maps, the one to declare what
lies behind them and the other to refer to it, and both stop at the same types: resolving the type of
a field comes upon no struct and no enumeration that is not declared.
-/

namespace TypeGraph

/-- The reference and all references inside it. -/
def TypeRef.parts : TypeRef → List TypeRef
  | .sequence element => .sequence element :: element.parts
  | .map key value => .map key value :: (key.parts ++ value.parts)
  | ref => [ref]

namespace View

variable {v : View} {id x y : TypeId} {ref : TypeRef} {own : Description} {d : Declaration}
variable {name : String}

theorem lookup_eq_some (h : v.lookup id = some d) : d ∈ v.declarations ∧ d.ty = id := by
  refine ⟨List.mem_of_find?_eq_some h, ?_⟩
  simpa using List.find?_some h

/-- A key is left as it is, or it is a declaration that gives way to strings. -/
theorem mapKey_cases (v : View) (id : TypeId) (ref : TypeRef) :
    v.mapKey id ref = ref ∧ (∀ name, ref = .declared name → v.declaresEnumeration id) ∨
      v.mapKey id ref = .scalar .string ∧ ∃ name, ref = .declared name := by
  unfold mapKey
  split
  · next name =>
    split
    · next h => exact .inl ⟨rfl, fun _ _ => h⟩
    · exact .inr ⟨rfl, name, rfl⟩
  · next h => exact .inl ⟨rfl, fun name hname => absurd hname (h name)⟩

theorem parts_mapKey {key : TypeId} {part : TypeRef} (h : part ∈ (v.mapKey key ref).parts) :
    part ∈ ref.parts ∨ part = .scalar .string := by
  rcases v.mapKey_cases key ref with ⟨hsame, -⟩ | ⟨hstring, -⟩
  · exact .inl (hsame ▸ h)
  · rw [hstring] at h
    exact .inr (List.mem_singleton.mp h)

/-- Only what is declared is resolved to a name. -/
theorem ResolvesTo.lookup (hb : v.types.Backward) (h : v.ResolvesTo id (.declared name)) :
    ∃ d, v.lookup (v.types.strip id) = some d ∧ d.name = name := by
  cases h with
  | declared ht ho hc hl => exact ⟨_, ht.eq_strip hb ▸ hl, rfl⟩

/-- Every name in a reference is that of a declaration. -/
theorem ResolvesTo.named (h : v.ResolvesTo id ref) (hname : .declared name ∈ ref.parts) :
    ∃ d ∈ v.declarations, d.name = name := by
  induction h with
  | verbatim | scalar | aggregate => simp [TypeRef.parts] at hname
  | declared ht ho hc hl =>
    obtain rfl : name = _ := by simpa [TypeRef.parts] using hname
    exact ⟨_, (lookup_eq_some hl).1, rfl⟩
  | sequence ht ho hc hl hs h ih => exact ih (by simpa [TypeRef.parts] using hname)
  | map ht ho hc hl hs hkey hstrip h ihkey ih =>
    rcases List.mem_append.mp (by simpa [TypeRef.parts] using hname) with hname | hname
    · rcases parts_mapKey hname with hname | hname
      · exact ihkey hname
      · cases hname
    · exact ih hname

theorem mapText_of_not_declared {key : TypeRef} (h : ∀ name, key ≠ .declared name) (text : String) :
    Output.TypeScript.mapText key text = Output.TypeScript.indexed "number" text ∨
      Output.TypeScript.mapText key text = Output.TypeScript.indexed "string" text := by
  cases key with
  | declared name => exact absurd rfl (h name)
  | scalar kind =>
    simp only [Output.TypeScript.mapText]
    split
    · exact .inl rfl
    · exact .inr rfl
  | sequence | map | verbatim => exact .inr rfl

theorem exists_of_declaresEnumeration (h : v.declaresEnumeration id) :
    ∃ d, v.lookup (v.types.strip id) = some d ∧ d.isEnumeration := by
  cases hl : v.lookup (v.types.strip id) with
  | some d => exact ⟨d, rfl, by simpa [declaresEnumeration, hl] using h⟩
  | none => simp [declaresEnumeration, hl] at h

/-- Every key in a reference is an enumeration by name, or it is written as a plain key. -/
theorem ResolvesTo.keyed (hb : v.types.Backward) (h : v.ResolvesTo id ref) {key value : TypeRef}
    (hmap : .map key value ∈ ref.parts) :
    (∃ d ∈ v.declarations, d.isEnumeration ∧ key = .declared d.name) ∨
      ∀ text, Output.TypeScript.mapText key text = Output.TypeScript.indexed "number" text ∨
        Output.TypeScript.mapText key text = Output.TypeScript.indexed "string" text := by
  induction h with
  | verbatim | scalar | aggregate | declared => simp [TypeRef.parts] at hmap
  | sequence ht ho hc hl hs h ih => exact ih (by simpa [TypeRef.parts] using hmap)
  | @map id target k value' own keyRef ref ht ho hc hl hs hkey hstrip h ihkey ih =>
    rcases List.mem_cons.mp hmap with hself | hinner
    · obtain ⟨rfl, -⟩ := TypeRef.map.inj hself
      rcases v.mapKey_cases k keyRef with ⟨hsame, henum⟩ | ⟨hstring, -⟩
      · rw [hsame]
        by_cases hnamed : ∃ name, keyRef = .declared name
        · obtain ⟨name, rfl⟩ := hnamed
          obtain ⟨d, hd, rfl⟩ := hkey.lookup hb
          obtain ⟨d', hd', he⟩ := exists_of_declaresEnumeration (henum _ rfl)
          obtain rfl := Option.some.inj (hd.symm.trans hd')
          exact .inl ⟨d, (lookup_eq_some hd).1, he, rfl⟩
        · exact .inr (mapText_of_not_declared fun name hname => hnamed ⟨name, hname⟩)
      · rw [hstring]
        exact .inr (mapText_of_not_declared fun name hname => by cases hname)
    · rcases List.mem_append.mp hinner with hin | hin
      · rcases parts_mapKey hin with hin | hin
        · exact ihkey hin
        · cases hin
      · exact ih hin

end View

namespace Catalog

/-- Declarations beside the types and the settings that they were found with. -/
def view (c : Catalog) (declarations : List Declaration) : View where
  declarations
  settings := c.settings
  types := c.types

variable {c : Catalog} {ds : List Declaration} {id x : TypeId} {ref : TypeRef} {own : Description}

/-- Pointers have no text, as they have no names. -/
theorem customText_of_pointer {target : TypeId} (hn : c.types.PlainlyNamed)
    (ho : c.types.get? id = some own) (hs : own.shape = .pointer target) :
    c.customText id = none := by
  have hname : own.name = none := by
    cases hname : own.name with
    | none => rfl
    | some name => simpa [hs, Shape.held] using hn id own ho (by simp [hname])
  simp [customText, TypeSet.qualifiedName, ho, Description.qualifiedName, hname]

/-- A walk goes through pointers, as resolving does. -/
theorem LeadsTo.behind {target : TypeId} (hn : c.types.PlainlyNamed)
    (h : c.types.StripsTo id target) (hx : c.LeadsTo target x) : c.LeadsTo id x := by
  induction h with
  | pointer hd hs _ ih =>
    exact .pointer (TypeSet.shape?_eq_some.mpr ⟨_, hd, hs⟩) (customText_of_pointer hn hd hs) (ih hx)
  | done => exact hx

theorem LeadsTo.inside {y : TypeId} (ho : c.types.get? id = some own)
    (hc : c.customText id = none) (hy : y ∈ own.shape.held) (hx : c.LeadsTo y x) :
    c.LeadsTo id x := by
  cases hs : own.shape with
  | aggregate | scalar => simp [hs, Shape.held] at hy
  | pointer target =>
    obtain rfl : y = target := by simpa [hs, Shape.held] using hy
    exact .pointer (TypeSet.shape?_eq_some.mpr ⟨own, ho, hs⟩) hc hx
  | sequence element =>
    obtain rfl : y = element := by simpa [hs, Shape.held] using hy
    exact .sequence (TypeSet.shape?_eq_some.mpr ⟨own, ho, hs⟩) hc hx
  | map key value =>
    have hshape := TypeSet.shape?_eq_some.mpr ⟨own, ho, hs⟩
    rcases (by simpa [hs, Shape.held] using hy : y = key ∨ y = value) with rfl | rfl
    · exact .key hshape hc hx
    · exact .value hshape hc hx

/-- All that a walk from the type declares is among the declarations. -/
def Covers (c : Catalog) (ds : List Declaration) (id : TypeId) : Prop :=
  ∀ x, c.LeadsTo id x → ∃ d ∈ ds, d.ty = x

theorem Covers.behind (h : c.Covers ds id) (hp : c.types.Proper) (hin : c.types.contains id) :
    c.Covers ds (c.types.strip id) :=
  fun x hx => h x (hx.behind hp.named (TypeSet.stripsTo_strip hp.backward hin))

/-- A struct that is covered and has no text is declared. -/
theorem Covers.aggregate (h : c.Covers ds id) (ho : c.types.get? id = some own)
    (ha : own.isAggregate) : (c.customText id).isSome ∨ ∃ d ∈ ds, d.ty = id := by
  cases hc : c.customText id with
  | some text => exact .inl rfl
  | none => exact .inr (h id (.aggregate ho hc ha))

/-- Scalars are declared as enumerations. -/
def ScalarsEnumerated (c : Catalog) (ds : List Declaration) : Prop :=
  ∀ d ∈ ds, ∀ own kind, c.types.get? d.ty = some own → own.shape = .scalar kind → d.isEnumeration

theorem Covers.indented (h : c.Covers ds id) (outer inner : String) :
    c.Covers (ds.map (·.indented outer inner)) id := by
  intro x hx
  obtain ⟨d, hd, hty⟩ := h x hx
  exact ⟨_, List.mem_map_of_mem hd, hty⟩

theorem ScalarsEnumerated.indented (h : c.ScalarsEnumerated ds) (outer inner : String) :
    c.ScalarsEnumerated (ds.map (·.indented outer inner)) := by
  intro d hd own kind ho hs
  obtain ⟨e, he, rfl⟩ := List.mem_map.mp hd
  rw [Declaration.isEnumeration_indented]
  exact h e he own kind ho hs

end Catalog

namespace Registry

/-- An enumeration, and a struct that holds pointers to more of its kind by it. -/
def sorted : TypeSet :=
  let types := (TypeSet.initial.declareScalar "" "Kind" .string).2
  let types := types.addConstant ⟨7⟩ { name := "Leaf", value := .string "leaf" }
  let types := (types.declareAggregate "" "Node").2
  let types := ((types.pointer ⟨8⟩).2.sequence ⟨9⟩).2
  (types.map ⟨7⟩ ⟨10⟩).2.setMembers ⟨8⟩ [{ name := "Children", ty := ⟨11⟩ }]

end Registry

end TypeGraph
