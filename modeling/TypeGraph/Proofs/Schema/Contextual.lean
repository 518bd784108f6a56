import TypeGraph.Proofs.Schema.Naming
/-!
The names of structs without a name. A member gives such a struct the name made of its own and the
name of the struct that it is in. The name is made once, from what the member holds behind pointers,
sequences and maps of values, so a struct that stands in a key may come under the name of the type
beside it.
-/

namespace TypeGraph

namespace Catalog

variable {c : Catalog} {id x : TypeId} {own : Description}

/-- A way from a type to another, as a walk goes, that passes through a key. -/
inductive LeadsByKey (c : Catalog) : TypeId → TypeId → Prop
  | pointer {id target x : TypeId} (hs : c.types.shape? id = some (.pointer target))
      (hc : c.customText id = none) (h : LeadsByKey c target x) : LeadsByKey c id x
  | sequence {id element x : TypeId} (hs : c.types.shape? id = some (.sequence element))
      (hc : c.customText id = none) (h : LeadsByKey c element x) : LeadsByKey c id x
  | value {id key value x : TypeId} (hs : c.types.shape? id = some (.map key value))
      (hc : c.customText id = none) (h : LeadsByKey c value x) : LeadsByKey c id x
  | key {id key value x : TypeId} (hs : c.types.shape? id = some (.map key value))
      (hc : c.customText id = none) (h : c.LeadsTo key x) : LeadsByKey c id x

/-- Containers have no names. -/
theorem get?_of_shape? {shape : Shape} (hn : c.types.PlainlyNamed)
    (hs : c.types.shape? id = some shape) (hheld : shape.held ≠ []) :
    ∃ d, c.types.get? id = some d ∧ d.name = none ∧ d.shape = shape := by
  obtain ⟨d, hd, rfl⟩ := TypeSet.shape?_eq_some.mp hs
  refine ⟨d, hd, ?_, rfl⟩
  cases hname : d.name with
  | none => rfl
  | some name => exact absurd (hn id d hd (by simp [hname])) hheld

/-- A member holds no name where it leads to a struct without one, unless the way is through a
key. -/
theorem LeadsTo.namesTo_or_byKey (hn : c.types.PlainlyNamed) (h : c.LeadsTo id x)
    (ho : c.types.get? x = some own) (hown : own.name = none) :
    c.types.NamesTo id none ∨ c.LeadsByKey id x := by
  induction h with
  | @aggregate id d hd hc ha =>
    obtain rfl := Option.some.inj (ho.symm.trans hd)
    obtain ⟨ms, hs⟩ := Description.isAggregate_iff.mp ha
    exact .inl (.unnamed hd hown (by simp [hs, Shape.held]))
  | enumeration hd hc hname =>
    obtain rfl := Option.some.inj (ho.symm.trans hd)
    simp [hown] at hname
  | pointer hs hc _ ih =>
    obtain ⟨d, hd, hname, hshape⟩ := get?_of_shape? hn hs (by simp [Shape.held])
    exact (ih ho).imp (.pointer hd hname hshape) (.pointer hs hc)
  | sequence hs hc _ ih =>
    obtain ⟨d, hd, hname, hshape⟩ := get?_of_shape? hn hs (by simp [Shape.held])
    exact (ih ho).imp (.sequence hd hname hshape) (.sequence hs hc)
  | value hs hc _ ih =>
    obtain ⟨d, hd, hname, hshape⟩ := get?_of_shape? hn hs (by simp [Shape.held])
    exact (ih ho).imp (.map hd hname hshape) (.value hs hc)
  | key hs hc h => exact .inr (.key hs hc h)

/-- What a member makes a walk meet is what its type leads to, the struct it embeds included. -/
theorem Uses.leadsTo {owner : TypeId} {m : Member} (hp : c.types.Proper) (h : c.Uses owner m x) :
    c.LeadsTo m.ty x := by
  cases h with
  | leaf hd hm hs he h => exact h
  | base hd hm hs he hb ha hr hc =>
    have hin : c.types.contains m.ty := hp.closed _ _ hd _ (Description.ids_of_mem_members hm)
    exact LeadsTo.behind hp.named (TypeSet.stripsTo_strip hp.backward hin) (.aggregate hb hc ha)

/-- A struct without a name that a member uses is named by it and by the struct that the member is
in, unless it is in a key beside a type with a name. -/
theorem Uses.contextual {owner : TypeId} {m : Member} (hp : c.types.Proper)
    (h : c.Uses owner m x) (ho : c.types.get? x = some own) (hown : own.name = none)
    (enclosing : String) :
    (c.types.ownName m.ty = none ∧ (Field.ofMember c.types m enclosing).contextualName =
        Text.Uppercase.capitalize m.name ++ enclosing) ∨
      (c.types.ownName m.ty = some (Field.ofMember c.types m enclosing).contextualName ∧
        c.LeadsByKey m.ty x) := by
  obtain ⟨d, hd, hm⟩ := h.mem
  have hin : c.types.contains m.ty := hp.closed _ _ hd _ (Description.ids_of_mem_members hm)
  have hnames := TypeSet.namesTo_ownName hp.backward hin
  cases hname : c.types.ownName m.ty with
  | none => exact .inl ⟨rfl, by simp [Field.ofMember, hname]⟩
  | some name =>
    refine .inr ⟨by simp [Field.ofMember, hname], ?_⟩
    rcases (h.leadsTo hp).namesTo_or_byKey hp.named ho hown with hnone | hkey
    · have hsame := hnames.unique hnone
      simp [hname] at hsame
    · exact hkey

end Catalog

namespace Schema

/-- In a registry of any roots of a valid schema, a struct without a name is named by a member of a
declared struct that uses it: capitalized, in front of the name of that struct. The exception is a
struct in a key beside a type that has a name, which comes under that name. -/
theorem inline_structs_take_context (sources : List Source) (settings : Settings)
    (roots : List Root) (hvalid : (ofSources sources).isValid)
    (hroots : ∀ root ∈ roots, root ∈ (ofSources sources).roots) :
    let c := (ofSources sources).catalog settings
    ∃ r, (ofSources sources).registryFor settings roots = .ok r ∧
      ∀ d ∈ r.declarations, ∀ own, c.types.get? d.ty = some own → own.name = none →
        ∃ e ∈ r.declarations, ∃ m, c.Uses e.ty m d.ty ∧
          ((c.types.ownName m.ty = none ∧ d.name = Text.Uppercase.capitalize m.name ++ e.name) ∨
            (c.types.ownName m.ty = some d.name ∧ c.LeadsByKey m.ty d.ty)) := by
  intro c
  obtain ⟨hproper, htyped⟩ := ofSources_sound sources
  have htyped : ∀ root ∈ roots, root.Typed c.types :=
    fun root hroot => htyped root (hroots root hroot)
  obtain ⟨r, hr, hcovers, hwalks, hstarts⟩ := exists_walk hvalid settings hroots
  refine ⟨r, hr, fun d hd own ho hown => ?_⟩
  cases goesBy_of_walks hcovers.kept hwalks hstarts (namedStarts_startsOf htyped) d hd with
  | @own own' ho' hn =>
    obtain rfl := Option.some.inj (ho.symm.trans ho')
    simp [hown] at hn
  | @member own' owner enclosing m _ _ _ ht hu hname =>
    obtain ⟨e, he, hpair⟩ := List.mem_map.mp ht
    obtain ⟨rfl, rfl⟩ := Prod.mk.inj hpair
    refine ⟨e, he, m, hu, ?_⟩
    rw [hname]
    exact hu.contextual hproper ho hown e.name

/-- Structs without names behind a sequence and a pointer, in a key and in a value. -/
def nested : List Source :=
  [⟨.inline, "struct A \x7b M: [*struct \x7b B: int \x7d] " ++
    "N: \x7b struct \x7b C: int \x7d: struct \x7b D: int \x7d \x7d \x7d"⟩]

theorem nested_struct_takes_context :
    (ofSources nested).isValid ∧
      ∃ r, (ofSources nested).registryFor {} (ofSources nested).roots = .ok r ∧
        r.declarations.map (·.name) = ["MA", "NA", "NA", "A"] ∧
        ∃ d ∈ r.declarations, d.ty = ⟨11⟩ ∧ ∃ e ∈ r.declarations, ∃ m,
          ((ofSources nested).catalog {}).Uses e.ty m d.ty := by
  have hshown : ((ofSources nested).isValid ∧
      (((ofSources nested).catalog {}).types.get? ⟨11⟩).any (·.name.isNone)) ∧
      ((ofSources nested).registryFor {} (ofSources nested).roots).toOption.any fun r =>
        r.declarations.map (·.name) = ["MA", "NA", "NA", "A"] ∧
        ∃ d ∈ r.declarations, d.ty = ⟨11⟩ := by
    decide +kernel
  obtain ⟨⟨hvalid, hunnamed⟩, hshown⟩ := hshown
  obtain ⟨r, hr, hshown⟩ := Catalog.exists_eq_ok hshown
  obtain ⟨hnames, d, hd, hty⟩ := of_decide_eq_true hshown
  obtain ⟨own, ho, hown⟩ := (Option.any_eq_true _ _).mp hunnamed
  obtain ⟨r', hr', hcontext⟩ :=
    inline_structs_take_context nested {} (ofSources nested).roots hvalid fun _ hroot => hroot
  obtain rfl : r' = r := Except.ok.inj (hr'.symm.trans hr)
  obtain ⟨e, he, m, hu, -⟩ := hcontext d hd own (hty ▸ ho) (Option.isNone_iff_eq_none.mp hown)
  exact ⟨hvalid, r', hr, hnames, d, hd, hty, e, he, m, hu⟩

/-- A struct without a name in a key, beside a type that has one. -/
def misnamed : List Source :=
  [⟨.inline, "struct User \x7b Name: string \x7d " ++
    "struct A \x7b M: \x7b struct \x7b X: int \x7d: User \x7d \x7d"⟩]

/-- A struct without a name comes under the name of another type, and no member of any struct makes
that name. -/
theorem key_takes_name_of_value :
    (ofSources misnamed).isValid ∧ ∃ r, (ofSources misnamed).registry {} = .ok r ∧
      ∃ d ∈ r.declarations, ∃ e ∈ r.declarations, d.name = "User" ∧
        (r.types.get? d.ty).map (·.name) = some none ∧
        (r.types.get? e.ty).map (·.name) = some (some "User") ∧
        ∀ b ∈ r.declarations, ∀ own ∈ r.types.get? b.ty, ∀ m ∈ own.members,
          d.name ≠ Text.Uppercase.capitalize m.name ++ b.name := by
  have hshown : (ofSources misnamed).isValid ∧
      ((ofSources misnamed).registry {}).toOption.any fun r =>
        ∃ d ∈ r.declarations, ∃ e ∈ r.declarations, d.name = "User" ∧
          (r.types.get? d.ty).map (·.name) = some none ∧
          (r.types.get? e.ty).map (·.name) = some (some "User") ∧
          ∀ b ∈ r.declarations, ∀ own ∈ r.types.get? b.ty, ∀ m ∈ own.members,
            d.name ≠ Text.Uppercase.capitalize m.name ++ b.name := by
    decide +kernel
  obtain ⟨hvalid, hshown⟩ := hshown
  obtain ⟨r, hr, hshown⟩ := Catalog.exists_eq_ok hshown
  exact ⟨hvalid, r, hr, of_decide_eq_true hshown⟩

end Schema

end TypeGraph
