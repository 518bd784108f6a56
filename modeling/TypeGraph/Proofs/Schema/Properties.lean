import TypeGraph.Proofs.Registry.Specified
import TypeGraph.Proofs.Schema.Titling
import TypeGraph.Proofs.Schema.Usable
/-!
The names of properties. Members of one name are refused where they are written, and an interface
shows them under the names they are given instead. Two properties are called the same just where a
member is given the name that another one is shown by.
-/

namespace TypeGraph

/-- The name that a member is shown by. -/
def Member.shownName (m : Member) : String :=
  m.rename.getD m.name

namespace Member

variable {m other : Member} {ms : List Member}

theorem shownName_of_rename_eq_none (h : m.rename = none) : m.shownName = m.name := by
  simp [shownName, h]

theorem shownName_of_rename_eq_some {name : String} (h : m.rename = some name) :
    m.shownName = name := by
  simp [shownName, h]

/-- Members written with different names are shown by different names, unless one is given the name
of another. -/
theorem nodup_shownName_iff (hnodup : (ms.map (·.name)).Nodup) :
    (ms.map shownName).Nodup ↔
      ∀ m ∈ ms, ∀ other ∈ ms, m.rename = some other.shownName → m = other := by
  constructor
  · intro hshown m hm other hother hrename
    exact List.inj_on_of_nodup_map hshown hm hother (shownName_of_rename_eq_some hrename)
  · intro hapart
    refine List.Nodup.map_on ?_ (List.Nodup.of_map _ hnodup)
    intro m hm other hother hsame
    cases hr : m.rename with
    | some name =>
      obtain rfl : m.shownName = name := shownName_of_rename_eq_some hr
      exact hapart m hm other hother (hsame ▸ hr)
    | none =>
      cases ho : other.rename with
      | some name =>
        obtain rfl : other.shownName = name := shownName_of_rename_eq_some ho
        exact (hapart other hother m hm (hsame ▸ ho)).symm
      | none =>
        -- neither is renamed, so they are written with one name
        rw [shownName_of_rename_eq_none hr, shownName_of_rename_eq_none ho] at hsame
        exact List.inj_on_of_nodup_map hnodup hm hother hsame

end Member

namespace Catalog

variable {c : Catalog} {d : Declaration}

/-- What shows a struct has the fields of the members shown, under their names. -/
theorem Shows.exists_members (h : c.Shows d) (hclosed : c.types.Closed)
    (hinterface : d.isEnumeration = false) :
    ∃ own, c.types.get? d.ty = some own ∧ own.isAggregate ∧
      d.fields.map (·.name) = (c.shown own.members).map Member.shownName := by
  cases h with
  | @interface own ms bases ho hs ht hb =>
    have hms : own.members = ms := by simp [Description.members, hs]
    have hcontained : ∀ m ∈ ms, c.types.contains m.ty :=
      fun m hm => hclosed d.ty own ho m.ty (Description.ids_of_mem_members (hms ▸ hm))
    have hfields : d.fields = (c.shown ms).map (Field.ofMember c.types · d.name) := by
      rw [← fieldsOf_eq hcontained, Declaration.fields, hb]
    refine ⟨own, ho, Description.isAggregate_iff.mpr ⟨ms, hs⟩, ?_⟩
    rw [hfields, hms, List.map_map]
    rfl
  | enumeration ho hs ht hb => simp [Declaration.isEnumeration, hb] at hinterface

end Catalog

namespace Schema

/-- The interfaces of a valid schema show the members of their structs, which are all written with
different names, under the names they are given. Two properties of an interface have one name just
where a member shown is given the name that another one is shown by. -/
theorem properties_clash_by_renaming (sources : List Source) (settings : Settings)
    (roots : List Root) (hvalid : (ofSources sources).isValid)
    (hroots : ∀ root ∈ roots, root ∈ (ofSources sources).roots) :
    let c := (ofSources sources).catalog settings
    ∃ r, (ofSources sources).registryFor settings roots = .ok r ∧
      ∀ d ∈ r.declarations, d.isEnumeration = false →
        ∃ own, c.types.get? d.ty = some own ∧ own.isAggregate ∧
          (own.members.map (·.name)).Nodup ∧
          d.fields.map (·.name) = (c.shown own.members).map Member.shownName ∧
          ((d.fields.map (·.name)).Nodup ↔ ∀ m ∈ c.shown own.members, ∀ other ∈ c.shown own.members,
            m.rename = some other.shownName → m = other) := by
  intro c
  obtain ⟨r, hr, -, hwalks, hstarts⟩ := exists_walk hvalid settings hroots
  have hshows := hwalks.shows hstarts
  obtain ⟨hproper, -⟩ := ofSources_sound sources
  refine ⟨r, hr, ?_⟩
  intro d hd hinterface
  obtain ⟨own, ho, ha, hnames⟩ := (hshows d hd).exists_members hproper.closed hinterface
  have hwritten : (own.members.map (·.name)).Nodup :=
    nodup_members_load _ _ own (List.mem_of_getElem? ho)
  have hshown : ((c.shown own.members).map (·.name)).Nodup :=
    hwritten.sublist (List.filter_sublist.map _)
  refine ⟨own, ho, ha, hwritten, hnames, ?_⟩
  rw [hnames]
  exact Member.nodup_shownName_iff hshown

/-- A struct with a base, a member under another name, and one that is left out. -/
def profile : List Source :=
  [⟨.inline, "struct Base \x7b ID: int \x7d " ++
    "struct User \x7b ..Base Name: string @rename(\"ID\") Age: int Hash: string @skip \x7d"⟩]

theorem profile_shows_its_members :
    let c := (ofSources profile).catalog {}
    (ofSources profile).isValid ∧ ∃ r, (ofSources profile).registry {} = .ok r ∧
      ∃ d ∈ r.declarations, d.fields.map (·.name) = ["ID", "Age"] ∧
        ∃ own, c.types.get? d.ty = some own ∧ (own.members.map (·.name)).Nodup ∧
          (c.shown own.members).map Member.shownName = ["ID", "Age"] ∧
          ∀ m ∈ c.shown own.members, ∀ other ∈ c.shown own.members,
            m.rename = some other.shownName → m = other := by
  intro c
  have hshown : (ofSources profile).isValid ∧ ((ofSources profile).registry {}).toOption.any
      fun r => ∃ d ∈ r.declarations, d.isEnumeration = false ∧
        d.fields.map (·.name) = ["ID", "Age"] := by
    decide +kernel
  obtain ⟨hvalid, hshown⟩ := hshown
  obtain ⟨r, hr, hshown⟩ := Catalog.exists_eq_ok hshown
  obtain ⟨d, hd, hinterface, hfields⟩ := of_decide_eq_true hshown
  obtain ⟨r', hr', hclash⟩ := properties_clash_by_renaming profile {} (ofSources profile).roots
    hvalid fun _ hroot => hroot
  obtain rfl : r' = r := Except.ok.inj (hr'.symm.trans hr)
  obtain ⟨own, ho, -, hwritten, hnames, hiff⟩ := hclash d hd hinterface
  refine ⟨hvalid, r', hr, d, hd, hfields, own, ho, hwritten, hnames ▸ hfields, hiff.mp ?_⟩
  rw [hfields]
  decide

/-- A struct with a member that is given the name of its neighbour. -/
def clashing : List Source :=
  [⟨.inline, "struct S \x7b A: int @rename(\"B\") B: int \x7d"⟩]

/-- A member may be given the name of its neighbour, and the interface has two properties of one
name. -/
theorem neighbour_name_is_taken :
    (ofSources clashing).isValid ∧ ∃ r, (ofSources clashing).registry {} = .ok r ∧
      r.declarations.map (fun d => (d.isEnumeration, d.fields.map (·.name))) =
        [(false, ["B", "B"])] := by
  have hshown : (ofSources clashing).isValid ∧ ((ofSources clashing).registry {}).toOption.any
      fun r => r.declarations.map (fun d => (d.isEnumeration, d.fields.map (·.name))) =
        [(false, ["B", "B"])] := by
    decide +kernel
  obtain ⟨hvalid, hshown⟩ := hshown
  obtain ⟨r, hr, hshown⟩ := Catalog.exists_eq_ok hshown
  exact ⟨hvalid, r, hr, of_decide_eq_true hshown⟩

end Schema

end TypeGraph
