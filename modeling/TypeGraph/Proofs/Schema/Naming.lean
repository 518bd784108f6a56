import TypeGraph.Proofs.Output.Agreement
import TypeGraph.Proofs.Schema.Usable
/-!
The names of declarations. A type with a name is declared under it, together with its package; a
struct without one goes by the name that a member gives it. Nothing keeps names apart, so the types
of two packages may share one, and so may a struct without a name of its own and any other type;
those are all the ways.
-/

namespace TypeGraph

/-- All types that were begun, with the names they go by. -/
def Findings.titles (found : Findings) : List (TypeId × String) :=
  found.begun.map fun d => (d.ty, d.name)

@[simp] theorem Findings.titles_fill (found : Findings) (slot : Slot) (body : Body) :
    (found.fill slot body).titles = found.titles :=
  map_begun_fill (fun _ _ => rfl) found slot body

namespace Catalog

variable {c : Catalog} {starts : Starts} {w w' : Walk} {found : Findings} {id : TypeId}
variable {titles titles' : List (TypeId × String)} {name : String}

/-- A type goes by its own name, or it is a struct without one, named by a member that uses it. -/
inductive GoesBy (c : Catalog) (titles : List (TypeId × String)) (id : TypeId) (name : String) :
    Prop
  | own {own : Description} (ho : c.types.get? id = some own) (hn : own.name = some name) :
      GoesBy c titles id name
  | member {own : Description} {owner : TypeId} {enclosing : String} {m : Member}
      (ho : c.types.get? id = some own) (hn : own.name = none) (ha : own.isAggregate)
      (ht : (owner, enclosing) ∈ titles) (hu : c.Uses owner m id)
      (hname : name = (Field.ofMember c.types m enclosing).contextualName) :
      GoesBy c titles id name

theorem GoesBy.mono (h : c.GoesBy titles id name) (hsub : titles ⊆ titles') :
    c.GoesBy titles' id name := by
  cases h with
  | own ho hn => exact .own ho hn
  | member ho hn ha ht hu hname => exact .member ho hn ha (hsub ht) hu hname

/-- Walks begin with enumerations that have names. -/
def NamedStarts (starts : Starts) : Prop :=
  ∀ id name? package?, starts.enumeration id name? package? → name?.isSome

theorem Meets.goesBy (hstarts : c.OwnStarts starts) (h : c.Meets starts w id name) :
    c.GoesBy w.found.titles id name := by
  cases h with
  | start h =>
    obtain ⟨own, ho, -, hn⟩ := hstarts.aggregate _ _ h
    exact .own ho hn
  | @member top opened found d m id own hd hu ho ha =>
    cases hn : own.name with
    | some n => exact .own ho (by rw [hn, Option.getD_some])
    | none =>
      have ht : (d.ty, d.name) ∈ found.titles :=
        List.mem_map_of_mem (List.mem_of_getElem? hd)
      exact .member ho hn ha ht hu (by rw [Option.getD_none])

theorem MeetsEnumeration.titled {name? package? : Option String} (hstarts : c.OwnStarts starts)
    (hnamed : NamedStarts starts) (h : c.MeetsEnumeration starts w id name? package?) :
    ∃ own name, c.types.get? id = some own ∧ own.name = some name ∧
      own.Titles (c.enumeration id name? package?) := by
  have hown : ∃ own name, c.types.get? id = some own ∧ own.name = some name := by
    cases h with
    | start hstart =>
      obtain ⟨-, own, kind, ho, -, hn⟩ := hstarts.enumeration _ _ _ hstart
      obtain ⟨name, hname⟩ := Option.isSome_iff_exists.mp (hnamed _ _ _ hstart)
      exact ⟨own, name, ho, hn.trans hname⟩
    | member _ _ ho hn =>
      obtain ⟨name, hname⟩ := Option.isSome_iff_exists.mp hn
      exact ⟨_, name, ho, hname⟩
  obtain ⟨own, name, ho, hn⟩ := hown
  obtain ⟨rfl, own', -, ho', -, hgiven⟩ := h.named hstarts
  obtain rfl : own = own' := Option.some.inj (ho.symm.trans ho')
  exact ⟨own, name, ho, hn, titles_enumeration ho hgiven⟩

theorem MeetsEnumeration.goesBy {name? package? : Option String} (hstarts : c.OwnStarts starts)
    (hnamed : NamedStarts starts) (h : c.MeetsEnumeration starts w id name? package?) :
    c.GoesBy titles id (c.enumeration id name? package?).name := by
  obtain ⟨own, name, ho, hn, htitles⟩ := h.titled hstarts hnamed
  obtain ⟨htitle, -⟩ := htitles name hn
  exact .own ho (htitle ▸ hn)

theorem Step.goesBy (hstarts : c.OwnStarts starts) (hnamed : NamedStarts starts)
    (h : c.Step starts w w') (hw : ∀ t ∈ w.found.titles, c.GoesBy w.found.titles t.1 t.2) :
    ∀ t ∈ w'.found.titles, c.GoesBy w'.found.titles t.1 t.2 := by
  have hentered {d : Declaration} (hd : c.GoesBy w.found.titles d.ty d.name) :
      ∀ t ∈ (w.found.enter d).titles, c.GoesBy (w.found.enter d).titles t.1 t.2 := by
    have htitles : (w.found.enter d).titles = w.found.titles ++ [(d.ty, d.name)] := by
      simp [Findings.titles]
    have hsub : w.found.titles ⊆ (w.found.enter d).titles :=
      htitles ▸ List.subset_append_left _ _
    intro t ht
    rcases List.mem_append.mp (htitles ▸ ht) with ht | ht
    · exact (hw t ht).mono hsub
    · obtain rfl := List.mem_singleton.mp ht
      exact hd.mono hsub
  cases h with
  | note e => exact hw
  | enter hf hc hm => exact hentered (hm.goesBy hstarts)
  | enumerate hf hc hm => exact hentered (hm.goesBy hstarts hnamed)
  | @finish top opened d own ht hd ho hs =>
    have htitles (body : Body) : ((w.found.fill top body).finish top).titles = w.found.titles :=
      w.found.titles_fill top body
    simp only [htitles]
    exact hw

/-- Different types that may be declared under one name: types of that name from different packages,
or a struct without a name and any other type. -/
inductive Namesakes (c : Catalog) (x y : TypeId) : Prop
  | packages {own own' : Description} (ho : c.types.get? x = some own)
      (ho' : c.types.get? y = some own') (hn : own.name.isSome) (hsame : own'.name = own.name)
      (hp : own'.package ≠ own.package) : Namesakes c x y
  | unnamed {own : Description} (ho : c.types.get? x = some own ∨ c.types.get? y = some own)
      (hn : own.name = none) (ha : own.isAggregate) : Namesakes c x y

/-- Types that go by one name are the same or namesakes, as long as a package does not name two
types alike. -/
theorem GoesBy.namesakes {x y : TypeId} (hkeys : c.types.keys.Nodup)
    (hx : c.GoesBy titles x name) (hy : c.GoesBy titles' y name) : x = y ∨ c.Namesakes x y := by
  cases hx with
  | member ho hn ha => exact .inr (.unnamed (.inl ho) hn ha)
  | @own own ho hn =>
    cases hy with
    | member ho' hn' ha' => exact .inr (.unnamed (.inr ho') hn' ha')
    | @own own' ho' hn' =>
      by_cases hp : own'.package = own.package
      · have hkey : c.types.key? x = some (own.package, name) := by
          simp [TypeSet.key?, ho, Description.key?, hn]
        have hkey' : c.types.key? y = some (own.package, name) := by
          simp [TypeSet.key?, ho', Description.key?, hn', hp]
        exact .inl (TypeSet.id_unique hkeys hkey hkey')
      · exact .inr (.packages ho ho' (by simp [hn]) (hn'.trans hn.symm) hp)

end Catalog

namespace Schema

variable {roots : List Root} {c : Catalog}

theorem namedStarts_startsOf (h : ∀ root ∈ roots, root.Typed c.types) :
    Catalog.NamedStarts (startsOf c roots) := by
  intro id name? package? hstart
  obtain ⟨root, hroot, rfl, -, -, hname, -⟩ := hstart
  obtain ⟨own, ho, hn, -⟩ := h root hroot
  rw [← hname, ho]
  exact hn

/-- The types that are declared, with their names. -/
def titlesOf (r : Registry) : List (TypeId × String) :=
  r.declarations.map fun d => (d.ty, d.name)

/-- The types that a whole walk has declared go by the names it gave them. -/
theorem goesBy_of_walks {starts : Starts} {r : Registry} (hkept : c.Kept ⟨[], r.findings⟩)
    (hwalks : c.Walks starts [] {} r.findings) (hstarts : c.OwnStarts starts)
    (hnamed : Catalog.NamedStarts starts) :
    ∀ d ∈ r.declarations, c.GoesBy (titlesOf r) d.ty d.name := by
  have hbegun : ∀ t ∈ r.findings.titles, c.GoesBy r.findings.titles t.1 t.2 :=
    Catalog.kept_of_run (P := fun w => ∀ t ∈ w.found.titles, c.GoesBy w.found.titles t.1 t.2)
      (fun _ _ hs hw => hs.goesBy hstarts hnamed hw) hwalks.run (by simp [Findings.titles])
  have hlisted : r.findings.titles ⊆ titlesOf r := by
    intro t ht
    obtain ⟨d, hd, rfl⟩ := List.mem_map.mp ht
    exact List.mem_map_of_mem (Catalog.mem_declared_of_begun hkept hd)
  intro d hd
  have ht : (d.ty, d.name) ∈ r.findings.titles :=
    List.mem_map_of_mem (Findings.mem_begun_of_declared hd)
  exact (hbegun _ ht).mono hlisted

/-- In a registry of a valid schema every declared type goes by its own name, or it is a struct
without one, named by a member of a declared struct. No type is declared twice, and types that are
declared under one name, or referred to by one, are the same or namesakes. -/
theorem declared_names (sources : List Source) (settings : Settings)
    (hvalid : (ofSources sources).isValid) :
    let c := (ofSources sources).catalog settings
    ∃ r, (ofSources sources).registry settings = .ok r ∧
      (r.declarations.map (·.ty)).Nodup ∧
      (∀ d ∈ r.declarations, c.GoesBy (titlesOf r) d.ty d.name ∧
        ∃ own, c.types.get? d.ty = some own ∧ own.Titles d) ∧
      (∀ d ∈ r.declarations, ∀ e ∈ r.declarations, d.name = e.name →
        d = e ∨ c.Namesakes d.ty e.ty) ∧
      ∀ x y name, c.types.contains x → c.types.contains y →
        r.view.resolve x = .declared name → r.view.resolve y = .declared name →
          c.types.strip x = c.types.strip y ∨ c.Namesakes (c.types.strip x) (c.types.strip y) := by
  intro c
  obtain ⟨hwf, hwhole⟩ := wellFormed_of_isValid hvalid
  have hkeys : c.types.keys.Nodup := (faithful_load hwf hwhole _).nodup
  obtain ⟨hproper, htyped⟩ := ofSources_sound sources
  obtain ⟨r, hr, hcovers, hwalks, hstarts⟩ := exists_walk hvalid settings fun _ hroot => hroot
  have hgoes : ∀ d ∈ r.declarations, c.GoesBy (titlesOf r) d.ty d.name :=
    goesBy_of_walks hcovers.kept hwalks hstarts (namedStarts_startsOf htyped)
  have hnodup : (r.declarations.map (·.ty)).Nodup := by
    have htrail : (Walk.mk [] r.findings).trail.listed = r.declarations.map (·.ty) :=
      Findings.types_order _
    rw [← htrail]
    exact (List.nodup_append.mp hcovers.kept.postOrdered.nodup).2.1
  have hlookup {x : TypeId} {name : String} (hin : c.types.contains x)
      (hx : r.view.resolve x = .declared name) :
      ∃ d ∈ r.declarations, d.ty = c.types.strip x ∧ d.name = name := by
    have hview : r.view = r.catalog.view r.declarations := rfl
    rw [hcovers.catalog] at hview
    have hresolves : (c.view r.declarations).ResolvesTo x (.declared name) := by
      rw [← hx, hview]
      exact View.resolvesTo_resolve (v := c.view r.declarations) hproper.backward hin
    obtain ⟨d, hl, hname⟩ := hresolves.lookup hproper.backward
    obtain ⟨hd, hty⟩ := View.lookup_eq_some hl
    exact ⟨d, hd, hty, hname⟩
  refine ⟨r, hr, hnodup, ?_, ?_, ?_⟩
  · intro d hd
    refine ⟨hgoes d hd, ?_⟩
    cases hwalks.shows hstarts d hd with
    | interface ho _ ht | enumeration ho _ ht => exact ⟨_, ho, ht⟩
  · intro d hd e he hname
    have hsame := (hgoes d hd).namesakes hkeys (hname ▸ hgoes e he)
    exact hsame.imp_left fun hty => List.inj_on_of_nodup_map hnodup hd he hty
  · intro x y name hx hy hxname hyname
    obtain ⟨d, hd, hdx, rfl⟩ := hlookup hx hxname
    obtain ⟨e, he, hey, hname⟩ := hlookup hy hyname
    rw [← hdx, ← hey]
    exact (hgoes d hd).namesakes hkeys (hname ▸ hgoes e he)

/-- Two packages with a type of the same name, and a struct that refers to both. -/
def twins : List Source :=
  [⟨.inline, "package a struct User \x7b Name: string \x7d"⟩,
    ⟨.inline, "package b struct User \x7b \x7d struct Pair \x7b Left: a.User Right: User \x7d"⟩]

theorem registry_twins :
    (ofSources twins).isValid ∧ ∃ r, (ofSources twins).registry {} = .ok r ∧
      titlesOf r = [(⟨7⟩, "User"), (⟨8⟩, "User"), (⟨9⟩, "Pair")] ∧
      r.declarations.flatMap (·.fields.map (·.ty)) = [⟨4⟩, ⟨7⟩, ⟨8⟩] ∧
      r.view.resolve ⟨7⟩ = .declared "User" ∧ r.view.resolve ⟨8⟩ = .declared "User" ∧
      r.types.strip ⟨7⟩ ≠ r.types.strip ⟨8⟩ := by
  have hshown : (ofSources twins).isValid ∧ ((ofSources twins).registry {}).toOption.any fun r =>
      titlesOf r = [(⟨7⟩, "User"), (⟨8⟩, "User"), (⟨9⟩, "Pair")] ∧
      r.declarations.flatMap (·.fields.map (·.ty)) = [⟨4⟩, ⟨7⟩, ⟨8⟩] ∧
      r.view.resolve ⟨7⟩ = .declared "User" ∧ r.view.resolve ⟨8⟩ = .declared "User" ∧
      r.types.strip ⟨7⟩ ≠ r.types.strip ⟨8⟩ := by
    decide +kernel
  obtain ⟨hvalid, hshown⟩ := hshown
  obtain ⟨r, hr, hshown⟩ := Catalog.exists_eq_ok hshown
  exact ⟨hvalid, r, hr, of_decide_eq_true hshown⟩

theorem twins_are_namesakes :
    (ofSources twins).isValid ∧ ∃ r, (ofSources twins).registry {} = .ok r ∧
      ∃ d ∈ r.declarations, ∃ e ∈ r.declarations, d.ty = ⟨7⟩ ∧ e.ty = ⟨8⟩ ∧
        ((ofSources twins).catalog {}).Namesakes d.ty e.ty := by
  obtain ⟨hvalid, r, hr, htitles, -⟩ := registry_twins
  obtain ⟨r', hr', -, -, hnames, -⟩ := declared_names twins {} hvalid
  obtain rfl : r' = r := Except.ok.inj (hr'.symm.trans hr)
  have hfirst : (⟨7⟩, "User") ∈ titlesOf r' := by simp [htitles]
  have hsecond : (⟨8⟩, "User") ∈ titlesOf r' := by simp [htitles]
  obtain ⟨d, hd, hdt⟩ := List.mem_map.mp hfirst
  obtain ⟨e, he, het⟩ := List.mem_map.mp hsecond
  obtain ⟨hdty, hdname⟩ := Prod.mk.inj hdt
  obtain ⟨hety, hename⟩ := Prod.mk.inj het
  refine ⟨hvalid, r', hr, d, hd, e, he, hdty, hety, ?_⟩
  rcases hnames d hd e he (hdname.trans hename.symm) with rfl | hnamesakes
  · simp [hdty] at hety
  · exact hnamesakes

/-- A struct without a name that is declared under the name of another one. -/
def overshadowed : List Source :=
  [⟨.inline, "struct MetaUser \x7b \x7d struct User \x7b Meta: struct \x7b B: int \x7d \x7d"⟩]

/-- Names do not tell declarations apart, and references by one name lead to different types. -/
theorem names_are_shared :
    (ofSources twins).isValid ∧ (ofSources overshadowed).isValid ∧
      (∃ r, (ofSources twins).registry {} = .ok r ∧
        r.declarations.map (·.name) = ["User", "User", "Pair"] ∧
        r.declarations.flatMap (·.fields.map (·.ty)) = [⟨4⟩, ⟨7⟩, ⟨8⟩] ∧
        r.view.resolve ⟨7⟩ = .declared "User" ∧ r.view.resolve ⟨8⟩ = .declared "User" ∧
        r.types.strip ⟨7⟩ ≠ r.types.strip ⟨8⟩) ∧
      ∃ r, (ofSources overshadowed).registry {} = .ok r ∧
        r.declarations.map (·.name) = ["MetaUser", "MetaUser", "User"] := by
  have hovershadowed : (ofSources overshadowed).isValid ∧
      ((ofSources overshadowed).registry {}).toOption.any fun r =>
        r.declarations.map (·.name) = ["MetaUser", "MetaUser", "User"] := by
    decide +kernel
  obtain ⟨hvalid', hovershadowed⟩ := hovershadowed
  obtain ⟨hvalid, r, hr, htitles, hrest⟩ := registry_twins
  obtain ⟨r', hr', hovershadowed⟩ := Catalog.exists_eq_ok hovershadowed
  have hnames : r.declarations.map (·.name) = ["User", "User", "Pair"] := by
    have hsecond : r.declarations.map (·.name) = (titlesOf r).map (·.2) := by
      simp [titlesOf]
    rw [hsecond, htitles]
    rfl
  exact ⟨hvalid, hvalid', ⟨r, hr, hnames, hrest⟩, r', hr', of_decide_eq_true hovershadowed⟩

end Schema

end TypeGraph
