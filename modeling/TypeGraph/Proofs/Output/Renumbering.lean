import Mathlib.Data.List.Find
import TypeGraph.Proofs.Registry.Consistency
import TypeGraph.Proofs.Registry.Renumbering
/-!
The text of declarations does not show how types are numbered: views of counterparts resolve the
types of fields to the same references, so what is registered over two numberings of the same types
is written the same.
-/

namespace TypeGraph

variable {f : TypeId → TypeId} {matters : TypeId → Prop}

namespace View

/-- Views of counterparts: the declarations of one are those of the other up to ids. -/
structure Renumbering (f : TypeId → TypeId) (matters : TypeId → Prop) (v v' : View) : Prop where
  types : v.types.Renumbering f matters v'.types
  settings : v'.settings = v.settings
  declarations : v'.declarations = v.declarations.map (·.renumber f)
  known : ∀ d ∈ v.declarations, matters d.ty ∧ ∀ field ∈ d.fields, matters field.ty

namespace Renumbering

variable {v v' : View} {x : TypeId}

theorem customText (h : v.Renumbering f matters v') (hx : matters x) :
    v'.customText (f x) = v.customText x := by
  simp only [View.customText, h.types.qualifiedName hx, h.settings]

theorem lookup (h : v.Renumbering f matters v') (hx : matters x) :
    v'.lookup (f x) = (v.lookup x).map (·.renumber f) := by
  have hty : ∀ d ∈ v.declarations, ((d.renumber f).ty == f x) = (d.ty == x) := by
    intro d hd
    rw [Bool.eq_iff_iff, beq_iff_eq, beq_iff_eq]
    exact ⟨h.types.inj _ _ (h.known d hd).1 hx, congrArg f⟩
  simp only [View.lookup, h.declarations, List.find?_map]
  exact congrArg _ (List.find?_congr hty)

theorem declaresEnumeration (h : v.Renumbering f matters v') (hx : matters x) :
    v'.declaresEnumeration (f x) = v.declaresEnumeration x := by
  obtain ⟨hstrip, hs⟩ := h.types.strip hx
  simp only [View.declaresEnumeration, hstrip, h.lookup hs, Option.map_map]
  congr 2
  funext d
  cases hb : d.body <;>
    simp [Declaration.isEnumeration, Declaration.renumber, Body.renumber, hb]

theorem mapKey (h : v.Renumbering f matters v') (hx : matters x) (resolved : TypeRef) :
    v'.mapKey (f x) resolved = v.mapKey x resolved := by
  cases resolved <;> simp only [View.mapKey, h.declaresEnumeration hx]

/-- Counterparts are referred to in the same way. -/
theorem resolve (h : v.Renumbering f matters v') (hx : matters x) :
    v'.resolve (f x) = v.resolve x := by
  induction hn : x.index using Nat.strongRecOn generalizing x with
  | ind n ih =>
    obtain ⟨hstrip, hs⟩ := h.types.strip hx
    have hle := v.types.strip_index_le x
    have hle' := v'.types.strip_index_le (f x)
    rw [hstrip] at hle'
    rw [View.resolve, View.resolve.eq_def v x]
    simp only [hstrip, h.types.get? _ hs, h.customText hs, h.lookup hs]
    cases hd : v.types.get? (v.types.strip x) with
    | none => rfl
    | some d =>
      cases v.customText (v.types.strip x) with
      | some text => rfl
      | none =>
        cases v.lookup (v.types.strip x) with
        | some declaration => rfl
        | none =>
          have held {y : TypeId} (hy : y ∈ d.shape.held) : matters y ∧ y.index < x.index ∧
              (f y).index < (f x).index ∧ v'.resolve (f y) = v.resolve y := by
            obtain ⟨hm, hlt, hlt'⟩ := h.types.held hs hd hy
            have hlt := hlt.trans_le hle
            exact ⟨hm, hlt, hlt'.trans_le hle', ih y.index (hn ▸ hlt) hm rfl⟩
          cases hshape : d.shape with
          | pointer y => simp [hshape, Shape.renumber]
          | aggregate ms => simp [hshape, Shape.renumber]
          | scalar kind => simp [hshape, Shape.renumber]
          | sequence y =>
            obtain ⟨-, hlt, hlt', hy⟩ := held (y := y) (by simp [hshape, Shape.held])
            simp [hshape, Shape.renumber, hlt, hlt', hy]
          | map k w =>
            obtain ⟨hmk, hltk, hltk', hk⟩ := held (y := k) (by simp [hshape, Shape.held])
            obtain ⟨-, hltw, hltw', hw⟩ := held (y := w) (by simp [hshape, Shape.held])
            simp [hshape, Shape.renumber, hltk, hltk', hk, hltw, hltw', hw, h.mapKey hmk]

end Renumbering

end View

namespace Output.TypeScript

variable {v v' : View}

theorem property_renumber (h : v.Renumbering f matters v') {field : Field}
    (hf : matters field.ty) : property v' (field.renumber f) = property v field := by
  have hty : v'.resolve (field.renumber f).ty = v.resolve field.ty := h.resolve hf
  rw [property, hty]
  rfl

theorem declaration_renumber (h : v.Renumbering f matters v') (style : Style) {d : Declaration}
    (hd : ∀ field ∈ d.fields, matters field.ty) :
    declaration style v' (d.renumber f) = declaration style v d := by
  cases hb : d.body with
  | enumeration members => simp only [declaration, Declaration.renumber, Body.renumber, hb]
  | interface fields inherited =>
    have hfields : (fields.map (·.renumber f)).map (property v') = fields.map (property v) := by
      rw [List.map_map]
      apply List.map_congr_left
      intro field hfield
      exact property_renumber h (hd field (by simpa [Declaration.fields, hb] using hfield))
    simp only [declaration, Declaration.renumber, Body.renumber, hb, hfields]

/-- Counterparts are written the same. -/
theorem document_renumber (h : v.Renumbering f matters v') (style : Style) :
    document style v' = document style v := by
  have hdeclarations :
      v'.declarations.map (declaration style v') = v.declarations.map (declaration style v) := by
    rw [h.declarations, List.map_map]
    apply List.map_congr_left
    intro d hd
    exact declaration_renumber h style (h.known d hd).2
  simp only [document, hdeclarations, h.settings]

end Output.TypeScript

theorem Declaration.indented_renumber (outer inner : String) (d : Declaration) :
    (d.renumber f).indented outer inner = (d.indented outer inner).renumber f := by
  cases hb : d.body <;>
    simp [Declaration.indented, Declaration.renumber, Body.renumber, Field.renumber, hb]

namespace Registry

variable {writer : Assembler} {r r' : Registry}

/-- Registries that correspond are shown to assemblers as views that correspond. -/
theorem Renumbering.view_indented (h : r.Renumbering f matters writer r') (unit : String) :
    (r.indented unit).view.Renumbering f matters (r'.indented unit).view := by
  have hsettings : r'.settings = r.settings := h.catalog.settings
  refine ⟨h.types, hsettings, ?_, ?_⟩
  · simp only [Registry.view, Registry.declarations, Registry.indented, Findings.declared,
      List.map_filterMap, List.getElem?_map, h.alike.order, h.alike.begun, hsettings,
      Option.map_map]
    congr 1
    funext slot
    congr 1
    funext d
    exact Declaration.indented_renumber _ _ d
  · intro d hd
    obtain ⟨e, he, rfl⟩ := List.mem_map.mp (Findings.mem_begun_of_declared hd)
    obtain ⟨hty, hfields⟩ := h.alike.types e he
    refine ⟨hty, ?_⟩
    intro field hfield
    obtain ⟨field, hmem, rfl⟩ := Declaration.mem_fields_indented hfield
    exact hfields field hmem

/-- Registries that correspond are written the same. -/
theorem Renumbering.render (style : Output.TypeScript.Style)
    (h : r.Renumbering f matters (Output.TypeScript.assembler style) r') :
    ∃ text, r.render.1 = .ok text ∧ r'.render.1 = .ok text := by
  have htext := Output.TypeScript.document_renumber (h.view_indented style.unit) style
  refine ⟨Output.TypeScript.document style (r.indented style.unit).view, ?_, ?_⟩
  · rw [Registry.render, h.writes]
    rfl
  · rw [Registry.render, h.writes', ← htext]
    rfl

/-- Neither the outcome of registrations nor the text written for them depends on how types are
numbered, or on how the set of types was built. -/
theorem text_ignores_numbering {t t' : TypeSet} (f : TypeId → TypeId) (gs : List Registration)
    (hb : t.Backward) (hc : t.Closed) (hb' : t'.Backward) (hc' : t'.Closed)
    (hinj : ∀ x y, t.Reached (gs.map (·.id)) x → t.Reached (gs.map (·.id)) y → f x = f y → x = y)
    (hget : ∀ x, t.Reached (gs.map (·.id)) x → t'.get? (f x) = (t.get? x).map (·.renumber f))
    (settings : Settings) (style : Output.TypeScript.Style) :
    let assembler := Output.TypeScript.assembler style
    let all := performAll { types := t, settings, assembler } gs
    let all' := performAll { types := t', settings, assembler } (gs.map (·.renumber f))
    all'.1 = all.1.map (renumberAnswer f) ∧
      ∃ text, all.2.render.1 = .ok text ∧ all'.2.render.1 = .ok text := by
  intro assembler all all'
  have htypes : t.Renumbering f (t.Reached (gs.map (·.id))) t' :=
    ⟨hinj, hget, fun x d hx hd y hy => .held hx hd hy, hb, hb'⟩
  have hstart : Renumbering f (t.Reached (gs.map (·.id))) assembler
      { types := t, settings, assembler } { types := t', settings, assembler } :=
    ⟨.described htypes settings, hc, hc', rfl, rfl, .empty, .empty, .empty⟩
  obtain ⟨hanswers, hafter⟩ := hstart.performAll fun g hg => .root (List.mem_map_of_mem hg)
  exact ⟨hanswers, hafter.render style⟩

/-- The struct that holds a pointer to itself, declared after another one. -/
def relinked : TypeSet :=
  let (_, types) := TypeSet.initial.declareAggregate "" "Leaf"
  let (node, types) := types.declareAggregate "" "Node"
  let (next, types) := types.pointer node
  types.setMembers node [{ name := "Next", ty := next }]

/-- Leaves room for one more type after the plain scalars. -/
def behindLeaf (id : TypeId) : TypeId :=
  if id.index < 7 then id else ⟨id.index + 1⟩

theorem relinked_is_written_alike :
    let assembler := Output.TypeScript.assembler {}
    let gs : List Registration := [.addType ⟨8⟩ none, .addEnumeration ⟨2⟩ none none]
    let all := performAll { types := linked, settings := {}, assembler } gs
    let all' := performAll { types := relinked, settings := {}, assembler }
      (gs.map (·.renumber behindLeaf))
    all'.1 = all.1.map (renumberAnswer behindLeaf) ∧
      ∃ text, all.2.render.1 = .ok text ∧ all'.2.render.1 = .ok text := by
  intro assembler gs
  have hclosed : linked.Closed := by decide +kernel
  have hroots : ∀ y ∈ gs.map (·.id), linked.contains y := by decide +kernel
  have hsame : ∀ i : Fin 9, relinked.get? (behindLeaf ⟨i⟩) =
      (linked.get? ⟨i⟩).map (·.renumber behindLeaf) := by decide +kernel
  refine text_ignores_numbering behindLeaf gs (by decide +kernel) hclosed (by decide +kernel)
    (by decide +kernel) ?_ ?_ {} {}
  · intro x y _ _ h
    obtain ⟨i⟩ := x
    obtain ⟨j⟩ := y
    simp only [behindLeaf] at h
    split at h <;> split at h <;> simp_all <;> omega
  · intro x hx
    exact hsame ⟨x.index, TypeSet.contains_iff.mp (hx.contains hclosed hroots)⟩

end Registry

end TypeGraph
