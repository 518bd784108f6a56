import TypeGraph.Proofs.Registry.Skipping
/-!
Skipped members leave no trace in the output: the types of fields resolve to the same references
without them, and what is registered is written as the same text.
-/

namespace TypeGraph

namespace View

def withoutSkipped (v : View) : View :=
  { v with types := v.types.withoutSkipped }

variable {v : View}

@[simp] theorem customText_withoutSkipped (v : View) (id : TypeId) :
    v.withoutSkipped.customText id = v.customText id := by
  simp [customText, withoutSkipped]

@[simp] theorem lookup_withoutSkipped (v : View) (id : TypeId) :
    v.withoutSkipped.lookup id = v.lookup id :=
  rfl

theorem declaresEnumeration_withoutSkipped (v : View) (id : TypeId) :
    v.withoutSkipped.declaresEnumeration id = v.declaresEnumeration id := by
  have hstrip : v.withoutSkipped.types.strip id = v.types.strip id :=
    TypeSet.strip_withoutSkipped _ _
  simp only [declaresEnumeration, hstrip, lookup_withoutSkipped]

theorem mapKey_withoutSkipped (v : View) (id : TypeId) (resolved : TypeRef) :
    v.withoutSkipped.mapKey id resolved = v.mapKey id resolved := by
  cases resolved <;> simp only [mapKey, declaresEnumeration_withoutSkipped]

/-- Types are referred to as before. -/
theorem resolve_withoutSkipped (v : View) (id : TypeId) :
    v.withoutSkipped.resolve id = v.resolve id := by
  induction hn : id.index using Nat.strongRecOn generalizing id with
  | ind n ih =>
    have hstrip : v.withoutSkipped.types.strip id = v.types.strip id :=
      TypeSet.strip_withoutSkipped _ _
    have hget : v.withoutSkipped.types.get? (v.types.strip id) =
        (v.types.get? (v.types.strip id)).map (·.withoutSkipped) :=
      TypeSet.get?_withoutSkipped _ _
    rw [resolve, resolve.eq_def v id]
    simp only [hstrip, hget, customText_withoutSkipped, lookup_withoutSkipped,
      mapKey_withoutSkipped]
    cases v.types.get? (v.types.strip id) with
    | none => rfl
    | some d =>
      cases v.customText (v.types.strip id) with
      | some text => rfl
      | none =>
        cases v.lookup (v.types.strip id) with
        | some declaration => rfl
        | none =>
          cases hs : d.shape with
          | pointer | aggregate | scalar =>
            simp [Description.withoutSkipped, Shape.withoutSkipped, hs]
          | sequence element =>
            simp only [Option.map_some, Description.withoutSkipped, Shape.withoutSkipped, hs]
            split
            · next hlt => rw [ih element.index (hn ▸ hlt) element rfl]
            · rfl
          | map key value =>
            simp only [Option.map_some, Description.withoutSkipped, Shape.withoutSkipped, hs]
            split
            · next hlt =>
              rw [ih key.index (hn ▸ hlt.1) key rfl, ih value.index (hn ▸ hlt.2) value rfl]
            · rfl

end View

namespace Output.TypeScript

variable {v : View}

theorem declaration_withoutSkipped (style : Style) (v : View) :
    declaration style v.withoutSkipped = declaration style v := by
  have hproperty : property v.withoutSkipped = property v := by
    funext field
    simp only [property, View.resolve_withoutSkipped]
  funext d
  simp only [declaration, hproperty]

theorem document_withoutSkipped (style : Style) (v : View) :
    document style v.withoutSkipped = document style v := by
  have hsettings : v.withoutSkipped.settings = v.settings := rfl
  have hdeclarations : v.withoutSkipped.declarations = v.declarations := rfl
  simp only [document, declaration_withoutSkipped, hsettings, hdeclarations]

end Output.TypeScript

namespace Registry

/-- Deleting the skipped members of every struct changes neither the outcome of registrations nor
the text written for them. -/
theorem skipped_members_leave_no_trace (types : TypeSet) (settings : Settings)
    (style : Output.TypeScript.Style) (gs : List Registration) :
    let assembler := Output.TypeScript.assembler style
    let all := performAll { types, settings, assembler } gs
    let all' := performAll { types := types.withoutSkipped, settings, assembler } gs
    all'.1 = all.1 ∧ ∃ text, all.2.render.1 = .ok text ∧ all'.2.render.1 = .ok text := by
  intro assembler all all'
  let r : Registry := { types, settings, assembler }
  have hall : all' = (all.1, all.2.withoutSkipped) :=
    performAll_withoutSkipped (r := r) Annex.blind_described gs
  have hassembler : all.2.assembler = assembler := by
    show (r.performAll gs).2.assembler = assembler
    rw [performAll_same]
  let v : View := (all.2.indented style.unit).view
  have htext : Output.TypeScript.document style v.withoutSkipped =
      Output.TypeScript.document style v := Output.TypeScript.document_withoutSkipped style v
  rw [hall]
  refine ⟨rfl, Output.TypeScript.document style v, ?_, ?_⟩
  · rw [render, hassembler]
    rfl
  · have hassembler' : all.2.withoutSkipped.assembler = assembler := hassembler
    rw [render, hassembler', ← htext]
    rfl

end Registry

end TypeGraph
