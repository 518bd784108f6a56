import TypeGraph.Output.TypeScript
/-!
The operands of `[]`. The text of a sequence stands in the text of every type that it is part of,
unless it is in the key of a map. Custom text before `[]` is in parentheses wherever a sign of
unions or intersections or a blank tells that it may be made of parts.
-/

namespace TypeGraph.Output.TypeScript

/-- One step down into a type: into the elements of a sequence, or into the value or the key of a
map. -/
inductive Frame where
  | element
  | value (key : TypeRef)
  | key (value : TypeRef)

/-- The type that has `ref` at a place, which is told by the way down to it. -/
def plug : List Frame → TypeRef → TypeRef
  | [], ref => ref
  | .element :: frames, ref => .sequence (plug frames ref)
  | .value key :: frames, ref => .map key (plug frames ref)
  | .key value :: frames, ref => .map (plug frames ref) value

/-- The place is in the key of a map. -/
def InKey (frames : List Frame) : Prop :=
  ∃ value, .key value ∈ frames

/-- Texts that stand in other texts, always with the same before them and behind them. -/
def Inside (inner outer : TypeRef → String) : Prop :=
  ∃ before after, ∀ ref, outer ref = before ++ inner ref ++ after

section Places

variable {inner middle outer : TypeRef → String} {frames : List Frame} {text : String}

theorem Inside.trans (h : Inside inner middle) (h' : Inside middle outer) : Inside inner outer := by
  obtain ⟨before, after, h⟩ := h
  obtain ⟨before', after', h'⟩ := h'
  exact ⟨before' ++ before, after ++ after', fun ref => by simp only [h', h, String.append_assoc]⟩

theorem inside_mapText (key : TypeRef) (inner : TypeRef → String) :
    Inside inner fun ref => mapText key (inner ref) := by
  have hindexed (word : String) : Inside inner fun ref => indexed word (inner ref) :=
    ⟨"\x7b [key: " ++ word ++ "]: ", " \x7d", fun _ => rfl⟩
  cases key with
  | declared name => exact ⟨"Record<" ++ name ++ ", ", ">", fun _ => rfl⟩
  | scalar kind => cases kind <;> exact hindexed _
  | verbatim _ | sequence _ | map _ _ => exact hindexed "string"

/-- Only the outermost layer of a type decides whether it is enclosed. -/
theorem needsParens_plug (frames : List Frame) (element element' : TypeRef) :
    needsParens (plug frames (.sequence element)) =
      needsParens (plug frames (.sequence element')) := by
  rcases frames with _ | ⟨_ | key | value, frames⟩
  · rfl
  · rfl
  · cases key <;> rfl
  · rcases frames with _ | ⟨_ | _ | _, frames⟩ <;> rfl

/-- What is written of a key that is no declaration does not depend on its parts. -/
theorem mapText_plug (frames : List Frame) (element element' : TypeRef) (text : String) :
    mapText (plug frames (.sequence element)) text =
      mapText (plug frames (.sequence element')) text := by
  rcases frames with _ | ⟨_ | _ | _, frames⟩ <;> rfl

theorem inside_operand (frames : List Frame) :
    Inside (fun element => typeText (plug frames (.sequence element)))
      fun element => operand (plug frames (.sequence element)) := by
  cases hneeds : needsParens (plug frames (.sequence default)) with
  | true =>
    refine ⟨"(", ")", fun element => ?_⟩
    simp only [operand, needsParens_plug frames element default, hneeds, if_true]
  | false =>
    refine ⟨"", "", fun element => ?_⟩
    simp [operand, needsParens_plug frames element default, hneeds]

/-- Outside of keys, what stands around the text of a sequence does not depend on its elements. -/
theorem inside_plug (h : ¬InKey frames) :
    Inside (fun element => operand element ++ "[]")
      fun element => typeText (plug frames (.sequence element)) := by
  induction frames with
  | nil => exact ⟨"", "", fun element => by simp [plug, typeText_sequence]⟩
  | cons frame frames ih =>
    have hinner := ih fun hkey => h (hkey.imp fun _ hm => List.mem_cons_of_mem _ hm)
    cases frame with
    | element =>
      have hsuffix : Inside (fun element => operand (plug frames (.sequence element)))
          fun element => typeText (.sequence (plug frames (.sequence element))) :=
        ⟨"", "[]", fun element => by simp only [typeText_sequence, String.empty_append]⟩
      exact (hinner.trans (inside_operand frames)).trans hsuffix
    | value key => exact hinner.trans (inside_mapText key _)
    | key value => exact absurd ⟨value, List.mem_cons_self⟩ h

/-- In a key nothing is written of a sequence. -/
theorem typeText_of_inKey (h : InKey frames) (element element' : TypeRef) :
    typeText (plug frames (.sequence element)) = typeText (plug frames (.sequence element')) := by
  obtain ⟨value, hvalue⟩ := h
  induction frames with
  | nil => cases hvalue
  | cons frame frames ih =>
    cases frame with
    | element =>
      have hinner := ih (by simpa using hvalue)
      rw [plug, plug, typeText_sequence, typeText_sequence, operand, operand, hinner,
        needsParens_plug frames element element']
    | value key =>
      have hinner := ih (by simpa using hvalue)
      rw [plug, plug, typeText, typeText, hinner]
    | key value => exact mapText_plug frames element element' _

end Places

/-- Custom text is enclosed if and only if it has a sign of unions or intersections or a blank. -/
theorem operand_verbatim (text : String) : operand (.verbatim text) = "(" ++ text ++ ")" ↔
    '|' ∈ text.toList ∨ '&' ∈ text.toList ∨ ∃ c ∈ text.toList, Text.isBlank c := by
  have hneeds : needsParens (.verbatim text) ↔
      '|' ∈ text.toList ∨ '&' ∈ text.toList ∨ ∃ c ∈ text.toList, Text.isBlank c := by
    simp [needsParens, or_assoc, and_or_left, exists_or]
  rw [← hneeds, operand]
  split
  · next h => exact iff_of_true rfl h
  · next h =>
    refine iff_of_false (fun heq => ?_) h
    have hlength := congrArg (·.toList.length) heq
    simp [typeText] at hlength
    omega

/-- Wherever a sequence of custom text stands, outside of keys, its text is that of the operand and
`[]` behind it, and the operand is the custom text in parentheses if and only if that has a sign of
unions or intersections, or a blank. A function type is enclosed if there is one in it. In a key
neither is written. -/
theorem custom_text_is_enclosed (frames : List Frame) (text : String) :
    (¬InKey frames → ∃ before after, ∀ element,
      typeText (plug frames (.sequence element)) = before ++ (operand element ++ "[]") ++ after) ∧
    (InKey frames → ∀ element element',
      typeText (plug frames (.sequence element)) = typeText (plug frames (.sequence element'))) ∧
    (operand (.verbatim text) = "(" ++ text ++ ")" ↔
      '|' ∈ text.toList ∨ '&' ∈ text.toList ∨ ∃ c ∈ text.toList, Text.isBlank c) :=
  ⟨inside_plug, typeText_of_inKey, operand_verbatim text⟩

theorem spaced_function_is_enclosed :
    let frames := [Frame.value (.scalar .string), .element]
    typeText (plug frames (.sequence (.verbatim "() => void"))) =
        "\x7b [key: string]: (() => void)[][] \x7d" ∧
      ¬InKey frames ∧ (∃ before after, ∀ element,
        typeText (plug frames (.sequence element)) = before ++ (operand element ++ "[]") ++ after) ∧
      operand (.verbatim "() => void") = "(" ++ "() => void" ++ ")" := by
  intro frames
  have hplace : ¬InKey frames := by simp [frames, InKey]
  obtain ⟨hinside, -, henclosed⟩ := custom_text_is_enclosed frames "() => void"
  exact ⟨by decide, hplace, hinside hplace, henclosed.mpr (.inr (.inr ⟨' ', by decide, by decide⟩))⟩

/-- A function type that is written without blanks is not enclosed: `[]` binds to what it
returns. -/
theorem tight_function_is_not_enclosed :
    ['=', '>'] <:+: "()=>void".toList ∧
      typeText (.sequence (.verbatim "()=>void")) = "()=>void[]" :=
  ⟨⟨['(', ')'], "void".toList, rfl⟩, by decide +kernel⟩

end TypeGraph.Output.TypeScript
