import Mathlib.Data.List.Basic
import TypeGraph.Output.TypeScript
/-!
The text of a type can be read in one way only. Types whose texts agree differ in nothing that
TypeScript tells apart, and `[]` takes all of the text of the element before it.
-/

namespace TypeGraph.Output.TypeScript

/-- A name that a declaration can go by without being taken for one of the words of types. -/
def IsTypeName (name : String) : Prop :=
  isIdentifier name ∧ name ∉ ["boolean", "number", "string", "any", "Record"]

/-- References without text of the user, whose declarations go by names. -/
def Plain : TypeRef → Prop
  | .declared name => IsTypeName name
  | .verbatim _ => False
  | .scalar _ => True
  | .sequence element => Plain element
  | .map key value => Plain key ∧ Plain value

/-- The key of a map as it is written, where `int` stands for all numbers. -/
def normalKey : TypeRef → TypeRef
  | .declared name => .declared name
  | .scalar kind => if kind.isNumeric then .scalar .int else .scalar .string
  | _ => .scalar .string

/-- The kind that stands for all kinds which are written the same: `int` for `number`. -/
def normalKind : Scalar → Scalar
  | .bool => .bool
  | .int | .uint | .float => .int
  | .string | .time => .string
  | .any => .any

/-- What of a reference is written. -/
def normal : TypeRef → TypeRef
  | .sequence element => .sequence (normal element)
  | .map key value => .map (normalKey key) (normal value)
  | .scalar kind => .scalar (normalKind kind)
  | ref => ref

/-- The types that a text of TypeScript spells. All texts here are operands of `[]`: it makes an
array of the whole text before it. -/
inductive Spells : TypeRef → String → Prop
  | boolean : Spells (.scalar .bool) "boolean"
  | number : Spells (.scalar .int) "number"
  | string : Spells (.scalar .string) "string"
  | any : Spells (.scalar .any) "any"
  | name {name : String} (h : IsTypeName name) : Spells (.declared name) name
  | record {name text : String} {value : TypeRef} (h : IsTypeName name) (hv : Spells value text) :
      Spells (.map (.declared name) value) ("Record<" ++ name ++ ", " ++ text ++ ">")
  | numbered {text : String} {value : TypeRef} (hv : Spells value text) :
      Spells (.map (.scalar .int) value) ("\x7b [key: number]: " ++ text ++ " \x7d")
  | keyed {text : String} {value : TypeRef} (hv : Spells value text) :
      Spells (.map (.scalar .string) value) ("\x7b [key: string]: " ++ text ++ " \x7d")
  | group {text : String} {ref : TypeRef} (h : Spells ref text) : Spells ref ("(" ++ text ++ ")")
  | array {text : String} {element : TypeRef} (h : Spells element text) :
      Spells (.sequence element) (text ++ "[]")

/-! Reading back -/

/-- The type that a word spells. -/
def ofWord (word : String) : TypeRef :=
  if word = "boolean" then .scalar .bool
  else if word = "number" then .scalar .int
  else if word = "string" then .scalar .string
  else if word = "any" then .scalar .any
  else .declared word

/-- The name at the beginning, and what follows it. -/
def takeName (cs : List Char) : String × List Char :=
  (String.ofList (cs.takeWhile isNamePart), cs.dropWhile isNamePart)

/-- All suffixes that follow a type, and what follows them. -/
def suffixes (ref : TypeRef) : List Char → TypeRef × List Char
  | '[' :: ']' :: cs => suffixes (.sequence ref) cs
  | cs => (ref, cs)

/-- Reads what stands between `opening` and `closing`, and the suffixes behind it. -/
def enclosed (read : List Char → Option (TypeRef × List Char)) (wrap : TypeRef → TypeRef)
    (closing : String) (cs : List Char) : Option (TypeRef × List Char) := do
  let (ref, cs) ← read cs
  let cs ← cs.dropPrefix? closing.toList
  return suffixes (wrap ref) cs

/-- Reads a type that is nested less than `depth` levels deep. -/
def readType : Nat → List Char → Option (TypeRef × List Char)
  | 0, _ => none
  | depth + 1, cs =>
    match cs.dropPrefix? "(".toList with
    | some cs => enclosed (readType depth) id ")" cs
    | none =>
      match cs.dropPrefix? "\x7b [key: number]: ".toList with
      | some cs => enclosed (readType depth) (.map (.scalar .int)) " \x7d" cs
      | none =>
        match cs.dropPrefix? "\x7b [key: string]: ".toList with
        | some cs => enclosed (readType depth) (.map (.scalar .string)) " \x7d" cs
        | none =>
          let (word, cs) := takeName cs
          if word = "Record" then do
            let (name, cs) := takeName (← cs.dropPrefix? "<".toList)
            enclosed (readType depth) (.map (.declared name)) ">" (← cs.dropPrefix? ", ".toList)
          else some (suffixes (ofWord word) cs)

section Reading

variable {ref : TypeRef} {text name : String} {cs rest : List Char} {depth : Nat}

/-- A name that is read up to here ends here. -/
def EndsName (rest : List Char) : Prop :=
  ∀ c ∈ rest.head?, isNamePart c = false

theorem dropPrefix?_append (p cs : List Char) : (p ++ cs).dropPrefix? p = some cs :=
  List.dropPrefix?_append_of_beq cs (beq_self_eq_true p)

theorem dropPrefix?_cons_of_ne {c d : Char} (p : List Char) (h : c ≠ d) :
    (c :: cs).dropPrefix? (d :: p) = none := by
  simp [List.dropPrefix?, h]

theorem takeName_append (hname : ∀ c ∈ name.toList, isNamePart c) (hrest : EndsName rest) :
    takeName (name.toList ++ rest) = (name, rest) := by
  have htake : rest.takeWhile isNamePart = [] := by
    cases rest with
    | nil => rfl
    | cons c cs => simp [hrest c rfl]
  have hdrop : rest.dropWhile isNamePart = rest := by
    cases rest with
    | nil => rfl
    | cons c cs => simp [hrest c rfl]
  rw [takeName, List.takeWhile_append_of_pos hname, List.dropWhile_append_of_pos hname, htake,
    hdrop, List.append_nil, String.ofList_toList]

theorem endsName_cons {c : Char} (h : isNamePart c = false) : EndsName (c :: cs) := by
  simpa [EndsName] using h

/-- A word is read as a word: no bracket begins like a name. -/
theorem readType_identifier (hname : isIdentifier name) (hrest : EndsName rest) :
    readType (depth + 1) (name.toList ++ rest) =
      if name = "Record" then do
        let (key, cs) := takeName (← rest.dropPrefix? "<".toList)
        enclosed (readType depth) (.map (.declared key)) ">" (← cs.dropPrefix? ", ".toList)
      else some (suffixes (ofWord name) rest) := by
  obtain ⟨c, cs, hcons, hstart, hparts⟩ := isIdentifier_cases hname
  have hnone (opening : String) {d : Char} {p : List Char} (ho : opening.toList = d :: p)
      (hd : isNameStart d = false) : (name.toList ++ rest).dropPrefix? opening.toList = none := by
    rw [ho, hcons]
    refine dropPrefix?_cons_of_ne p ?_
    rintro rfl
    exact absurd hstart (by simp [hd])
  rw [readType, hnone "(" rfl (by decide),
    hnone "\x7b [key: number]: " rfl (by decide),
    hnone "\x7b [key: string]: " rfl (by decide)]
  simp only [takeName_append hparts hrest]

theorem enclosed_append {read : List Char → Option (TypeRef × List Char)}
    {wrap : TypeRef → TypeRef} {closing : String} {rest : List Char}
    (h : read cs = some (ref, closing.toList ++ rest)) :
    enclosed read wrap closing cs = some (suffixes (wrap ref) rest) := by
  simp [enclosed, h, dropPrefix?_append]

theorem readType_word (hname : isIdentifier name) (hne : name ≠ "Record") (hrest : EndsName rest) :
    readType (depth + 1) (name.toList ++ rest) = some (suffixes (ofWord name) rest) := by
  rw [readType_identifier hname hrest, if_neg hne]

theorem ofWord_of_isTypeName (h : IsTypeName name) : ofWord name = .declared name := by
  have hwords := h.2
  simp only [List.mem_cons, not_or] at hwords
  simp [ofWord, hwords]

theorem readType_record (hname : IsTypeName name)
    (h : readType depth cs = some (ref, ">".toList ++ rest)) :
    readType (depth + 1) ("Record".toList ++ ("<".toList ++ (name.toList ++ (", ".toList ++ cs)))) =
      some (suffixes (.map (.declared name) ref) rest) := by
  obtain ⟨-, -, -, -, hparts⟩ := isIdentifier_cases hname.1
  have hkey : takeName (name.toList ++ (", ".toList ++ cs)) = (name, ", ".toList ++ cs) :=
    takeName_append hparts (endsName_cons (by decide))
  have hends : EndsName ("<".toList ++ (name.toList ++ (", ".toList ++ cs))) :=
    endsName_cons (by decide)
  rw [readType_identifier (by decide) hends, if_pos rfl, dropPrefix?_append]
  simp only [Option.bind_eq_bind, Option.bind_some, hkey, dropPrefix?_append]
  exact enclosed_append h

theorem readType_group (h : readType depth cs = some (ref, ")".toList ++ rest)) :
    readType (depth + 1) ("(".toList ++ cs) = some (suffixes ref rest) := by
  rw [readType, dropPrefix?_append]
  exact enclosed_append h

theorem readType_numbered (h : readType depth cs = some (ref, " \x7d".toList ++ rest)) :
    readType (depth + 1) ("\x7b [key: number]: ".toList ++ cs) =
      some (suffixes (.map (.scalar .int) ref) rest) := by
  have hgroup : ("\x7b [key: number]: ".toList ++ cs).dropPrefix? "(".toList = none := by
    simp [List.dropPrefix?]
  rw [readType, hgroup, dropPrefix?_append]
  exact enclosed_append h

theorem readType_keyed (h : readType depth cs = some (ref, " \x7d".toList ++ rest)) :
    readType (depth + 1) ("\x7b [key: string]: ".toList ++ cs) =
      some (suffixes (.map (.scalar .string) ref) rest) := by
  have hgroup : ("\x7b [key: string]: ".toList ++ cs).dropPrefix? "(".toList = none := by
    simp [List.dropPrefix?]
  have hnumbered : ("\x7b [key: string]: ".toList ++ cs).dropPrefix?
      "\x7b [key: number]: ".toList = none := by
    simp [List.dropPrefix?]
  rw [readType, hgroup, hnumbered, dropPrefix?_append]
  exact enclosed_append h

/-- A text is read, deep enough, as the type that it spells, with all suffixes that follow it. -/
theorem Spells.read (h : Spells ref text) : ∃ n, ∀ k rest, EndsName rest →
    readType (k + n + 1) (text.toList ++ rest) = some (suffixes ref rest) := by
  -- What follows is arbitrary: behind an element it is the suffix that makes the array.
  induction h with
  | boolean | number | string | any =>
    exact ⟨0, fun k rest hrest => readType_word (by decide) (by decide) hrest⟩
  | @name name h =>
    have hne : name ≠ "Record" := by
      rintro rfl
      exact absurd h.2 (by decide)
    refine ⟨0, fun k rest hrest => ?_⟩
    rw [readType_word h.1 hne hrest, ofWord_of_isTypeName h]
  | @record name text value h hv ih =>
    obtain ⟨n, ih⟩ := ih
    refine ⟨n + 1, fun k rest hrest => ?_⟩
    have htext : ("Record<" ++ name ++ ", " ++ text ++ ">").toList ++ rest =
        "Record".toList ++ ("<".toList ++ (name.toList ++ (", ".toList ++
          (text.toList ++ (">".toList ++ rest))))) := by
      simp
    rw [htext]
    exact readType_record h (ih k _ (endsName_cons (by decide)))
  | @numbered text value hv ih =>
    obtain ⟨n, ih⟩ := ih
    refine ⟨n + 1, fun k rest hrest => ?_⟩
    simp only [String.toList_append, List.append_assoc]
    exact readType_numbered (ih k _ (endsName_cons (by decide)))
  | keyed hv ih =>
    obtain ⟨n, ih⟩ := ih
    refine ⟨n + 1, fun k rest hrest => ?_⟩
    simp only [String.toList_append, List.append_assoc]
    exact readType_keyed (ih k _ (endsName_cons (by decide)))
  | group h ih =>
    obtain ⟨n, ih⟩ := ih
    refine ⟨n + 1, fun k rest hrest => ?_⟩
    simp only [String.toList_append, List.append_assoc]
    exact readType_group (ih k _ (endsName_cons (by decide)))
  | array h ih =>
    obtain ⟨n, ih⟩ := ih
    refine ⟨n, fun k rest hrest => ?_⟩
    rw [String.toList_append, List.append_assoc]
    exact ih k _ (endsName_cons (by decide))

/-- A text spells one type at most. -/
theorem Spells.unique {ref' : TypeRef} (h : Spells ref text) (h' : Spells ref' text) :
    ref = ref' := by
  obtain ⟨n, hread⟩ := h.read
  obtain ⟨n', hread'⟩ := h'.read
  have hends : EndsName [] := nofun
  have heq := hread n' [] hends
  rw [Nat.add_comm n' n, hread' n [] hends] at heq
  exact congrArg Prod.fst (Option.some.inj heq).symm

end Reading

section Writing

variable {ref key value : TypeRef} {text : String}

theorem spells_mapText (hkey : Plain key) (hvalue : Spells value text) :
    Spells (.map (normalKey key) value) (mapText key text) := by
  cases key with
  | declared name => exact .record hkey hvalue
  | scalar kind => cases kind <;> first | exact .numbered hvalue | exact .keyed hvalue
  | verbatim _ | sequence _ | map _ _ => exact .keyed hvalue

theorem spells_operand {element : TypeRef} (h : Spells ref (typeText element)) :
    Spells ref (operand element) := by
  unfold operand
  split
  · exact .group h
  · exact h

/-- The text of a type spells what of the type is written. -/
theorem spells_typeText (h : Plain ref) : Spells (normal ref) (typeText ref) := by
  induction ref with
  | declared name => exact .name h
  | verbatim text => exact absurd h id
  | scalar kind => cases kind <;> constructor
  | sequence element ih =>
    rw [typeText_sequence]
    exact .array (spells_operand (ih h))
  | map key value _ ih => exact spells_mapText h.1 (ih h.2)

theorem mapText_normalKey (key : TypeRef) (text : String) :
    mapText (normalKey key) text = mapText key text := by
  cases key with
  | scalar kind => cases kind <;> rfl
  | declared _ | verbatim _ | sequence _ | map _ _ => rfl

theorem needsParens_normal (ref : TypeRef) : needsParens (normal ref) = needsParens ref := by
  cases ref with
  | map key value =>
    cases key with
    | scalar kind => cases kind <;> rfl
    | declared _ | verbatim _ | sequence _ | map _ _ => rfl
  | declared _ | verbatim _ | sequence _ | scalar _ => rfl

theorem typeText_normal (ref : TypeRef) : typeText (normal ref) = typeText ref := by
  induction ref with
  | declared _ | verbatim _ => rfl
  | scalar kind => cases kind <;> rfl
  | sequence element ih => simp only [normal, typeText, needsParens_normal, ih]
  | map key value _ ih => simp only [normal, typeText, mapText_normalKey, ih]

end Writing

/-- The text of a type is unambiguous. Two types are written alike if and only if they are the same
in what of them is written, and no text is read as anything but the type that it was written for.
Before the `[]` of a sequence stands the text of the element, in parentheses or not, which as a
whole is read as the element. -/
theorem type_texts_are_unambiguous {a b : TypeRef} (ha : Plain a) (hb : Plain b) :
    (typeText a = typeText b ↔ normal a = normal b) ∧
      (∀ ref, Spells ref (typeText a) ↔ ref = normal a) ∧
      typeText (.sequence a) = operand a ++ "[]" ∧
      ∀ ref, Spells ref (operand a) ↔ ref = normal a := by
  have hspells := spells_typeText ha
  have hiff {text : String} (h : Spells (normal a) text) (ref : TypeRef) :
      Spells ref text ↔ ref = normal a :=
    ⟨fun href => href.unique h, fun heq => heq ▸ h⟩
  refine ⟨⟨fun htext => ?_, fun hnormal => ?_⟩, hiff hspells, typeText_sequence a,
    hiff (spells_operand hspells)⟩
  · exact hspells.unique (htext ▸ spells_typeText hb)
  · rw [← typeText_normal a, hnormal, typeText_normal]

/-- Keys that are no declarations and no numbers are all written as strings; the parentheses around
the map belong to the element. -/
theorem text_keys_are_alike :
    let a : TypeRef := .sequence (.map (.scalar .time) (.sequence (.declared "User")))
    let b : TypeRef := .sequence (.map (.sequence (.scalar .uint)) (.sequence (.declared "User")))
    Plain a ∧ Plain b ∧ typeText a = typeText b ∧
      (∀ ref, Spells ref "({ [key: string]: User[] })[]" ↔ ref = normal a) ∧
      ∀ ref, Spells ref "(({ [key: string]: User[] })[])[]" → ref = .sequence (normal a) := by
  intro a b
  have hname : IsTypeName "User" := ⟨by decide, by decide⟩
  have ha : Plain a := ⟨trivial, hname⟩
  have hb : Plain b := ⟨trivial, hname⟩
  obtain ⟨hiff, hspells, -, -⟩ := type_texts_are_unambiguous ha hb
  refine ⟨ha, hb, hiff.mpr rfl, hspells, fun ref h => ?_⟩
  exact h.unique (.array (.group ((hspells _).mpr rfl)))

end TypeGraph.Output.TypeScript
