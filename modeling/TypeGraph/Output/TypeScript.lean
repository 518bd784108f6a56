import TypeGraph.Output.TypeRef
import TypeGraph.Text.Blank
import TypeGraph.Text.Quoted
/-!
Declarations as TypeScript: an `interface` for a struct, an `enum` for an enumeration, with
documentation as comments.
-/

namespace TypeGraph.Output.TypeScript

structure Style where
  /-- Whether the declarations, and the namespace around them, are exported. -/
  exported : Bool := true
  unit : String := defaultIndent
  deriving DecidableEq, Repr, Inhabited

/-- A width in spaces; a width of zero means tabs. -/
def Style.withIndent (style : Style) (width? : Option Nat) : Style :=
  match width? with
  | none => style
  | some 0 => { style with unit := "\t" }
  | some width => { style with unit := String.ofList (List.replicate width ' ') }

def isNameStart (c : Char) : Bool :=
  c.isAlpha || c == '_' || c == '$'

def isNamePart (c : Char) : Bool :=
  c.isAlphanum || c == '_' || c == '$'

/-- Whether `name` can be written without quotes. Only ASCII letters are allowed. -/
def isIdentifier (name : String) : Bool :=
  match name.toList with
  | [] => false
  | c :: cs => isNameStart c && cs.all isNamePart

theorem isIdentifier_cases {name : String} (h : isIdentifier name) : ∃ c cs, name.toList = c :: cs ∧
    isNameStart c ∧ ∀ d ∈ name.toList, isNamePart d := by
  unfold isIdentifier at h
  cases hname : name.toList with
  | nil => simp [hname] at h
  | cons c cs =>
    simp only [hname, Bool.and_eq_true, List.all_eq_true] at h
    refine ⟨c, cs, rfl, h.1, List.forall_mem_cons.mpr ⟨?_, h.2⟩⟩
    have hstart := h.1
    simp only [isNameStart, isNamePart, Char.isAlphanum, Bool.or_eq_true] at hstart ⊢
    exact hstart.imp_left (·.imp_left .inl)

/-- The name of a property or enum member, quoted if it is no identifier. -/
def propertyName (name : String) : String :=
  if isIdentifier name then name else Text.Quoted.quote name

def literal : Literal → String
  | .string value => Text.Quoted.quote value
  | .int value => toString value.toInt
  | .uint value => toString value.toNat
  | .float value => value.text

def scalar : Scalar → String
  | .bool => "boolean"
  | .int | .uint | .float => "number"
  | .string | .time => "string"
  | .any => "any"

/-- Whether a type must stand in parentheses before `[]` binds to it. Text of the user must where
it may hold a union, an intersection or a function type. -/
def needsParens : TypeRef → Bool
  | .map (.declared _) _ => false
  | .map _ _ => true
  | .verbatim text => text.toList.any fun c => c == '|' || c == '&' || Text.isBlank c
  | _ => false

/-- An index signature. -/
def indexed (key value : String) : String :=
  "\x7b [key: " ++ key ++ "]: " ++ value ++ " \x7d"

/-- A map whose key and value are written; only enumerations are keys by name. -/
def mapText (key : TypeRef) (value : String) : String :=
  match key with
  | .declared name => "Record<" ++ name ++ ", " ++ value ++ ">"
  | .scalar kind => if kind.isNumeric then indexed "number" value else indexed "string" value
  | _ => indexed "string" value

def typeText : TypeRef → String
  | .declared name => name
  | .verbatim text => text
  | .scalar kind => scalar kind
  | .sequence element =>
    if needsParens element then "(" ++ typeText element ++ ")[]" else typeText element ++ "[]"
  | .map key value => mapText key (typeText value)

/-- An element as the operand of `[]`. -/
def operand (element : TypeRef) : String :=
  if needsParens element then "(" ++ typeText element ++ ")" else typeText element

theorem typeText_sequence (element : TypeRef) :
    typeText (.sequence element) = operand element ++ "[]" := by
  rw [typeText, operand]
  split
  · rw [String.append_assoc, String.append_assoc]
    rfl
  · rfl

/-- Breaks up what would end a comment. -/
def escapeComment : List Char → List Char
  | '*' :: '/' :: cs => '*' :: '\\' :: '/' :: escapeComment cs
  | c :: cs => c :: escapeComment cs
  | [] => []

/-- The lines of a documentation text, without blanks around the text and at the ends of lines. -/
def docLines (doc : String) : List String :=
  let text := escapeComment (Text.trim doc.toList)
  if text = [] then []
  else (Text.lines text).map fun line => String.ofList (Text.trimEnd line)

/-- A documentation comment. -/
def docComment (indent doc : String) : String :=
  match docLines doc with
  | [] => ""
  | [line] => indent ++ "/** " ++ line ++ " */\n"
  | lines =>
    let body := lines.map fun line =>
      if line = "" then indent ++ " *\n" else indent ++ " * " ++ line ++ "\n"
    indent ++ "/**\n" ++ String.join body ++ indent ++ " */\n"

def docOf (indent : String) (doc? : Option String) : String :=
  doc?.elim "" (docComment indent)

/-- A comment after an enum member, on one line. -/
def trailingComment (comment? : Option String) : String :=
  let text := Text.onOneLine (comment?.getD "").toList
  if text = [] then "" else " // " ++ String.ofList text

def enumMember (m : EnumMember) : String :=
  m.indent ++ propertyName m.name ++ " = " ++ literal m.value ++ "," ++
    trailingComment m.comment ++ "\n"

def property (v : View) (f : Field) : String :=
  docOf f.indent f.doc ++ f.indent ++ propertyName f.name ++ (if f.optional then "?" else "") ++
    ": " ++ typeText (v.resolve f.ty) ++ ";\n"

def exporting (style : Style) : String :=
  if style.exported then "export " else ""

/-- A block in braces, on one line if it is empty. -/
def braced (indent : String) (entries : List String) : String :=
  if entries = [] then "\x7b\x7d\n"
  else "\x7b\n" ++ String.join entries ++ indent ++ "\x7d\n"

def extending (inherited : List String) : String :=
  if inherited = [] then "" else " extends " ++ ", ".intercalate inherited

def declaration (style : Style) (v : View) (d : Declaration) : String :=
  docOf d.indent d.doc ++ d.indent ++ "// " ++ d.provenance.qualified ++ "\n" ++
    d.indent ++ exporting style ++
    match d.body with
    | .interface fields inherited =>
      "interface " ++ d.name ++ extending inherited ++ " " ++
        braced d.indent (fields.map (property v))
    | .enumeration members =>
      "enum " ++ d.name ++ " " ++ braced d.indent (members.map enumMember)

/-- The header and an empty line, if there is a header. -/
def headed (header : String) : String :=
  if header = "" then "" else header ++ "\n\n"

def document (style : Style) (v : View) : String :=
  let body := "\n".intercalate (v.declarations.map (declaration style v))
  headed v.settings.header ++
    match v.settings.scope with
    | some scope =>
      exporting style ++ "namespace " ++ scope ++ " \x7b\n" ++ body ++ "\x7d\n"
    | none => body

def assembler (style : Style) : Assembler where
  unit := style.unit
  assemble v := some (document style v)

end TypeGraph.Output.TypeScript
