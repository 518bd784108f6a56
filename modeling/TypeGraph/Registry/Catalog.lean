import TypeGraph.Blueprint
import TypeGraph.Log
/-!
Type sets as discovery sees them: with settings, and with the places that constants and
documentation are taken from. A type is looked at in steps; its leaves are what the steps through
pointers, sequences and maps end at.
-/

namespace TypeGraph

structure Settings where
  /-- The namespace around the whole output. -/
  scope : Option String := none
  /-- Whether embedded structs are declared along with the struct that embeds them. -/
  declareEmbedded : Bool := true
  /-- Qualified names and the text that stands for their types, in the order of insertion. -/
  custom : List (String × String) := []
  header : String := "// Code generated by typemirror. DO NOT EDIT."
  deriving DecidableEq, Repr, Inhabited

namespace Settings

/-- An empty name is no namespace. -/
def withScope (settings : Settings) (scope : Option String) : Settings :=
  { settings with scope := scope.filter (· ≠ "") }

/-- Sets the text for a type; a type that has one keeps its place. -/
def withCustom (settings : Settings) (qualifiedName text : String) : Settings :=
  { settings with custom :=
      if settings.custom.any (·.1 == qualifiedName) then
        settings.custom.map fun entry =>
          if entry.1 = qualifiedName then (qualifiedName, text) else entry
      else settings.custom ++ [(qualifiedName, text)] }

end Settings

/-- Where constants and documentation of a type are taken from. -/
structure Annex where
  /-- The constants of a named scalar; none if it is no enumeration. -/
  constants : TypeSet → TypeId → List Constant
  doc : TypeSet → TypeId → Option String

/-- What the descriptions themselves say. -/
def Annex.described : Annex where
  constants types id := ((types.get? id).map (·.constants)).getD []
  doc types id := (types.get? id).bind (·.doc)

structure Catalog where
  types : TypeSet
  settings : Settings
  annex : Annex

/-- What a type is to the walk. -/
inductive Step where
  | pointer (target : TypeId)
  /-- A struct, declared under its own name or else under the one that the context gives. -/
  | aggregate (id : TypeId) (name : String)
  | sequence (element : TypeId)
  | map (key value : TypeId)
  /-- A named scalar with constants. -/
  | enumeration (id : TypeId)
  /-- A type that needs no declaration. -/
  | inline (what : Inline)
  deriving DecidableEq, Repr, Inhabited

/-- Where a walk through pointers, sequences and maps ends. -/
inductive Leaf where
  | aggregate (id : TypeId) (name : String)
  | enumeration (id : TypeId)
  | inline (id : TypeId) (what : Inline)
  /-- An id that is not in the type set. -/
  | dangling (id : TypeId)
  deriving DecidableEq, Repr, Inhabited

namespace Catalog

/-- The text that the settings give for a type. Only named types have one. -/
def customText (c : Catalog) (id : TypeId) : Option String :=
  (c.types.qualifiedName id).bind (List.lookup · c.settings.custom)

/-- Classifies a type; a custom text comes before everything else. -/
def step? (c : Catalog) (id : TypeId) (contextualName : String) : Option Step :=
  (c.types.get? id).map fun d =>
    match c.customText id with
    | some text => .inline (.verbatim text)
    | none =>
      match d.shape with
      | .pointer target => .pointer target
      | .aggregate _ => .aggregate id (d.name.getD contextualName)
      | .sequence element => .sequence element
      | .map key value => .map key value
      | .scalar kind =>
        if d.name.isSome && kind.enumerable && c.annex.constants c.types id ≠ [] then
          .enumeration id
        else .inline (.scalar kind)

/-- The leaves of a type, of a map first those of the value. Containers only hold earlier types. -/
def leaves (c : Catalog) (contextualName : String) (id : TypeId) : List Leaf :=
  match c.step? id contextualName with
  | none => [.dangling id]
  | some (.pointer inner) | some (.sequence inner) =>
    if inner.index < id.index then c.leaves contextualName inner else []
  | some (.map key value) =>
    (if value.index < id.index then c.leaves contextualName value else []) ++
      (if key.index < id.index then c.leaves contextualName key else [])
  | some (.aggregate id name) => [.aggregate id name]
  | some (.enumeration id) => [.enumeration id]
  | some (.inline what) => [.inline id what]
termination_by id.index

/-- What a member adds to the interface that holds it. -/
inductive Part where
  | nothing
  | field (field : Field)
  /-- An embedded struct; the field is what it would be if it were not embedded. -/
  | base (target : TypeId) (field : Field)

/-- What `member` adds to the interface called `enclosing`. -/
def part (c : Catalog) (enclosing : String) (member : Member) : Except Dangling Part :=
  let field := Field.ofMember c.types member enclosing
  if field.omitted then .ok .nothing
  else if field.embedded then
    let target := c.types.strip field.ty
    match c.types.get? target with
    | none => .error ⟨target⟩
    | some d => .ok (if d.isAggregate then .base target field else .field field)
  else .ok (.field field)

/-- Where the declaration of a type comes from; `package?` replaces the type's own package. -/
def provenance (c : Catalog) (id : TypeId) (name : String) (package? : Option String) :
    Provenance :=
  let d? := c.types.get? id
  { package := package?.getD ((d?.map (·.package)).getD "")
    typeName := (d?.bind (·.name)).getD name }

/-- The declaration of a type as an interface, at first without fields. -/
def interface (c : Catalog) (id : TypeId) (name : String) : Declaration where
  name
  provenance := c.provenance id name none
  ty := id
  doc := c.annex.doc c.types id
  body := .interface [] []

/-- The declaration of a type as an enumeration. -/
def enumeration (c : Catalog) (id : TypeId) (name? package? : Option String) : Declaration :=
  let own := (c.types.get? id).bind (·.name)
  let name := ((name?.filter (· ≠ "")) <|> own).getD ""
  { name
    provenance := c.provenance id name package?
    ty := id
    doc := c.annex.doc c.types id
    body := .enumeration ((c.annex.constants c.types id).map EnumMember.ofConstant) }

end Catalog

end TypeGraph
