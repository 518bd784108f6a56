import TypeGraph.Diagnostic
import TypeGraph.Log
import TypeGraph.Schema.Tree
import TypeGraph.Text.Blank
/-!
Turning syntax trees into a type set. First every definition gets its place, so that definitions
may refer to each other in any order and across files; then members, variants and synonyms are
resolved.
-/

namespace TypeGraph.Schema

inductive RootKind where
  | struct
  | enum
  deriving DecidableEq, Repr, Inhabited

/-- A definition that discovery starts from. -/
structure Root where
  ty : TypeId
  kind : RootKind
  deriving DecidableEq, Repr, Inhabited

/-- A definition, the first of its name in its package. -/
structure Entry where
  package : String
  source : SourceId
  item : Item
  /-- The type it stands for; a synonym of anything but a scalar has none of its own. -/
  type? : Option TypeId

def Entry.name (e : Entry) : String :=
  e.item.name.text

structure Loading where
  types : TypeSet := .initial
  entries : List Entry := []
  roots : List Root := []
  /-- The synonyms resolved so far, by position among the entries. -/
  resolved : List (Nat × Option TypeId) := []
  diagnostics : List Diagnostic := []
  journal : List Log.Event := []

abbrev Loader := StateM Loading

namespace Loader

def report (source : SourceId) (kind : Diagnostic.Kind) (span : Span) (detail? : Option String)
    (related : List Diagnostic.Related) : Loader Unit :=
  modify fun l => { l with
    diagnostics := l.diagnostics ++ [.make source kind span detail? related []] }

/-- Changes the type set and answers an id in it. -/
def withTypes (f : TypeSet → TypeId × TypeSet) : Loader TypeId :=
  modifyGet fun l =>
    let (id, types) := f l.types
    (id, { l with types })

def updateTypes (f : TypeSet → TypeSet) : Loader Unit :=
  modify fun l => { l with types := f l.types }

/-- The scalar behind an enum, `any` if the base is unknown. A base that cannot carry constants is
reported. -/
def enumBase (source : SourceId) (d : EnumDef) : Loader Scalar := do
  let kind? := Scalar.ofKeyword? d.base.text
  if !(kind?.any (·.enumerable)) then
    report source .invalidEnumBase d.base.span (some d.base.text) []
  return kind?.getD .any

/-- The type that an item stands for, without its members and constants. A synonym of a scalar is a
type of its own. -/
def declaredType (file : File) (item : Item) : Loader (Option TypeId) := do
  let package := file.packagePath
  match item with
  | .struct d => return some (← withTypes (·.declareAggregate package d.name.text))
  | .enum d =>
    let kind ← enumBase file.source d
    return some (← withTypes (·.declareScalar package d.name.text kind))
  | .synonym d =>
    match d.target with
    | .scalar kind _ => return some (← withTypes (·.declareScalar package d.name.text kind))
    | _ => return none

/-- Gives an item its place, unless its name is taken. Answers whether its name was free. -/
def declares (file : File) (item : Item) : Loader Bool := do
  let package := file.packagePath
  let name := item.name
  match (← get).entries.find? fun e => e.package = package ∧ e.name = name.text with
  | some first =>
    report file.source .duplicateDefinition name.span (some name.text)
      [⟨first.source, first.item.name.span, "first defined here"⟩]
    return false
  | none =>
    let type? ← declaredType file item
    modify fun l => { l with
      entries := l.entries ++ [{ package, source := file.source, item, type? }] }
    return true

/-- The first pass gives every definition its place. It answers the positions of the items whose
names were taken: the file, and the item in it. -/
def declare (files : List File) : Loader (List (Nat × Nat)) :=
  files.zipIdx.foldlM (fun shadowed (file, i) =>
    file.items.zipIdx.foldlM (fun shadowed (item, j) => do
      return if ← declares file item then shadowed else (i, j) :: shadowed) shadowed) []

/-- The part of a package path after its last slash or point. -/
def lastSegment (path : String) : String :=
  ((Text.pieces (fun c => c == '/' || c == '.') path.toList).getLast?).elim path String.ofList

/-- The definitions that a reference in `package` may mean. A qualified one goes by the whole
package path or its last segment; of the others, one in the package itself comes before all
others. -/
def candidates (entries : List Entry) (package : String) (qualifier : Option String)
    (name : String) : List (Entry × Nat) :=
  let called := entries.zipIdx.filter fun (e, _) => e.name = name
  match qualifier with
  | some q => called.filter fun (e, _) => e.package = q ∨ lastSegment e.package = q
  | none =>
    match called.find? fun (e, _) => e.package = package with
    | some own => [own]
    | none => called

/-- Where an expression is written. -/
structure Place where
  package : String
  source : SourceId

/-- The type that a reference means; `synonym` resolves the synonym at a position. -/
def reference (synonym : Nat → Loader (Option TypeId)) (place : Place)
    (qualifier : Option String) (name : String) (span : Span) : Loader (Option TypeId) := do
  let written := qualifier.elim name (· ++ "." ++ name)
  match candidates (← get).entries place.package qualifier name with
  | [] =>
    report place.source .undefinedReference span (some written) []
    return none
  | [(entry, position)] =>
    match entry.type? with
    | some id => return some id
    | none => synonym position
  | several =>
    report place.source .ambiguousReference span (some written)
      (several.map fun (e, _) => ⟨e.source, e.item.name.span, "candidate defined here"⟩)
    return none

def attributesOf (attributes : List Attribute) (doc : Option String) : Attributes :=
  attributes.foldl (fun all one =>
    match one.kind with
    | .skip => { all with skip := true }
    | .optional => { all with optional := true }
    | .rename name => { all with rename := some name }) { doc }

/-- Reports a name that was seen before among members or variants. -/
def reportRepeated (source : SourceId) (name : Name) (first : Span) : Loader Unit :=
  report source .duplicateMember name.span (some name.text)
    [⟨source, first, "first defined here"⟩]

mutual

/-- The type that an expression denotes, if all its parts can be resolved. -/
def type (synonym : Nat → Loader (Option TypeId)) (place : Place) :
    TypeExpr → Loader (Option TypeId)
  | .scalar kind _ => return some (← withTypes (·.scalar kind))
  | .reference qualifier name span => reference synonym place qualifier name span
  | .pointer target _ => do
    match ← type synonym place target with
    | some id => return some (← withTypes (·.pointer id))
    | none => return none
  | .sequence element _ => do
    match ← type synonym place element with
    | some id => return some (← withTypes (·.sequence id))
    | none => return none
  | .map key value _ => do
    let key? ← type synonym place key
    let value? ← type synonym place value
    match key?, value? with
    | some k, some v => return some (← withTypes (·.map k v))
    | _, _ => return none
  | .record definitions _ => do
    let members ← members synonym place [] definitions
    return some (← withTypes (·.anonymous members))
  | .hole _ => return none

/-- The members of a struct; `seen` are the names met so far. A member whose type cannot be resolved
is left out. -/
def members (synonym : Nat → Loader (Option TypeId)) (place : Place)
    (seen : List (String × Span)) : List (MemberDef TypeExpr) → Loader (List Member)
  | [] => return []
  | ⟨name, expr, embedded, attributes, doc⟩ :: definitions => do
    match seen.lookup name.text with
    | some first =>
      reportRepeated place.source name first
      members synonym place seen definitions
    | none =>
      let ty? ← type synonym place expr
      let rest ← members synonym place ((name.text, name.span) :: seen) definitions
      match ty? with
      | some ty => return { attributesOf attributes doc with name := name.text, ty, embedded } :: rest
      | none => return rest

end

/-- Resolves the synonym at a position; `path` are the ones being resolved, and `next` resolves those
that its target refers to. -/
def follow (next : Nat → Loader (Option TypeId)) (path : List Nat) (position : Nat) :
    Loader (Option TypeId) := do
  let l ← get
  match l.resolved.lookup position, l.entries[position]? with
  | some known, _ => return known
  | none, some ⟨package, source, .synonym d, none⟩ =>
    if path.contains position then
      report source .aliasCycle d.name.span (some d.name.text) []
      return none
    else
      let ty? ← type next ⟨package, source⟩ d.target
      modify fun l => { l with resolved := (position, ty?) :: l.resolved }
      return ty?
  | none, _ => return none

/-- Resolves the synonym at a position. Each level adds a position to the path, so a depth of one
more than there are entries is never used up. -/
def synonym : Nat → List Nat → Nat → Loader (Option TypeId)
  | 0, _, _ => return none
  | depth + 1, path, position => follow (synonym depth (position :: path)) path position

/-- Resolves a synonym that is not yet being resolved. -/
def topSynonym (position : Nat) : Loader (Option TypeId) := do
  synonym ((← get).entries.length + 1) [] position

/-- Adds the variants of an enum that are new and fit its kind, and tells how many there are. -/
def constants (source : SourceId) (id : TypeId) (kind : Scalar) (seen : List (String × Span)) :
    List Variant → Loader Nat
  | [] => return 0
  | v :: vs => do
    match seen.lookup v.name.text with
    | some first =>
      reportRepeated source v.name first
      constants source id kind seen vs
    | none =>
      let seen := (v.name.text, v.name.span) :: seen
      if v.value.fits kind then
        updateTypes (·.addConstant id ⟨v.name.text, v.value, v.doc⟩)
        return (← constants source id kind seen vs) + 1
      else
        report source .literalKindMismatch v.valueSpan (some ("expected " ++ kind.keyword)) []
        constants source id kind seen vs

def addRoot (ty : TypeId) (kind : RootKind) : Loader Unit :=
  modify fun l => { l with roots := l.roots ++ [⟨ty, kind⟩] }

def documentType (id : TypeId) (doc : Option String) : Loader Unit :=
  updateTypes fun types => doc.elim types (types.setDoc id)

def resolveStruct (place : Place) (id : TypeId) (d : StructDef) : Loader Unit := do
  let members ← members topSynonym place [] d.members
  updateTypes (·.setMembers id members)
  documentType id d.doc
  modify fun l => { l with journal := l.journal ++ [.structResolved d.name.text] }
  addRoot id .struct

/-- An enum whose base cannot carry constants stays as it is; one without variants is no root. -/
def resolveEnum (place : Place) (id : TypeId) (d : EnumDef) : Loader Unit := do
  documentType id d.doc
  let kind := (((← get).types.get? id).bind (·.scalar?)).getD .any
  if kind.enumerable then
    let count ← constants place.source id kind [] d.variants
    if d.variants = [] then
      report place.source .emptyEnum d.name.span none []
    else if 0 < count then
      addRoot id .enum

/-- Resolves an item whose definition stands for `type?`, or at `position` if it is a transparent
synonym. -/
def resolveAs (place : Place) (item : Item) (type? : Option TypeId) (position : Nat) :
    Loader Unit := do
  match item, type? with
  | .struct d, some id => resolveStruct place id d
  | .enum d, some id => resolveEnum place id d
  | .synonym d, some id => documentType id d.doc
  | .synonym _, none =>
    let _ ← topSynonym position
  | _, none => return

/-- Resolves an item by the definition of its name. -/
def resolveItem (place : Place) (item : Item) : Loader Unit := do
  match (← get).entries.zipIdx.find? fun (e, _) =>
    e.package = place.package ∧ e.name = item.name.text with
  | some (entry, position) => resolveAs place item entry.type? position
  | none => return

/-- The second pass resolves the items in the order of the files, but for those at the positions
`shadowed`. -/
def resolve (shadowed : List (Nat × Nat)) (files : List File) : Loader Unit :=
  files.zipIdx.forM fun (file, i) =>
    file.items.zipIdx.forM fun (item, j) => do
      if !shadowed.contains (i, j) then
        resolveItem ⟨file.packagePath, file.source⟩ item

/-- Loads files in two passes, so that definitions may refer to each other in any order. -/
def files (files : List File) : Loader Unit := do
  let shadowed ← declare files
  resolve shadowed files

end Loader

/-- Loads files whose reading gave `diagnostics`. -/
def load (files : List File) (diagnostics : List Diagnostic) : Loading :=
  (Loader.files files { diagnostics }).2

end TypeGraph.Schema
