import TypeGraph.Registry.Catalog
/-!
Discovery: declaring a struct and everything that its members reach. A declaration gets its slot
before its members are walked, so that cycles end, and its place in the output after them, so that a
struct is listed after what its members reach.
-/

namespace TypeGraph

/-- The place of a declaration among all that were begun. -/
abbrev Slot := Nat

/-- What has been declared so far, and how. -/
structure Findings where
  /-- The declarations, each in its slot; the fields of one that is being declared are missing. -/
  begun : List Declaration := []
  /-- The slot of every type that is declared or being declared, the latest first. -/
  seen : List (TypeId × Slot) := []
  /-- The slots of what is fully declared, in the order of the output. -/
  order : List Slot := []
  journal : List Log.Event := []

namespace Findings

def slot? (found : Findings) (id : TypeId) : Option Slot :=
  found.seen.lookup id

def lookup (found : Findings) (id : TypeId) : Option Declaration :=
  (found.slot? id).bind (found.begun[·]?)

/-- The declarations in the order of the output. -/
def declared (found : Findings) : List Declaration :=
  found.order.filterMap (found.begun[·]?)

/-- The name of the declaration in a slot. -/
def nameAt (found : Findings) (slot : Slot) : String :=
  (found.begun[slot]?).elim "" (·.name)

/-- The slot that is given out next. -/
def nextSlot (found : Findings) : Slot :=
  found.begun.length

def note (found : Findings) (event : Log.Event) : Findings :=
  { found with journal := found.journal ++ [event] }

/-- Gives a declaration the next slot. -/
def enter (found : Findings) (d : Declaration) : Findings :=
  { found with begun := found.begun ++ [d], seen := (d.ty, found.nextSlot) :: found.seen }

def fill (found : Findings) (slot : Slot) (body : Body) : Findings :=
  { found with begun := found.begun.modify slot fun d => { d with body } }

/-- Puts the declaration in a slot at the end of the output. -/
def finish (found : Findings) (slot : Slot) : Findings :=
  { found with order := found.order ++ [slot] }

end Findings

/-- Declares a struct under a name unless it is declared already, and answers its slot. -/
abbrev Declare := TypeId → String → Findings → Except Dangling (Slot × Findings)

namespace Catalog

/-- Declares an enumeration unless it is declared already, and answers its slot. -/
def declareEnumeration (c : Catalog) (id : TypeId) (name? package? : Option String)
    (found : Findings) : Slot × Findings :=
  match found.slot? id with
  | some slot => (slot, found.note (.alreadyDeclared id))
  | none =>
    let d := c.enumeration id name? package?
    let slot := found.nextSlot
    (slot, ((found.note (.enumDeclared d.name d.members.length)).enter d).finish slot)

/-- Declares what a leaf needs. -/
def visitLeaf (c : Catalog) (declare : Declare) (found : Findings) :
    Leaf → Except Dangling Findings
  | .aggregate id name => (declare id name found).map (·.2)
  | .enumeration id => .ok (c.declareEnumeration id none none found).2
  | .inline id what => .ok (found.note (.inlined id what))
  | .dangling id => .error ⟨id⟩

/-- Declares what a member of the struct called `enclosing` reaches, and gives the fields and the
names of bases that it adds. -/
def visitMember (c : Catalog) (declare : Declare) (enclosing : String) (m : Member)
    (found : Findings) : Except Dangling ((List Field × List String) × Findings) := do
  match ← c.part enclosing m with
  | .nothing => .ok (([], []), found)
  | .field field =>
    let found ← (c.leaves field.contextualName field.ty).foldlM (c.visitLeaf declare) found
    .ok (([field], []), found)
  | .base target field =>
    let own := (c.types.get? target).bind (·.name)
    if !c.settings.declareEmbedded || (c.customText target).isSome then
      .ok (([], [own.getD field.name]), found)
    else
      let (slot, found) ← declare target (own.getD field.contextualName) found
      .ok (([], [found.nameAt slot]), found)

def visitMembers (c : Catalog) (declare : Declare) (enclosing : String) :
    List Member → Findings → Except Dangling ((List Field × List String) × Findings)
  | [], found => .ok (([], []), found)
  | m :: ms, found => do
    let ((fields, bases), found) ← c.visitMember declare enclosing m found
    let ((fields', bases'), found) ← visitMembers c declare enclosing ms found
    .ok ((fields ++ fields', bases ++ bases'), found)

/-- Declares a struct and what it reaches. Every level enters another type of the set, so a depth of
one more than its size is never used up. -/
def declare (c : Catalog) : Nat → Declare
  | 0 => fun id _ _ => .error ⟨id⟩
  | depth + 1 => fun id name found =>
    match found.slot? id with
    | some slot => .ok (slot, found.note (.alreadyDeclared id))
    | none =>
      match c.types.get? id with
      | none => .error ⟨id⟩
      | some d => do
        let slot := found.nextSlot
        let opened := c.interface id name
        let ((fields, inherited), found) ←
          c.visitMembers (c.declare depth) name d.members (found.enter opened)
        let found := found.fill slot (.interface fields inherited)
        let found := found.note (.interfaceDeclared name opened.provenance.qualified)
        .ok (slot, found.finish slot)

/-- Declares a struct and what it reaches. -/
def discover (c : Catalog) (id : TypeId) (name : String) (found : Findings) :
    Except Dangling Findings :=
  (c.declare (c.types.size + 1) id name found).map (·.2)

end Catalog

end TypeGraph
