import TypeGraph.TypeSet
/-!
Type sets with indexes. Beside the descriptions there are two tables, one of the shapes of unnamed
types and one of packages and names, so that no search goes through all descriptions. Only a table
says whether a type is there already.
-/

namespace TypeGraph

/-- A table of ids, in the order in which its keys came. -/
abbrev Index (κ : Type) :=
  List (κ × TypeId)

namespace Index

variable {κ : Type}

/-- Puts an id into the table. A key that is there keeps its place and gets the new id. -/
def put [BEq κ] (index : Index κ) (key : κ) (id : TypeId) : Index κ :=
  match index with
  | [] => [(key, id)]
  | entry :: rest => if entry.1 == key then (key, id) :: rest else entry :: put rest key id

def ids (index : Index κ) : List TypeId :=
  index.map (·.2)

def keys (index : Index κ) : List κ :=
  index.map (·.1)

end Index

/-- A type set with a table of the unnamed types by their shapes, and one of the named types by
package and name. -/
structure TypeSet.Indexed extends TypeSet where
  byShape : Index Shape := []
  byName : Index (String × String) := []

namespace TypeSet.Indexed

def push (s : Indexed) (d : Description) : TypeId × Indexed :=
  (⟨s.size⟩, { s with descriptions := s.descriptions ++ [d] })

def intern (s : Indexed) (shape : Shape) : TypeId × Indexed :=
  match s.byShape.lookup shape with
  | some id => (id, s)
  | none =>
    let (id, s) := s.push { shape }
    (id, { s with byShape := s.byShape.put shape id })

/-- The plain scalars, interned one by one. -/
def initial : Indexed :=
  Scalar.all.foldl (fun s kind => (s.intern (.scalar kind)).2) { descriptions := [] }

def lookup (s : Indexed) (package name : String) : Option TypeId :=
  s.byName.lookup (package, name)

def declareNamed (s : Indexed) (package name : String) (shape : Shape) : TypeId × Indexed :=
  match s.lookup package name with
  | some id => (id, s)
  | none =>
    let (id, s) := s.push { name := some name, package, shape }
    (id, { s with byName := s.byName.put (package, name) id })

def modify (s : Indexed) (id : TypeId) (f : Description → Description) : Indexed :=
  { s with descriptions := s.descriptions.modify id.index f }

/-- The types called `name` in any package, as the table lists them. -/
def find (s : Indexed) (name : String) : List TypeId :=
  Index.ids (s.byName.filter fun entry => entry.1.2 = name)

end TypeSet.Indexed

end TypeGraph
