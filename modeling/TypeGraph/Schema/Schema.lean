import TypeGraph.Registry.Registry
import TypeGraph.Schema.Loader
import TypeGraph.Schema.Parser
/-!
Schemas: sources, what was read from them, the types they define and the roots among these. A schema
without errors gives a registry for its roots.
-/

namespace TypeGraph

structure Schema where
  sources : List Source
  files : List Schema.File
  types : TypeSet
  /-- Structs and enums in the order of their definitions. -/
  roots : List Schema.Root
  diagnostics : List Diagnostic
  journal : List Log.Event

namespace Schema

/-- Reads and loads sources; the position of a source is its id. -/
def ofSources (sources : List Source) : Schema :=
  let read := sources.zipIdx.map fun (source, id) => parse id source.text
  let files := read.map (·.1)
  let loaded := load files (read.flatMap (·.2))
  { sources, files
    types := loaded.types
    roots := loaded.roots
    diagnostics := loaded.diagnostics
    journal := loaded.journal ++ [.schemaLoaded sources.length loaded.types.size
      loaded.roots.length loaded.diagnostics.length] }

/-- Whether there are no errors; there may be warnings. -/
def isValid (s : Schema) : Bool :=
  !s.diagnostics.any (·.isError)

/-- Whether a root goes by `name`, bare or qualified. -/
def isNamed (s : Schema) (name : String) (root : Root) : Bool :=
  match s.types.get? root.ty with
  | some d => d.name = some name || d.qualifiedName = some name
  | none => false

def rootsNamed (s : Schema) (name : String) : List Root :=
  s.roots.filter (s.isNamed name)

/-- Registers a root under its own name; one with a custom text is left out. -/
def addRoot (r : Registry) (root : Root) : Except Failure Registry :=
  if (r.catalog.customText root.ty).isSome then
    .ok { r with findings := r.findings.note (.customRoot root.ty) }
  else
    match root.kind with
    | .struct => (Registry.settled (r.addType root.ty none)).map (·.2)
    | .enum => (Registry.settled (r.addEnumeration root.ty none none)).map (·.2)

/-- A registry with these roots, added in turn. -/
def registryFor (s : Schema) (settings : Settings) (roots : List Root) :
    Except Failure Registry :=
  if s.isValid then roots.foldlM addRoot { types := s.types, settings }
  else .error (.schema (Diagnostic.filtered s.diagnostics))

/-- A registry with all roots of the schema. -/
def registry (s : Schema) (settings : Settings) : Except Failure Registry :=
  s.registryFor settings s.roots

end Schema

end TypeGraph
