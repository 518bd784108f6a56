import TypeGraph.Schema.Schema
/-!
What a run registers: the roots chosen by name, under the settings chosen by options.
-/

namespace TypeGraph.Command

/-- Options that shape a registry. -/
structure Options where
  /-- Names of roots, bare or qualified; without any, all roots are meant. -/
  roots : List String := []
  scope : Option String := none
  declareEmbedded : Bool := true
  /-- Qualified names and the text that stands for their types. -/
  custom : List (String × String) := []
  deriving DecidableEq, Repr, Inhabited

/-- The settings that the options ask for, with a header of one's own or the usual one. -/
def Options.settings (o : Options) (header : Option String) : Settings :=
  let base : Settings := { declareEmbedded := o.declareEmbedded }
  let base := base.withScope o.scope
  let base := o.custom.foldl (fun s (name, text) => s.withCustom name text) base
  header.elim base fun header => { base with header }

/-- Adds the roots called `name` that are not yet selected; `none` if there is no such root. -/
def selectNamed (s : Schema) (selected : List Schema.Root) (name : String) :
    Option (List Schema.Root) :=
  match s.rootsNamed name with
  | [] => none
  | named => some (named.foldl (fun all root => if root ∈ all then all else all ++ [root]) selected)

/-- The roots called by `names`, in the order of the names; the first name that no root has is an
error. -/
def selectRoots (s : Schema) (names : List String) : Except String (List Schema.Root) :=
  if names = [] then .ok s.roots
  else names.foldlM (fun selected name =>
    match selectNamed s selected name with
    | some selected => .ok selected
    | none => .error name) []

/-- What is told about a name that no root has. -/
def unknownRoot (name : String) : String :=
  "no struct or enum named '" ++ name ++ "'"

end TypeGraph.Command
