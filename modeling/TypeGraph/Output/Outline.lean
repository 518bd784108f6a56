import TypeGraph.Output.TypeRef
import TypeGraph.Text.Inspected
/-!
Declarations as a plain outline, for looking at what a registry holds.
-/

namespace TypeGraph.Output.Outline

def typeText : TypeRef → String
  | .declared name => "declared(" ++ name ++ ")"
  | .verbatim text => "opaque(" ++ text ++ ")"
  | .scalar kind => "primitive(" ++ kind.keyword ++ ")"
  | .sequence element => "sequence(" ++ typeText element ++ ")"
  | .map key value => "map(" ++ typeText key ++ "," ++ typeText value ++ ")"

def inspectedOption (text? : Option String) : String :=
  text?.elim "None" fun text => "Some(" ++ Text.Inspected.quote text ++ ")"

def declaration (v : View) (d : Declaration) : String :=
  d.indent ++ d.kindName ++ " " ++ d.name ++ "\n" ++
    String.join (d.fields.map fun f =>
      f.indent ++ f.name ++ ": " ++ typeText (v.resolve f.ty) ++ "\n") ++
    String.join (d.members.map fun m => m.indent ++ m.name ++ "\n")

def document (v : View) : String :=
  "header=" ++ Text.Inspected.quote v.settings.header ++ " namespace=" ++
    inspectedOption v.settings.scope ++ " types=" ++ toString v.types.size ++ "\n" ++
    String.join (v.declarations.map (declaration v))

def assembler : Assembler where
  unit := defaultIndent
  assemble v := some (document v)

end TypeGraph.Output.Outline

namespace TypeGraph

/-- An assembler that cannot write anything. -/
def Assembler.failing : Assembler where
  unit := defaultIndent
  assemble _ := none

end TypeGraph
