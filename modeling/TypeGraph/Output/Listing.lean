import TypeGraph.Declaration
import TypeGraph.Palette
/-!
Declarations as a listing, one line each.
-/

namespace TypeGraph.Output.Listing

def padLeft (width : Nat) (text : String) : String :=
  String.ofList (List.replicate (width - text.length) ' ') ++ text

def padRight (width : Nat) (text : String) : String :=
  text ++ String.ofList (List.replicate (width - text.length) ' ')

/-- Index, kind, name and origin of a declaration. -/
def line (p : Palette) (d : Declaration) (index : Nat) : String :=
  p.paint p.muted (padLeft 3 (toString index)) ++ " " ++
    p.paint p.keyword (padRight 9 d.kindName) ++ " " ++
    p.paint p.name d.name ++ " " ++
    p.paint p.muted d.provenance.qualified ++ "\n"

def listing (p : Palette) (ds : List Declaration) : String :=
  String.join (ds.zipIdx.map fun (d, index) => line p d index)

end TypeGraph.Output.Listing
