/-!
Colours for listings on a terminal, by the role of what is printed.
-/

namespace TypeGraph

/-- Escape sequences that switch to a colour; all empty where nothing is coloured. -/
structure Palette where
  keyword : String
  name : String
  muted : String
  reset : String
  deriving DecidableEq, Repr

namespace Palette

def plain : Palette where
  keyword := ""
  name := ""
  muted := ""
  reset := ""

def ansi : Palette where
  keyword := "\x1b[34m"
  name := "\x1b[1;32m"
  muted := "\x1b[2m"
  reset := "\x1b[0m"

def choose (colored : Bool) : Palette :=
  if colored then ansi else plain

def isColored (p : Palette) : Bool :=
  p.reset ≠ ""

/-- `text` in a colour of the palette. -/
def paint (p : Palette) (color text : String) : String :=
  if p.isColored then color ++ text ++ p.reset else text

end Palette

end TypeGraph
