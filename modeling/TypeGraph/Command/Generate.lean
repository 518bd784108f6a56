import TypeGraph.Command.Files
import TypeGraph.Registry.Registry
/-!
Rendering a registry into a file.
-/

namespace TypeGraph

/-- Renders into the file at `path`, which is made or replaced. -/
def Registry.generate {m : Type → Type} [Monad m] (r : Registry) (files : Command.Files m)
    (path : String) : m (Except Failure Unit × Registry) := do
  let (result, r) := r.render
  match result with
  | .error f => return (.error f, r)
  | .ok text =>
    match ← files.write path text with
    | .error fault => return (.error (.file path fault), r)
    | .ok () =>
      let event := Log.Event.generated r.declarations.length path
      return (.ok (), { r with findings := r.findings.note event })

end TypeGraph
