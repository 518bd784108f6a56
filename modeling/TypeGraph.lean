import TypeGraph.Command.FileTree
import TypeGraph.Main
import TypeGraph.Output.Outline
import TypeGraph.Proofs.TypeSet.Building
import TypeGraph.Proofs.TypeSet.Identity
import TypeGraph.Proofs.Registry.Findings
import TypeGraph.Proofs.Registry.Reach
import TypeGraph.Proofs.Registry.Termination
import TypeGraph.Proofs.Registry.Coverage
import TypeGraph.Proofs.Registry.PostOrder
import TypeGraph.Proofs.Registry.Consistency
import TypeGraph.Proofs.Schema.Loading
import TypeGraph.Proofs.Schema.Discovery
import TypeGraph.Proofs.Schema.References
import TypeGraph.Proofs.Schema.WellFormed
import TypeGraph.Proofs.Schema.Placing
import TypeGraph.Proofs.Schema.Checking
import TypeGraph.Proofs.Schema.Reading
import TypeGraph.Proofs.Schema.Sound
import TypeGraph.Proofs.Schema.Printing
import TypeGraph.Proofs.Schema.Spelling
import TypeGraph.Proofs.Schema.Accepting
import TypeGraph.Proofs.Schema.Complete
import TypeGraph.Proofs.Registry.Renumbering
import TypeGraph.Proofs.Output.Renumbering
import TypeGraph.Proofs.Schema.Denoting
import TypeGraph.Proofs.Schema.Seeding
import TypeGraph.Proofs.Schema.Resolving
import TypeGraph.Proofs.Schema.Filling
import TypeGraph.Proofs.Schema.Faithful
import TypeGraph.Proofs.Registry.Permanence
import TypeGraph.Proofs.Registry.Evaluation
import TypeGraph.Proofs.Output.Evaluation
import TypeGraph.Proofs.Schema.Rounds
import TypeGraph.Proofs.Registry.Portrait
import TypeGraph.Proofs.Schema.Usable
import TypeGraph.Proofs.Output.Skipping
import TypeGraph.Proofs.Registry.Bodies
import TypeGraph.Proofs.Output.Agreement
import TypeGraph.Proofs.Schema.Bases
import TypeGraph.Proofs.Schema.Naming
import TypeGraph.Proofs.Schema.Cutting
import TypeGraph.Proofs.Schema.Tracking
import TypeGraph.Proofs.Schema.Marking
import TypeGraph.Proofs.Schema.Stemming
import TypeGraph.Proofs.Schema.Locating
import TypeGraph.Proofs.Schema.Nesting
import TypeGraph.Proofs.Schema.Repeating
import TypeGraph.Proofs.Schema.Recovering
import TypeGraph.Proofs.Schema.Lexemes
import TypeGraph.Proofs.Schema.Lines
import TypeGraph.Proofs.Schema.Patterns
import TypeGraph.Proofs.Schema.Covering
import TypeGraph.Proofs.Schema.Quoting
import TypeGraph.Proofs.Schema.Lockstep
import TypeGraph.Proofs.Schema.Ending
import TypeGraph.Proofs.Schema.Mending
import TypeGraph.Proofs.Schema.Resuming
import TypeGraph.Proofs.Schema.Restarting
import TypeGraph.Proofs.Schema.Sparing
import TypeGraph.Proofs.Schema.Numerals
import TypeGraph.Proofs.Schema.Enumerating
import TypeGraph.Proofs.Registry.Specified
import TypeGraph.Proofs.Schema.Contextual
import TypeGraph.Proofs.Schema.Cycles
import TypeGraph.Proofs.Schema.Shadowing
import TypeGraph.Proofs.Output.Unambiguous
import TypeGraph.Proofs.Output.Comments
import TypeGraph.Proofs.Output.Enclosing
import TypeGraph.Proofs.Output.Lines
import TypeGraph.Proofs.Output.Quoting
import TypeGraph.Proofs.Registry.Rendering
import TypeGraph.Proofs.Schema.Titling
import TypeGraph.Proofs.Schema.Properties
import TypeGraph.Proofs.Schema.Identifiers
import TypeGraph.Proofs.Output.Origins
import TypeGraph.Proofs.Schema.Origins
import TypeGraph.Proofs.Schema.Filtering
import TypeGraph.Proofs.Command.Selecting
import TypeGraph.Proofs.TypeSet.Indexing
import TypeGraph.Proofs.TypeSet.Recursion
