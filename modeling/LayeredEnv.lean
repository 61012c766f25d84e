import LayeredEnv.Main
import LayeredEnv.Proofs.Evaluation.Simulation
import LayeredEnv.Proofs.Assembly.Solution
import LayeredEnv.Proofs.Override.Winner
import LayeredEnv.Proofs.Override.Flatten
import LayeredEnv.Proofs.Tokenizing.Reading
import LayeredEnv.Proofs.Rendering.Literal
import LayeredEnv.Proofs.Tokenizing.Shape
import LayeredEnv.Proofs.Tokenizing.Grammar
import LayeredEnv.Proofs.Tokenizing.Steps
import LayeredEnv.Proofs.Tokenizing.Lines
import LayeredEnv.Proofs.Rendering.Reread
import LayeredEnv.Proofs.Rendering.Meaning
import LayeredEnv.Proofs.Tokenizing.Trail
import LayeredEnv.Proofs.Rendering.Misreading
import LayeredEnv.Proofs.Rendering.Faithful
import LayeredEnv.Proofs.Assembly.History
import LayeredEnv.Proofs.Assembly.Requests
import LayeredEnv.Proofs.Store.Graft
import LayeredEnv.Proofs.Inclusion.Expansion
import LayeredEnv.Proofs.Inclusion.Cycle
import LayeredEnv.Proofs.Entry.RoundTrip
import LayeredEnv.Proofs.Loading.Listing
import LayeredEnv.Proofs.Inclusion.Asked
import LayeredEnv.Proofs.Loading.Confinement
import LayeredEnv.Proofs.Loading.Search
import LayeredEnv.Proofs.Entry.Schema
import LayeredEnv.Proofs.Loading.Naming
import LayeredEnv.Proofs.Loading.Paths
import LayeredEnv.Proofs.Tokenizing.Positions
import LayeredEnv.Proofs.Operator.Spellings
import LayeredEnv.Proofs.Pattern.Templates
import LayeredEnv.Proofs.Unicode.RangeSets
import LayeredEnv.Proofs.Pattern.Expressions
import LayeredEnv.Proofs.Pattern.Globbing
import LayeredEnv.Proofs.Pattern.Brackets
import LayeredEnv.Proofs.Pattern.Translation
import LayeredEnv.Proofs.Tokenizing.Drawn
import LayeredEnv.Proofs.Tokenizing.LineEnds
import LayeredEnv.Proofs.Inclusion.Appending
import LayeredEnv.Proofs.Tokenizing.ValueMode
import LayeredEnv.Proofs.Assembly.Extension
import LayeredEnv.Proofs.Compilation.Declaring
import LayeredEnv.Proofs.Evaluation.Untaken
import LayeredEnv.Proofs.Tokenizing.Segments
import LayeredEnv.Proofs.Compilation.Unquoted
import LayeredEnv.Proofs.Tokenizing.NumberSigns
import LayeredEnv.Proofs.Pattern.Trimming
import LayeredEnv.Proofs.Operator.Slicing
import LayeredEnv.Proofs.Tokenizing.NamedValue
import LayeredEnv.Proofs.Tokenizing.FlagLines
import LayeredEnv.Proofs.Assembly.Calls
import LayeredEnv.Proofs.Store.Walk
import LayeredEnv.Proofs.Store.Congruence
