import Testwright.Analysis.Codec
import Testwright.Proofs.Solver.Exact
import Testwright.Search.Codec
import Testwright.Solver.Exact
import Testwright.Suite.Codec
import Testwright.Suite.Hybrid
import Testwright.Proofs.Analysis.Enumeration
import Testwright.Proofs.Analysis.Inputs
import Testwright.Proofs.Suite.Assembly
import Testwright.Proofs.Suite.Goals
import Testwright.Proofs.Suite.MoreTests
import Testwright.Proofs.Ids
import Testwright.Proofs.Search.Names
import Testwright.Proofs.Search.Course
import Testwright.Proofs.Search.Archive
import Testwright.Proofs.Search.Identity
import Testwright.Proofs.Search.Generations
import Testwright.Proofs.Search.Best
import Testwright.Proofs.Search.Coverage
import Testwright.Proofs.Search.Rerun
import Testwright.Proofs.Search.Safety
import Testwright.Proofs.Search.Stopping
import Testwright.Proofs.Solver.Refusals
import Testwright.Proofs.Solver.Extension
import Testwright.Proofs.Solver.Flags
import Testwright.Proofs.Source.TestHead
import Testwright.Proofs.Suite.Suggestions
import Testwright.Proofs.Source.Declarations
import Testwright.Proofs.Suite.Rendering
import Testwright.Proofs.Text.Offsets
import Testwright.Proofs.Text.Spelling
import Testwright.Proofs.Source.Conditions
import Testwright.Proofs.Source.Comparisons
import Testwright.Proofs.Source.Callees
import Testwright.Proofs.Source.CallPatterns
import Testwright.Proofs.Source.Arguments
import Testwright.Proofs.Suite.ReadBack
import Testwright.Proofs.Source.Wrapping
import Testwright.Proofs.Text.Collecting
import Testwright.Proofs.Source.Sites
import Testwright.Proofs.Text.Barrier
import Testwright.Proofs.Source.Comments
import Testwright.Proofs.Source.DisplayNames
import Testwright.Proofs.Path.Tokens
import Testwright.Proofs.Text.Replacing
import Testwright.Proofs.Suite.NormalCode
import Testwright.Proofs.Suite.Mutants
import Testwright.Proofs.Suite.DisplayTexts
import Testwright.Proofs.Suite.Contents
import Testwright.Proofs.Search.Crossing
import Testwright.Proofs.Search.Opposites
import Testwright.Proofs.Search.StandIns
import Testwright.Proofs.Solver.LastWord
import Testwright.Proofs.Path.Rendering
import Testwright.Proofs.Source.Assignments
import Testwright.Proofs.Search.Lineages
import Testwright.Proofs.Suite.Ranking
import Testwright.Proofs.Analysis.Suggested
import Testwright.Proofs.Codec
