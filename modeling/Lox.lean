import Lox.Main
import Lox.Proofs.Grammar.Acceptance
import Lox.Proofs.Evaluation.Names
import Lox.Proofs.Runs
import Lox.Proofs.Source.Lexeme
import Lox.Proofs.Source.Regions
import Lox.Proofs.Source.Spelling
import Lox.Proofs.Source.Longest
import Lox.Proofs.Source.Growth
import Lox.Proofs.Source.MaximalMunch
import Lox.Proofs.Grammar.Bound
import Lox.Proofs.Grammar.Speculation
import Lox.Proofs.Grammar.Rejection
import Lox.Proofs.Grammar.Layout
import Lox.Proofs.Grammar.Relocation
import Lox.Proofs.Evaluation.Resolution
import Lox.Proofs.Evaluation.Likeness
import Lox.Proofs.Evaluation.Placement
import Lox.Proofs.Evaluation.Following
import Lox.Proofs.Evaluation.Simulation
import Lox.Proofs.Evaluation.Coherence
import Lox.Proofs.Evaluation.Capacity
import Lox.Proofs.Evaluation.Depth
import Lox.Proofs.Evaluation.CountingLoop
import Lox.Proofs.Source.Joining
import Lox.Proofs.Joining
import Lox.Proofs.Layout
import Lox.Proofs.Provenance
import Lox.Proofs.Evaluation.EarlierOutput
import Lox.Proofs.Session
import Lox.Proofs.Source.Quoted
import Lox.Proofs.Source.Spacing
import Lox.Proofs.Source.Rescanning
import Lox.Proofs.Printing
import Lox.Proofs.Source.Pulling
import Lox.Proofs.Source.LineByLine
import Lox.Proofs.Arithmetic
import Lox.Proofs.Evaluation.Moments
import Lox.Proofs.Evaluation.Steps
import Lox.Proofs.Evaluation.Redirection
import Lox.Proofs.Grammar.Guarded
import Lox.Proofs.Grammar.Agreement
import Lox.Proofs.Grammar.Safety
import Lox.Proofs.Evaluation.Search
import Lox.Proofs.Evaluation.Forest
import Lox.Proofs.Evaluation.Declarations
import Lox.Proofs.Evaluation.Equality
import Lox.Proofs.Evaluation.Identity
import Lox.Proofs.Evaluation.Rooted
import Lox.Proofs.Number.Exact
import Lox.Proofs.Number.Printed
