import Treewalk.Main
import Treewalk.Parse.Program
import Treewalk.Run.Machine
import Treewalk.Token.Lexer
import Treewalk.Tree.Printer
import Treewalk.Proofs.Evaluation.Rules
import Treewalk.Proofs.Evaluation.Leaves
import Treewalk.Proofs.Evaluation.Agreement
import Treewalk.Proofs.Grammar.Rules
import Treewalk.Proofs.Grammar.Soundness
import Treewalk.Proofs.Grammar.Completeness
import Treewalk.Proofs.Lexical.Symbols
import Treewalk.Proofs.Arithmetic.Terms
import Treewalk.Proofs.Arithmetic.Exactness
import Treewalk.Proofs.Lexical.Spelling
import Treewalk.Proofs.Shape.Programs
import Treewalk.Proofs.Grammar.Refusals
import Treewalk.Proofs.Evaluation.Equivalence
import Treewalk.Proofs.Grammar.Folding
import Treewalk.Proofs.Lexical.Patterns
import Treewalk.Proofs.Lexical.Lexemes
import Treewalk.Proofs.Lexical.MaximalMunch
import Treewalk.Proofs.Lexical.Tokens
import Treewalk.Proofs.Program.Concatenation
import Treewalk.Proofs.Tree.Parts
import Treewalk.Proofs.Evaluation.Simulation
import Treewalk.Proofs.Evaluation.Locality
import Treewalk.Proofs.Evaluation.Opacity
import Treewalk.Proofs.Lexical.Tiling
import Treewalk.Proofs.Grammar.Places
import Treewalk.Proofs.Lexical.Seams
import Treewalk.Proofs.Program.Layout
import Treewalk.Proofs.Arithmetic.Wrapping
import Treewalk.Proofs.Evaluation.Inputs
import Treewalk.Proofs.Program.Diagnostics
import Treewalk.Proofs.Program.Reports
import Treewalk.Proofs.Grammar.Termination
import Treewalk.Proofs.Shape.Expressions
import Treewalk.Proofs.Evaluation.Loops
import Treewalk.Proofs.Evaluation.Counting
import Treewalk.Proofs.Grammar.Beginnings
import Treewalk.Proofs.Grammar.OpenStatements
import Treewalk.Proofs.Text.Quotation
import Treewalk.Proofs.Tree.Readability
import Treewalk.Proofs.Lexical.Printing
import Treewalk.Proofs.Program.Decimals
import Treewalk.Proofs.Evaluation.Renaming
import Treewalk.Proofs.Evaluation.Reads
import Treewalk.Proofs.Evaluation.Faults
import Treewalk.Proofs.Source.Positions
import Treewalk.Proofs.Arithmetic.Division
import Treewalk.Proofs.Program.Sizes
import Treewalk.Proofs.Grammar.Lookahead
import Treewalk.Proofs.Evaluation.Calls
