import PatternInference.Automaton
import PatternInference.Buckets
import PatternInference.Cancellation
import PatternInference.Dump.Parser
import PatternInference.Expr.Printer
import PatternInference.Expr.Substitution
import PatternInference.Expr.Union
import PatternInference.Inference
import PatternInference.Main
import PatternInference.Minimization.Result
import PatternInference.Partition.Audit
import PatternInference.Partition.Runs
import PatternInference.Partition.Split
import PatternInference.Symbol
import PatternInference.Table
import PatternInference.Text.CommonPrefix
import PatternInference.Text.CommonSubstring
import PatternInference.Text.Lines
import PatternInference.Text.Numeral
import PatternInference.Trie.Walk
import PatternInference.Proofs.Minimization.Calls
import PatternInference.Proofs.Partition.Calls
import PatternInference.Proofs.Dump.RoundTrip
import PatternInference.Proofs.Inference.Exactness
import PatternInference.Proofs.Trie.Additions
import PatternInference.Proofs.Minimization.Retries
import PatternInference.Proofs.Pattern.Shown
import PatternInference.Proofs.Expr.Substitution
import PatternInference.Proofs.Factoring.NormalForm
import PatternInference.Proofs.Partition.Halves
import PatternInference.Proofs.Partition.Marks
import PatternInference.Proofs.Automaton.Counts
import PatternInference.Proofs.CommandLine.Dumping
import PatternInference.Proofs.Expr.Constructors
import PatternInference.Proofs.Text.Numeral
import PatternInference.Proofs.Dump.Faults
import PatternInference.Proofs.Equations.Cycles
import PatternInference.Proofs.Minimization.Useful
import PatternInference.Proofs.Minimization.Refusals
import PatternInference.Proofs.Factoring.Shrinking
import PatternInference.Proofs.Partition.Renaming
import PatternInference.Proofs.Trie.CommonPrefix
import PatternInference.Proofs.Text.SharedPrefix
import PatternInference.Proofs.Trie.Preorder
import PatternInference.Proofs.Inference.Repetitions
import PatternInference.Proofs.Expr.Duplicates
import PatternInference.Proofs.CommandLine.Arguments
import PatternInference.Proofs.CommandLine.ExitCodes
import PatternInference.Proofs.CommandLine.DoubleDash
import PatternInference.Proofs.CommandLine.Bytes
import PatternInference.Proofs.Minimization.Cords
