import PatternCircuit.Main
import PatternCircuit.Proofs.ActiveState
import PatternCircuit.Proofs.Circuit.Correctness
import PatternCircuit.Proofs.Codec
import PatternCircuit.Proofs.Compile.Failure
import PatternCircuit.Proofs.CompletedMatch
import PatternCircuit.Proofs.Disclosure
import PatternCircuit.Proofs.Negation
import PatternCircuit.Proofs.Padding
import PatternCircuit.Proofs.Pattern.Alphabet
import PatternCircuit.Proofs.Pattern.Grammar
import PatternCircuit.Proofs.Reloading
import PatternCircuit.Proofs.SafeExecution
import PatternCircuit.Proofs.Secrecy
import PatternCircuit.Proofs.SingleAccept
import PatternCircuit.Proofs.Tracking
import PatternCircuit.Proofs.WholeMatch
import PatternCircuit.Proofs.Pattern.Parsing
import PatternCircuit.Proofs.Pattern.Hygiene
import PatternCircuit.Proofs.Automaton.Coarsest
import PatternCircuit.Proofs.StepMeaning
import PatternCircuit.Proofs.Circuit.Sizing
import PatternCircuit.Proofs.Automaton.Discovery
import PatternCircuit.Proofs.Automaton.StateName
import PatternCircuit.Proofs.Automaton.Idempotent
import PatternCircuit.Proofs.Automaton.Loading
import PatternCircuit.Proofs.IdleBytes
import PatternCircuit.Proofs.SubPattern
import PatternCircuit.Proofs.Pattern.Spans
import PatternCircuit.Proofs.Pattern.Origins
import PatternCircuit.Proofs.Automaton.Closure
import PatternCircuit.Proofs.Automaton.RefinementLoop
import PatternCircuit.Proofs.ByteSet
import PatternCircuit.Proofs.LabelOrder
import PatternCircuit.Proofs.Program.Comparisons
