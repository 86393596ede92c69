import DiceOdds.Main
import DiceOdds.Proofs.Branches.Consistent
import DiceOdds.Proofs.Choices.Totals
import DiceOdds.Proofs.Choices.Kept
import DiceOdds.Proofs.Counting.Sequences
import DiceOdds.Proofs.Critical.Mixture
import DiceOdds.Proofs.Critical.Refines
import DiceOdds.Proofs.Critical.KeptPool
import DiceOdds.Proofs.Grammar.Unique
import DiceOdds.Proofs.Rendering.RoundTrip
import DiceOdds.Proofs.Mixing.Exact
import DiceOdds.Proofs.Rate.Zero
import DiceOdds.Proofs.Reuse.Conserved
import DiceOdds.Proofs.Reuse.Registry
import DiceOdds.Proofs.Rate.Neutral
import DiceOdds.Proofs.Rate.Monotone
import DiceOdds.Proofs.Parentheses.Formula
import DiceOdds.Proofs.Reuse.Agreement
import DiceOdds.Proofs.Reuse.Whole
import DiceOdds.Proofs.Safety.Answer
import DiceOdds.Proofs.Safety.Progress
import DiceOdds.Proofs.Tokens.Slices
import DiceOdds.Proofs.Dangling.Fatal
import DiceOdds.Proofs.Records.Record
import DiceOdds.Proofs.Nested.Drift
import DiceOdds.Proofs.Choices.Copies
import DiceOdds.Proofs.Critical.Leftmost
import DiceOdds.Proofs.Safety.Division
