import Galley.Main
import Galley.Proofs.Rounds
import Galley.Proofs.Faults.Run
import Galley.Proofs.View
import Galley.Proofs.Answers
import Galley.Proofs.Conditionals
import Galley.Proofs.Balance
import Galley.Proofs.Calls
import Galley.Proofs.Remaining
import Galley.Proofs.Characters
import Galley.Proofs.Captured
import Galley.Proofs.Writing
import Galley.Proofs.Places
import Galley.Proofs.Stream
import Galley.Proofs.Extension
import Galley.Proofs.Lines
import Galley.Proofs.WellFormed
import Galley.Proofs.LineTokens
import Galley.Proofs.Scanning
import Galley.Proofs.Quantities
import Galley.Proofs.Rounding
import Galley.Proofs.Numerals
import Galley.Proofs.Lengths
import Galley.Proofs.Sizes
import Galley.Proofs.Legible
import Galley.Proofs.Spelling
import Galley.Proofs.Room
import Galley.Proofs.Strictness
import Galley.Proofs.Reports
import Galley.Proofs.Blame.Run
import Galley.Proofs.CallGrammar
import Galley.Proofs.BoxSizes
import Galley.Proofs.Assignments
import Galley.Proofs.Bodies
import Galley.Proofs.Typesetting
import Galley.Proofs.Upcoming
import Galley.Proofs.Lookahead
import Galley.Proofs.LineSpaces
import Galley.Proofs.Integers
import Galley.Proofs.Measures
import Galley.Proofs.Continuing
import Galley.Proofs.Interruption
import Galley.Proofs.Rules
import Galley.Proofs.Spans
import Galley.Proofs.WhiteSpace
import Galley.Proofs.RankedCalls
import Galley.Proofs.GlueSums
import Galley.Proofs.CallChain
import Galley.Proofs.FlatSkipping
import Galley.Proofs.Ending.Run
import Galley.Proofs.ChunkStack
