import Reckoner.Text.Field
import Reckoner.Expr.Postfix
import Reckoner.Command.Disk
import Reckoner.Main
import Reckoner.Proofs.Reduction.Agreement
import Reckoner.Proofs.Reduction.Limit
import Reckoner.Proofs.Reduction.Leftmost
import Reckoner.Proofs.Loosening
import Reckoner.Proofs.Reading.Earliest
import Reckoner.Proofs.Command.Modes
import Reckoner.Proofs.Numeral.Results
import Reckoner.Proofs.Numeral.Multiplication
import Reckoner.Proofs.Numeral.Addition
import Reckoner.Proofs.Numeral.Squaring
import Reckoner.Guarded.Basic
import Reckoner.Guarded.Columns
import Reckoner.Guarded.Quotient
import Reckoner.Guarded.Root
import Reckoner.Guarded.Entry
import Reckoner.Proofs.Guarded.Loops
import Reckoner.Proofs.Guarded.Columns
import Reckoner.Guarded.Power
import Reckoner.Proofs.Guarded.Product
import Reckoner.Proofs.Guarded.Quotient
import Reckoner.Proofs.Guarded.Root
import Reckoner.Proofs.Guarded.Entry
import Reckoner.Proofs.Guarded.Safety
import Reckoner.Cursor
import Reckoner.Proofs.Cursor.Sound
import Reckoner.Proofs.Cursor.Reading
import Reckoner.Proofs.Cursor.Run
import Reckoner.Proofs.Cursor.StepsOver
import Reckoner.Proofs.Cursor.Climbs
import Reckoner.Proofs.Cursor.Loops
import Reckoner.Proofs.Reading.Depth
import Reckoner.Proofs.Reading.Nesting
import Reckoner.Proofs.Reading.Stopping
import Reckoner.Proofs.Reading.Relocation
import Reckoner.Proofs.Reading.Names
import Reckoner.Proofs.Token.Patterns
import Reckoner.Proofs.Reduction.Substitution
