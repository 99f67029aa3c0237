import Formula.Compiler
import Formula.Inspect
import Formula.Proofs.Combining
import Formula.Proofs.Parts
import Formula.Proofs.Written
import Formula.Proofs.Operands
import Formula.Proofs.Delimited
import Formula.Proofs.Quiet
import Formula.Proofs.Linking
import Formula.Proofs.Prefixes
import Formula.Proofs.Literals
import Formula.Proofs.Rendering
import Formula.Proofs.Groups
import Formula.Proofs.Sessions
import Formula.Proofs.Rounding
import Formula.Proofs.Decimals
import Formula.Proofs.Numerals
import Formula.Proofs.Wholes
import Formula.Proofs.Pointed
import Formula.Proofs.Restoring
import Formula.Proofs.Folded
import Formula.Proofs.Brackets
import Formula.Proofs.Spelling
import Formula.Proofs.Calls
import Formula.Proofs.Drafts
import Formula.Proofs.Shapes
import Formula.Proofs.Longest
import Formula.Proofs.Reordering
import Formula.Proofs.Words
import Formula.Proofs.Slicing
import Formula.Proofs.Termination
import Formula.Proofs.Collapsing
import Formula.Proofs.Ahead
import Formula.Proofs.Legible
import Formula.Proofs.Quoting
import Formula.Proofs.Worded
import Formula.Proofs.Joining
import Formula.Proofs.Fractions
import Formula.Proofs.Uncut
import Formula.Proofs.Lexing
import Formula.Proofs.Nesting
import Formula.Proofs.Lossless
import Formula.Proofs.Sameness
import Formula.Proofs.Congruence
import Formula.Proofs.Equalities
import Formula.Proofs.Encoding
import Formula.Proofs.Comparing
import Formula.Proofs.Unquoting
import Formula.Proofs.Accepting
import Formula.Proofs.Faithful
import Formula.Proofs.Projecting
import Formula.Proofs.Positional
