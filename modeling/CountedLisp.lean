import CountedLisp.Check
import CountedLisp.Main
import CountedLisp.Proofs.Collection
import CountedLisp.Proofs.Invariant
import CountedLisp.Proofs.Pairing
import CountedLisp.Proofs.Evaluation
import CountedLisp.Proofs.Source
import CountedLisp.Proofs.Safety
import CountedLisp.Proofs.Contract
import CountedLisp.Proofs.Accounting
import CountedLisp.Proofs.Precision
import CountedLisp.Proofs.Invisibility
import CountedLisp.Proofs.Rounding
import CountedLisp.Proofs.Shortest
import CountedLisp.Proofs.Numeral
import CountedLisp.Proofs.Layout
import CountedLisp.Proofs.Token
import CountedLisp.Proofs.Reading
import CountedLisp.Proofs.Building
import CountedLisp.Proofs.RoundTrip
import CountedLisp.Proofs.Nesting
import CountedLisp.Proofs.Verdict
import CountedLisp.Proofs.Growth
import CountedLisp.Proofs.Course
import CountedLisp.Proofs.Frames
import CountedLisp.Proofs.Extension
import CountedLisp.Proofs.Lasting
import CountedLisp.Proofs.Session
import CountedLisp.Proofs.Lines
import CountedLisp.Proofs.FiniteMap
import CountedLisp.Proofs.Interning
import CountedLisp.Proofs.Conduct
import CountedLisp.Proofs.Symbols
import CountedLisp.Proofs.Guard
import CountedLisp.Proofs.Restoration
import CountedLisp.Proofs.Formwise
import CountedLisp.Proofs.Preread
import CountedLisp.Proofs.Debugging
import CountedLisp.Proofs.Expression
import CountedLisp.Proofs.Substitution
import CountedLisp.Proofs.Simultaneous
import CountedLisp.Proofs.Reduction
import CountedLisp.Proofs.Installed
import CountedLisp.Proofs.StructuralEquality
import CountedLisp.Proofs.LibraryFunction
import CountedLisp.Proofs.ListWalk
import CountedLisp.Proofs.Membership
import CountedLisp.Proofs.Position
import CountedLisp.Proofs.Copying
import CountedLisp.Proofs.Residue
import CountedLisp.Proofs.Fuel
import CountedLisp.Proofs.Identity
import CountedLisp.Proofs.Mapping
import CountedLisp.Proofs.Elementwise
import CountedLisp.Proofs.Loop
import CountedLisp.Proofs.Numbering
import CountedLisp.Proofs.Ancestry
import CountedLisp.Proofs.Equivalence
import CountedLisp.Proofs.Limit
import CountedLisp.Proofs.Scanning
import CountedLisp.Proofs.Progress
