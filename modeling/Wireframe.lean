import Wireframe.Journal
import Wireframe.Proofs.Acceptance
import Wireframe.Proofs.Agreement
import Wireframe.Proofs.Canonical
import Wireframe.Proofs.Completion
import Wireframe.Proofs.Containment
import Wireframe.Proofs.Cycles
import Wireframe.Proofs.Doubts
import Wireframe.Proofs.Guard
import Wireframe.Proofs.InPlace
import Wireframe.Proofs.Indentation
import Wireframe.Proofs.Leading
import Wireframe.Proofs.LineEnds
import Wireframe.Proofs.Meaning
import Wireframe.Proofs.Mending
import Wireframe.Proofs.Mirror
import Wireframe.Proofs.Normalized
import Wireframe.Proofs.QuotedNumbers
import Wireframe.Proofs.Refusal
import Wireframe.Proofs.Relocation
import Wireframe.Proofs.Reordering
import Wireframe.Proofs.Resolved
import Wireframe.Proofs.Semicolons
import Wireframe.Proofs.Survey
import Wireframe.Proofs.WellFormed
import Wireframe.Proofs.Width
import Wireframe.Proofs.Written
import Wireframe.Schema.Export
import Wireframe.Schema.Shape
