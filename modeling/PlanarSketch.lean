import PlanarSketch.Graph.MinCut
import PlanarSketch.Document.Results
import PlanarSketch.Proofs.Frontier
import PlanarSketch.Proofs.Saturation
import PlanarSketch.Proofs.Overconstraint
import PlanarSketch.Proofs.RoundTrip
import PlanarSketch.Proofs.Resaturation
import PlanarSketch.Proofs.Confluence
import PlanarSketch.Proofs.Evaluation
import PlanarSketch.Proofs.Installation
import PlanarSketch.Proofs.Repetition
import PlanarSketch.Proofs.Bookkeeping
import PlanarSketch.Proofs.Refusals
import PlanarSketch.Proofs.Flags
import PlanarSketch.Proofs.Filtering
import PlanarSketch.Proofs.Leftovers
import PlanarSketch.Proofs.Representation
import PlanarSketch.Proofs.ResultTree
import PlanarSketch.Proofs.Meet
import PlanarSketch.Proofs.Announcements
import PlanarSketch.Proofs.ShortestPaths
import PlanarSketch.Proofs.Components
import PlanarSketch.Proofs.MinimumCut
import PlanarSketch.Proofs.InPlace
import PlanarSketch.Proofs.Odometer
import PlanarSketch.Proofs.Enumeration
import PlanarSketch.Proofs.Inheritance
import PlanarSketch.Proofs.Origins
import PlanarSketch.Proofs.Documents
