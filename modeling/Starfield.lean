import Starfield.Main
import Starfield.Frame
import Starfield.Proofs.Frame.Outcome
import Starfield.Proofs.Ownership
import Starfield.Proofs.Frame.Tracking
import Starfield.Proofs.Frame.Drawn
import Starfield.Proofs.Mirror
import Starfield.Proofs.Cut
import Starfield.Proofs.Batch
import Starfield.Proofs.Occupancy
import Starfield.Proofs.Archive.Records
import Starfield.Proofs.Archive.Trees
import Starfield.Proofs.Contents
import Starfield.Proofs.Recount
import Starfield.Proofs.Delta
import Starfield.Proofs.Replies
import Starfield.Proofs.Archive.Reload
import Starfield.Proofs.Archive.Grammar
import Starfield.Proofs.Flat.Columns
import Starfield.Proofs.Flat.Growth
import Starfield.Proofs.Flat.Safety
import Starfield.Proofs.Flat.Sessions
import Starfield.Proofs.Counts
import Starfield.Proofs.Shape
import Starfield.Proofs.Frame.Packing
import Starfield.Proofs.Frame.Quiet
import Starfield.Proofs.Successive
import Starfield.Proofs.Stillness
import Starfield.Proofs.Frame.Tenure
import Starfield.Proofs.Lag
import Starfield.Proofs.Catalogs
import Starfield.Proofs.Feeding
import Starfield.Proofs.Restart
import Starfield.Proofs.Build
import Starfield.Proofs.Inspection
import Starfield.Proofs.Routes
import Starfield.Proofs.AnyOrder
import Starfield.Proofs.Separation
import Starfield.Proofs.Shortage
import Starfield.Proofs.Repacking
import Starfield.Proofs.Exchange
import Starfield.Proofs.Foresight
import Starfield.Proofs.Details
import Starfield.Proofs.Clients
import Starfield.Proofs.Extent
import Starfield.Proofs.Stacking
import Starfield.Proofs.Archive.Truncation
import Starfield.Proofs.Offsets
import Starfield.Proofs.Pieces
import Starfield.Proofs.Comparison
import Starfield.Proofs.Outline
import Starfield.Proofs.Containment
import Starfield.Proofs.Logging
