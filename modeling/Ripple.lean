import Ripple.Command.Run
import Ripple.Proofs.Engine.PropertyCache
import Ripple.Proofs.Engine.Repeated
import Ripple.Proofs.Event.Delivery
import Ripple.Proofs.Graph.Clusters
import Ripple.Proofs.Graph.Lineage
import Ripple.Proofs.Graph.Strength
import Ripple.Proofs.History.Ages
import Ripple.Proofs.History.Tagged
import Ripple.Proofs.Outline.Classification
import Ripple.Proofs.Outline.Exports
import Ripple.Proofs.Property.Components
import Ripple.Proofs.Property.Paths
import Ripple.Proofs.Report.Drift
import Ripple.Proofs.Snapshot.Trend
import Ripple.Proofs.Path.Relative
import Ripple.Proofs.Store.OutlineKeys
import Ripple.Proofs.Index.Lines
import Ripple.Proofs.Outline.Searches
import Ripple.Proofs.Outline.TypeText
import Ripple.Proofs.Property.FileIndex
