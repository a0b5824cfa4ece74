import AttributeTrees.Json.Assembly
import AttributeTrees.Json.Decode
import AttributeTrees.Main
import AttributeTrees.Proofs.Json.Stream.Protocol
import AttributeTrees.Proofs.Json.Streaming
import AttributeTrees.Proofs.Store.Rebuilding
import AttributeTrees.Store.Access
import AttributeTrees.Proofs.Config.Lookups
import AttributeTrees.Proofs.Access.Simulation
import AttributeTrees.Proofs.Store.Handles
import AttributeTrees.Proofs.Store.Walk
import AttributeTrees.Proofs.Document.Places
import AttributeTrees.Proofs.Json.Ways
import AttributeTrees.Proofs.Store.Reports
import AttributeTrees.Proofs.Access.Layers
import AttributeTrees.Proofs.Store.Sight
import AttributeTrees.Proofs.Store.Overlays
import AttributeTrees.Proofs.Store.Course
import AttributeTrees.Proofs.Store.Listings
import AttributeTrees.Proofs.Json.Merging
import AttributeTrees.Proofs.Store.Merging
import AttributeTrees.Proofs.NodeTable.Accounts
import AttributeTrees.Proofs.Feed
import AttributeTrees.Proofs.Config.Agreement
import AttributeTrees.Proofs.Document.Leading
import AttributeTrees.Proofs.Store.Precedence
import AttributeTrees.Proofs.Text.Utf8
import AttributeTrees.Proofs.Json.Stream.Literal
import AttributeTrees.Proofs.Json.Stream.Positions
import AttributeTrees.Proofs.Json.Adding
import AttributeTrees.Proofs.Store.Confined
import AttributeTrees.Proofs.Store.Searches
import AttributeTrees.Proofs.Run
import AttributeTrees.Proofs.Visit.Truncation
import AttributeTrees.Proofs.Visit.Printing
import AttributeTrees.Proofs.Visit.Unambiguous
import AttributeTrees.Proofs.Yaml.Replay
import AttributeTrees.Proofs.Span
import AttributeTrees.Proofs.Document.Windows
import AttributeTrees.Proofs.Store.Blobs
import AttributeTrees.Proofs.Config.Offers
import AttributeTrees.Proofs.Config.Options
import AttributeTrees.Proofs.Path
import AttributeTrees.Proofs.Json.Stream.Frames
