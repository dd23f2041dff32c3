import PixelRecord.CommandLine.FileTree
import PixelRecord.Main
import PixelRecord.Proofs.Catalog
import PixelRecord.Proofs.ChannelText
import PixelRecord.Proofs.CommandLine.Arguments
import PixelRecord.Proofs.CommandLine.Composite
import PixelRecord.Proofs.CommandLine.FileTree
import PixelRecord.Proofs.Composite.Accuracy
import PixelRecord.Proofs.Composite.AlphaDrift
import PixelRecord.Proofs.Composite.Coverage
import PixelRecord.Proofs.Composite.Geometry
import PixelRecord.Proofs.Composite.Identities
import PixelRecord.Proofs.Composite.Images
import PixelRecord.Proofs.Composite.Masks
import PixelRecord.Proofs.Composite.Order
import PixelRecord.Proofs.Composite.Replacement
import PixelRecord.Proofs.Composite.Strict
import PixelRecord.Proofs.Composite.Tiles
import PixelRecord.Proofs.Composite.Transparent
import PixelRecord.Proofs.DeviceColor.Alpha
import PixelRecord.Proofs.DeviceColor.RoundTrip
import PixelRecord.Proofs.Layout.Acceptance
import PixelRecord.Proofs.MemoryOrder
import PixelRecord.Proofs.Mix.Collection
import PixelRecord.Proofs.Mix.Means
import PixelRecord.Proofs.Mix.Transparent
import PixelRecord.Proofs.Picture.Imported
import PixelRecord.Proofs.Picture.Pointwise
import PixelRecord.Proofs.Picture.Tasks
import PixelRecord.Proofs.Session
import PixelRecord.Proofs.Settings
