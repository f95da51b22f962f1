import HaarDetection.Cascade.Basic
import HaarDetection.Cascade.Definition
import HaarDetection.Cascade.Document
import HaarDetection.Cascade.Error
import HaarDetection.Cascade.Feature
import HaarDetection.Cascade.Stage
import HaarDetection.Cascade.Tree
import HaarDetection.Classifier
import HaarDetection.Decimal.Layout
import HaarDetection.Decimal.Numeral
import HaarDetection.Decimal.Shortest
import HaarDetection.Files
import HaarDetection.Geometry.Rect
import HaarDetection.Geometry.Size
import HaarDetection.Image.Buffers
import HaarDetection.Image.Fault
import HaarDetection.Image.Integral
import HaarDetection.Image.Pixels
import HaarDetection.Image.Probe
import HaarDetection.Image.Query
import HaarDetection.Image.TiltedBuffers
import HaarDetection.Image.UprightBuffers
import HaarDetection.Json.Printer
import HaarDetection.Json.Record
import HaarDetection.Json.Token
import HaarDetection.Json.Value
import HaarDetection.Merge.Cluster
import HaarDetection.Merge.Detection
import HaarDetection.Merge.Grouper
import HaarDetection.Merge.NonOverlap
import HaarDetection.Number.Convert
import HaarDetection.Number.Scalar
import HaarDetection.Number.TotalOrder
import HaarDetection.Search.Detector
import HaarDetection.Search.Options
import HaarDetection.Search.OptionsDocument
import HaarDetection.Search.Scan
import HaarDetection.Search.Schedule
import HaarDetection.Search.Session
import HaarDetection.Timer
import HaarDetection.Workers
import HaarDetection.Proofs.Number.Nearest
import HaarDetection.Proofs.Number.Rounding
import HaarDetection.Proofs.Number.Arithmetic
import HaarDetection.Proofs.Cascade.Accepted
import HaarDetection.Proofs.Cascade.Queries
import HaarDetection.Proofs.Cascade.Stump
import HaarDetection.Proofs.Image.Tables
import HaarDetection.Proofs.Image.Tilted
import HaarDetection.Proofs.Image.Upright
import HaarDetection.Proofs.Merge.Means
import HaarDetection.Proofs.Search.Enumeration
import HaarDetection.Proofs.Search.Modes
import HaarDetection.Proofs.Search.Placement
import HaarDetection.Proofs.Search.Safety
import HaarDetection.Proofs.Merge.Grouper
import HaarDetection.Proofs.Search.Sessions
import HaarDetection.Proofs.Search.Cancellation
import HaarDetection.Proofs.Image.Covered
import HaarDetection.Proofs.Classifier.Verdicts
import HaarDetection.Proofs.Classifier.PixelSums
import HaarDetection.Proofs.Classifier.Locality
import HaarDetection.Proofs.Classifier.Brightness
import HaarDetection.Proofs.Cascade.Builders
import HaarDetection.Proofs.Cascade.Loading
import HaarDetection.Proofs.Decimal.Printed
import HaarDetection.Proofs.Decimal.Readings
import HaarDetection.Proofs.Json.Lexing
import HaarDetection.Proofs.Json.RoundTrip
import HaarDetection.Proofs.Cascade.Documents
import HaarDetection.Proofs.Cascade.Saving
import HaarDetection.Proofs.Cascade.Evaluation
import HaarDetection.Proofs.Classifier.ShortCircuit
import HaarDetection.Proofs.Merge.Greedy
import HaarDetection.Proofs.Number.Convert
import HaarDetection.Proofs.Number.TotalOrder
import HaarDetection.Proofs.Merge.Scales
import HaarDetection.Proofs.Classifier.Variance
import HaarDetection.Proofs.Image.Contrast
import HaarDetection.Proofs.Classifier.Contrast
import HaarDetection.Proofs.Geometry.Overlap
import HaarDetection.Proofs.Number.Quotient
import HaarDetection.Proofs.Merge.NonOverlap
import HaarDetection.Proofs.Number.NearestInteger
import HaarDetection.Proofs.Merge.Blocks
import HaarDetection.Proofs.Merge.Multiplicity
import HaarDetection.Proofs.Geometry.Ratios
import HaarDetection.Proofs.Search.Schedules
import HaarDetection.Proofs.Cascade.Routes
import HaarDetection.Proofs.Classifier.Scales
import HaarDetection.Proofs.Geometry.Intersections
import HaarDetection.Proofs.Search.Termination
import HaarDetection.Proofs.Geometry.Counts
import HaarDetection.Proofs.Image.Triangles
import HaarDetection.Proofs.Image.Loops
import HaarDetection.Proofs.Image.UprightBuffers
import HaarDetection.Proofs.Merge.Neighbors
import HaarDetection.Proofs.Merge.Turns
