import ApiReview.Main
import ApiReview.Proofs.Settings.Typed
import ApiReview.Proofs.Pipeline.Settling
import ApiReview.Proofs.Pipeline.ReportFolder
import ApiReview.Proofs.Pipeline.Supplied
import ApiReview.Proofs.Settings.Inheritance
import ApiReview.Proofs.Settings.Parent
import ApiReview.Proofs.Settings.Transparent
import ApiReview.Proofs.Settings.Spelling
import ApiReview.Proofs.DocComment.Circular
import ApiReview.Proofs.Analysis.Shadowing
import ApiReview.Proofs.Pipeline.Drift
import ApiReview.Proofs.Pipeline.Products
import ApiReview.Proofs.Files.Moved
import ApiReview.Proofs.Settings.LikePaths
import ApiReview.Proofs.DocComment.Moved
import ApiReview.Proofs.Settings.MovedDocuments
import ApiReview.Proofs.Settings.MovedSettings
import ApiReview.Proofs.Settings.Relocation
import ApiReview.Proofs.Message.Flush
import ApiReview.Proofs.Message.Isolation
import ApiReview.Proofs.Settings.RoundTrip
import ApiReview.Proofs.Pipeline.FailStop
import ApiReview.Proofs.Settings.BelowFolder
import ApiReview.Proofs.Path.Relative
import ApiReview.Proofs.DocComment.Applied
import ApiReview.Proofs.DocComment.MetadataPath
import ApiReview.Proofs.Text.LineEnding
import ApiReview.Proofs.Settings.ShortPath
import ApiReview.Proofs.Settings.ReportName
import ApiReview.Proofs.Pipeline.NewerEngine
import ApiReview.Proofs.Path.Reduced
import ApiReview.Proofs.Json.Laid
import ApiReview.Proofs.Settings.Token
import ApiReview.Proofs.Settings.Label
