import LayoutRule.Main
import LayoutRule.Service.Route
import LayoutRule.Proofs.Command.Pressing
import LayoutRule.Proofs.Editing.Restarting
import LayoutRule.Proofs.Document.Leads
import LayoutRule.Proofs.Parallel.Basic
import LayoutRule.Proofs.Parallel.Lexical
import LayoutRule.Proofs.Parallel.Gaps
import LayoutRule.Proofs.Parallel.Clauses
import LayoutRule.Proofs.Parallel.Contours
import LayoutRule.Proofs.Parallel.Columns
import LayoutRule.Proofs.Request.Measured
import LayoutRule.Proofs.Parallel.Keywords
import LayoutRule.Proofs.Parallel.Requests
import LayoutRule.Proofs.Parallel.Candidates
import LayoutRule.Proofs.Document.Shared
import LayoutRule.Proofs.Request.Independence
import LayoutRule.Proofs.Lexical.Rendering
import LayoutRule.Proofs.Request.Literate
import LayoutRule.Proofs.Request.Depth
import LayoutRule.Proofs.Request.Offers
import LayoutRule.Proofs.Request.Nearest
import LayoutRule.Proofs.Request.Hollow
import LayoutRule.Proofs.Request.Respacing
import LayoutRule.Proofs.Request.Parts
import LayoutRule.Proofs.Layout.Trailing
import LayoutRule.Proofs.Layout.Minima
import LayoutRule.Proofs.Request.Attraction
import LayoutRule.Proofs.Request.CommentLines
import LayoutRule.Proofs.Lexical.Groups
import LayoutRule.Proofs.Request.Origins
import LayoutRule.Proofs.Document.Environments
import LayoutRule.Proofs.Document.Numbering
import LayoutRule.Proofs.Text.FileLines
import LayoutRule.Proofs.Command.Saving
import LayoutRule.Proofs.Service.Statuses
import LayoutRule.Proofs.Request.Matching
import LayoutRule.Proofs.Editing.Aligned
import LayoutRule.Proofs.Layout.Segmentation
import LayoutRule.Proofs.Layout.Hiding
import LayoutRule.Proofs.Request.Openers
import LayoutRule.Proofs.Editing.Caret
import LayoutRule.Proofs.Editing.Realigning
import LayoutRule.Proofs.Document.Coordinates
import LayoutRule.Proofs.Editing.Reindenting
import LayoutRule.Proofs.Document.Returning
import LayoutRule.Proofs.Layout.Markers
import LayoutRule.Proofs.Document.LineMoves
import LayoutRule.Proofs.Lexical.Operators
