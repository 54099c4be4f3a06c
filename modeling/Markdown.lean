import Markdown.Main
import Markdown.Session
import Markdown.Showcase
import Markdown.Proofs.Escaping
import Markdown.Proofs.Delimiters
import Markdown.Proofs.Taint
import Markdown.Proofs.Columns
import Markdown.Proofs.SafeMode
import Markdown.Proofs.Runs
import Markdown.Proofs.Fences
import Markdown.Proofs.Places
import Markdown.Proofs.Nesting
import Markdown.Proofs.Sessions
import Markdown.Proofs.References
import Markdown.Proofs.Blur
import Markdown.Proofs.Marks
import Markdown.Proofs.Isolation
import Markdown.Proofs.SafeSessions
import Markdown.Proofs.BlockStarts
import Markdown.Proofs.Seams
import Markdown.Proofs.FirstFaults
import Markdown.Proofs.CodeSpans
import Markdown.Proofs.ImageMarks
import Markdown.Proofs.TableFaults
import Markdown.Proofs.Sublists
import Markdown.Proofs.Numbering
import Markdown.Proofs.Links
import Markdown.Proofs.Shapes
import Markdown.Proofs.Documents
import Markdown.Proofs.Bars
import Markdown.Proofs.Options
import Markdown.Proofs.Requests
import Markdown.Proofs.Endings
import Markdown.Proofs.SafeCommands
import Markdown.Proofs.Masks
