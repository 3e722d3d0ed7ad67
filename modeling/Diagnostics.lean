import Diagnostics.Main
import Diagnostics.Proofs.Session.Duplicates
import Diagnostics.Proofs.Session.Transcript
import Diagnostics.Proofs.Position.Grammar
import Diagnostics.Proofs.Position.Join
import Diagnostics.Proofs.SourceName
import Diagnostics.Proofs.Excerpt
import Diagnostics.Proofs.Fill.Refill
import Diagnostics.Proofs.Spelling.Buffers
import Diagnostics.Proofs.CommandLine.Interleaving
import Diagnostics.Proofs.CommandLine.Reports
import Diagnostics.Proofs.CommandLine.Endings
