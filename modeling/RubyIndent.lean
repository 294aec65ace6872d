import RubyIndent.Main
import RubyIndent.Proofs.Document.Acceptance
import RubyIndent.Proofs.Document.Agreement
import RubyIndent.Proofs.Document.Brackets
import RubyIndent.Proofs.Document.Closing
import RubyIndent.Proofs.Document.Depth
import RubyIndent.Proofs.Document.Diagnostics
import RubyIndent.Proofs.Document.Forgetting
import RubyIndent.Proofs.Document.HeredocBodies
import RubyIndent.Proofs.Document.HeredocExtent
import RubyIndent.Proofs.Document.Inertness
import RubyIndent.Proofs.Document.Isolation
import RubyIndent.Proofs.Document.Keywords
import RubyIndent.Proofs.Document.LineEndings
import RubyIndent.Proofs.Document.Progress
import RubyIndent.Proofs.Document.WrittenDirectives
import RubyIndent.Proofs.Files.Paths
import RubyIndent.Proofs.Peg.Building
import RubyIndent.Proofs.Peg.Counters
import RubyIndent.Proofs.Peg.LeftRecursion
import RubyIndent.Proofs.Peg.Rendering
import RubyIndent.Proofs.Peg.Spans
import RubyIndent.Proofs.Ruby.StringSyntax
import RubyIndent.Proofs.Run.Changes
import RubyIndent.Proofs.Run.Discovery
import RubyIndent.Proofs.Run.Rechecking
