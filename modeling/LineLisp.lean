import LineLisp.Main
import LineLisp.Proofs.Console.Endings
import LineLisp.Proofs.FrameStack.Identity
import LineLisp.Proofs.Function.Products
import LineLisp.Proofs.Function.Quotients
import LineLisp.Proofs.Lexeme.Appending
import LineLisp.Proofs.Lexeme.Quotes
import LineLisp.Proofs.NameTable.Numbering
import LineLisp.Proofs.Scope.Nesting
import LineLisp.Proofs.Session.Canonical
import LineLisp.Proofs.Session.Commuting
import LineLisp.Proofs.Session.Data
import LineLisp.Proofs.Session.Lines
import LineLisp.Proofs.Session.Moving
import LineLisp.Proofs.Session.Range
import LineLisp.Proofs.Session.Records
import LineLisp.Proofs.Session.Stateless
import LineLisp.Proofs.Value.Identity
