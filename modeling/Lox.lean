import Lox.Main
import Lox.CommandLine
import Lox.Tree.References
import Lox.Proofs.Source.Items
import Lox.Proofs.Source.Respell
import Lox.Proofs.Source.Lines
import Lox.Proofs.Text.Boundary
import Lox.Proofs.Source.Characters
import Lox.Proofs.Store.Forest
import Lox.Proofs.Store.Nearest
import Lox.Proofs.Grammar.Operators
import Lox.Proofs.Machine.Code
import Lox.Proofs.Grammar.Progress
import Lox.Proofs.Scope.Lexical
import Lox.Proofs.Machine.Confined
import Lox.Proofs.Session.Agreement
import Lox.Proofs.Session.Exit
import Lox.Proofs.Session.Joined
import Lox.Proofs.Session.Rejected
import Lox.Proofs.Session.Status
import Lox.Proofs.Session.Return
import Lox.Proofs.Session.Tied
import Lox.Proofs.Grammar.Restart
import Lox.Proofs.Grammar.Written
import Lox.Proofs.Machine.Padded
import Lox.Proofs.Machine.PaddedStep
import Lox.Proofs.Machine.ForLoop
import Lox.Proofs.Machine.Fields
import Lox.Proofs.Machine.Setting
import Lox.Proofs.Session.Properties
import Lox.Proofs.Session.Slices
import Lox.Proofs.Session.Numbering
import Lox.Proofs.Scope.Restored
import Lox.Proofs.Grammar.Reread
