import LoxLang.Main
import LoxLang.Proofs.Grammar.Exact
import LoxLang.Proofs.Grammar.Braces
import LoxLang.Proofs.Grammar.Segments
import LoxLang.Proofs.Grammar.Recovery
import LoxLang.Proofs.Grammar.Ends
import LoxLang.Proofs.Token.Rescan
import LoxLang.Proofs.Token.Results
import LoxLang.Proofs.Session.Agreement
import LoxLang.Proofs.Renaming.Session
import LoxLang.Proofs.Code.Session
import LoxLang.Proofs.Twins.Session
import LoxLang.Proofs.Splitting.Session
import LoxLang.Proofs.Splitting.Results
import LoxLang.Proofs.Splitting.Expression
import LoxLang.Proofs.Curbed.Redefinition
import LoxLang.Proofs.Curbed.Output
import LoxLang.Proofs.Twins.Standing
import LoxLang.Proofs.Receiver.Session
import LoxLang.Proofs.Lexical.Program
import LoxLang.Proofs.Machine.Restored
import LoxLang.Proofs.Machine.Distance
import LoxLang.Proofs.Padding.Programs
import LoxLang.Proofs.Tree.Readable
import LoxLang.Proofs.Objects.Session
