import Preproc.Include.FileTree
import Preproc.Proofs.Condition.Constant
import Preproc.Proofs.Condition.Range
import Preproc.Proofs.Expansion.CallSite
import Preproc.Proofs.Expansion.Folding
import Preproc.Proofs.Expansion.ObjectLike
import Preproc.Proofs.Expansion.Peeking
import Preproc.Proofs.Expansion.Recovery
import Preproc.Proofs.Expansion.Splitting
import Preproc.Proofs.Expansion.Substitution
import Preproc.Proofs.Macro.Coverage
import Preproc.Proofs.Session.Closing
import Preproc.Proofs.Session.FileName
import Preproc.Proofs.Session.FileStack
import Preproc.Proofs.Session.Frames
import Preproc.Proofs.Session.Group
import Preproc.Proofs.Session.Refusal
import Preproc.Proofs.Session.Restore
import Preproc.Proofs.Session.Severity
import Preproc.Proofs.Source.Physical
import Preproc.Proofs.Stream.Concatenation
