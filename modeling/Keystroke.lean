import Keystroke.Main
import Keystroke.Proofs.Algebra.Positions
import Keystroke.Proofs.Algebra.Sentence
import Keystroke.Proofs.Compile.Dependence
import Keystroke.Proofs.Editor.Hovering
import Keystroke.Proofs.Fingerprint.Decodable
import Keystroke.Proofs.Fingerprint.Renaming
import Keystroke.Proofs.Program.Decoding
import Keystroke.Proofs.Snapshot.Bytes
import Keystroke.Proofs.Snapshot.Safety
import Keystroke.Proofs.Store.Endless
import Keystroke.Proofs.Store.Cutting
import Keystroke.Proofs.Compile.Jumps
import Keystroke.Proofs.Machine.Callers
import Keystroke.Proofs.Machine.UserReturns
import Keystroke.Proofs.Machine.Afoot
