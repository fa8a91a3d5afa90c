import Keystroke.Fingerprint.Form
import Keystroke.Fingerprint.Sha256

set_option autoImplicit false

/-! # Fingerprints

The fingerprint of a form is the SHA-256 digest of its bytes. Equations with the same fingerprint
are treated as the same equation. -/

namespace Keystroke

def Form.fingerprint (f : Form) : Bytes := Sha256.digest f.serialize

end Keystroke
