import Mapling.Policy.Json
import Mapling.Proofs.Policy.Display
import Mapling.Proofs.Policy.Interchange
import Mapling.Text.Quoted
import Mapling.Proofs.Continuation.Refusals
import Mapling.Proofs.Continuation.Termination
import Mapling.Proofs.Slots.Sessions
import Mapling.Proofs.Value.Equality
import Mapling.Proofs.Continuation.Preservation
import Mapling.Proofs.Eval.Limit
import Mapling.Proofs.Syntax.Scanning
import Mapling.Proofs.Arena.Limit
import Mapling.Proofs.Arena.Sharing
import Mapling.Proofs.Arena.Termination
import Mapling.Proofs.Syntax.TokenTexts
import Mapling.Proofs.Scope.Reporting
import Mapling.Proofs.Syntax.Pointing
import Mapling.Proofs.Json.Records
import Mapling.Proofs.Continuation.Capture
import Mapling.Proofs.Continuation.Hygiene
