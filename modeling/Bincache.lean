import Bincache.Accounting
import Bincache.Catalogue
import Bincache.Changes
import Bincache.Cleanup
import Bincache.Convergence
import Bincache.Core.Fingerprint
import Bincache.Core.NarInfoParse
import Bincache.Core.RoundTrip
import Bincache.Core.Unambiguous
import Bincache.Deletion
import Bincache.Downloads
import Bincache.Index
import Bincache.Ingest.Auth
import Bincache.Ingest.Bookkeeping
import Bincache.Ingest.Maintain
import Bincache.Ingest.Push
import Bincache.Ingest.Reconciling
import Bincache.Ingest.Rotation
import Bincache.Ingest.Signed
import Bincache.KeyText
import Bincache.Lib.Attempt
import Bincache.Lib.FileSystem
import Bincache.Lib.Glance
import Bincache.Lib.Granting
import Bincache.Lib.Interference
import Bincache.Lib.Journal
import Bincache.Lib.Pace
import Bincache.Naming
import Bincache.PowerLoss
import Bincache.Provenance
import Bincache.Pull
import Bincache.Pushing
import Bincache.Reads
import Bincache.Recovery
import Bincache.Refinement
import Bincache.Serve.Books
import Bincache.Serve.Boundaries
import Bincache.Serve.Connection
import Bincache.Serve.Conservation
import Bincache.Serve.Credentials
import Bincache.Serve.Exchanges
import Bincache.Serve.Failures
import Bincache.Serve.Framing
import Bincache.Serve.Granted
import Bincache.Serve.Handler
import Bincache.Serve.Heads
import Bincache.Serve.Landing
import Bincache.Serve.Range
import Bincache.Serve.RangeGrammar
import Bincache.Serve.Response
import Bincache.Serve.Route
import Bincache.Serve.Segmentation
import Bincache.Serve.Spans
import Bincache.Serve.Traces
import Bincache.Serve.Unauthorized
import Bincache.Shared
import Bincache.SharedPush
import Bincache.SharedUpload
import Bincache.Siblings
import Bincache.Store
import Bincache.Watchdog
import Bincache.World
