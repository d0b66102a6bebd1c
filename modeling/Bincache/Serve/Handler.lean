import Bincache.Ingest.Auth
import Bincache.Ingest.Push
import Bincache.Serve.Connection
import Bincache.Serve.Range
import Bincache.Serve.Response
import Bincache.Serve.Route

/-!
# What each route does

`handle` answers one request and says whether the connection survives. A handler that reads the body
returns the connection with what is left in its buffer; the others leave it as it was.
-/

namespace Bincache

/-! ## The two fixed pages -/

/-- Whether the cache invites bulk queries. -/
inductive MassQuery
  | wanted
  | unwanted
deriving DecidableEq

def MassQuery.digit : MassQuery → Text
  | wanted => ['1']
  | unwanted => ['0']

structure CacheInfo where
  storeDir : Dir
  massQuery : MassQuery
  priority : ℕ

/-- The three lines a client reads first. -/
def CacheInfo.render (info : CacheInfo) : Text :=
  NarInfo.line "StoreDir".toList info.storeDir.text
    ++ NarInfo.line "WantMassQuery".toList info.massQuery.digit
    ++ NarInfo.line "Priority".toList (Text.decimal info.priority)

def Totals.render (totals : Totals) (shards paths : ℕ) : Text :=
  [("bincache_requests_total".toList, totals.requests),
    ("bincache_metadata_hits_total".toList, totals.metadataHits),
    ("bincache_metadata_misses_total".toList, totals.metadataMisses),
    ("bincache_payload_bytes_total".toList, totals.payloadBytes),
    ("bincache_uploads_total".toList, totals.uploads),
    ("bincache_rejections_total".toList, totals.rejections),
    ("bincache_shards".toList, shards),
    ("bincache_paths".toList, paths)].flatMap fun (name, value) ↦
      name ++ ' ' :: Text.decimal value ++ ['\n']

namespace Handler

def cacheInfoType : Text := "text/x-nix-cache-info".toList

def metricsType : Text := "text/plain; version=0.0.4".toList

def refusalType : Text := "text/plain; charset=utf-8".toList

inductive Error
  | connection (source : Connection.Error)
  | index (source : IndexError)
  | store (source : Store.Error)
  | upload (source : Upload.Error)
deriving DecidableEq

/-- Whether the request's body has been read off the socket. -/
inductive Drained
  | consumed
  | unread
deriving DecidableEq

/-- A refused push, resolved into what the wire needs. -/
structure Refusal where
  status : Response.Status
  message : Option Text

def Refusal.new (fault : Fault) (message : Text) : Refusal :=
  match fault with
  | .client => ⟨.badRequest, some (message ++ ['\n'])⟩
  | .server => ⟨.serverError, none⟩

end Handler

/-- One request on one connection. -/
structure Exchange where
  shard : ℕ
  connection : Connection
  request : Http.Request

/-- Everything a shard needs to answer a request. -/
structure Cache where
  ingest : Ingest
  tokens : Tokens
  /-- The rendered cache info. -/
  info : Text
  /-- How many shards there are. -/
  shards : ℕ

namespace Cache

open Handler Response

variable [Crates] (cache : Cache) (exchange : Exchange)

omit [Crates] in
def bump {ε : Type} (shard : ℕ) (counter : Counter) (amount : ℕ) : Call ε Unit :=
  Attempt.lift (.call (.bump shard counter amount) .done)

omit [Crates] in
def write (bytes : Bytes) : Call Error Unit := (Connection.send bytes).context .connection

omit [Crates] in
/-- What an answer to a request whose body is in this state does to the connection. -/
def keepAlive (drained : Drained) : Http.KeepAlive :=
  if drained = .unread ∧ exchange.request.carriesBody then .close else exchange.request.keepAlive

omit [Crates] in
def answer (status : Status) (drained : Drained) : Call Error Http.KeepAlive := do
  let keepAlive := keepAlive exchange drained
  write (bare status keepAlive 0)
  pure keepAlive

omit [Crates] in
/-- A refusal, with its reason when the reason is the client's to act on. -/
def refuse (refusal : Refusal) (drained : Drained) : Call Error Http.KeepAlive :=
  match refusal.message with
  | none => answer exchange refusal.status drained
  | some message => do
    let keepAlive := keepAlive exchange drained
    let head := (Head.new refusal.status keepAlive).header "Content-Type".toList refusalType
    write (head.withBody (Text.utf8 message))
    pure keepAlive

omit [Crates] in
/-- A page. `HEAD` reuses the length and writes no body. -/
def send (head : Head) (body : Bytes) : Call Error Http.KeepAlive := do
  write (if exchange.request.method = .head then (head.length body.length).finish
    else head.withBody body)
  pure exchange.request.keepAlive

omit [Crates] in
/-- The head of a successful answer that says what it carries. -/
def headOf (status : Status) (contentType : Text) : Head :=
  (Head.new status exchange.request.keepAlive).header "Content-Type".toList contentType

omit [Crates] in
def cacheInfo : Call Error Http.KeepAlive :=
  send exchange (headOf exchange .ok cacheInfoType) (Text.utf8 cache.info)

omit [Crates] in
def metrics : Call Error Http.KeepAlive := do
  let paths ← (indexCall .count).context .index
  let totals ← Attempt.lift (.call (.totals cache.shards) .done)
  send exchange (headOf exchange .ok metricsType) (Text.utf8 (totals.render cache.shards paths))

def narinfo (key : StorePath.Hash) : Call Error Http.KeepAlive := do
  match ← (indexCall (.narinfo key)).context .index with
  | none => do
    bump exchange.shard .metadataMisses 1
    answer exchange .notFound .unread
  | some record => do
    bump exchange.shard .metadataHits 1
    send exchange (headOf exchange .ok NarInfo.contentType)
      (Text.utf8 (record.render cache.ingest.dir))

omit [Crates] in
/-- The length an existence check answers with. An uncompressed name is answered from the index,
because the artifact is stored under another one. -/
def probeLength (url : NarUrl) : Call Error (Option ℕ) :=
  if url.compression = .none then do
    let entry ← (indexCall (.nar url.fileHash)).context .index
    pure (entry.map fun entry ↦ entry.narSize)
  else do
    let reader ← (Store.read url).context .store
    pure (reader.map Store.Reader.size)

omit [Crates] in
/-- The existence check a client runs before it uploads. -/
def probe (url : NarUrl) : Call Error Http.KeepAlive := do
  match ← probeLength url with
  | none => answer exchange .notFound .unread
  | some length => do
    write (((headOf exchange .ok NarUrl.contentType).header "Accept-Ranges".toList
      "bytes".toList).length length).finish
    pure exchange.request.keepAlive

omit [Crates] in
/-- Sends a span in chunks and says how many bytes were sent; an artifact that ends early ends the
loop. -/
def pump (reader : Store.Reader) (span : Range.Span) (offset : ℕ) : Call Error ℕ :=
  if offset ≤ span.last then do
    let wanted := min (span.last - offset + 1) Connection.sendChunk
    let read ← (reader.readAt offset).context .store
    if _h : read = [] then pure (offset - span.first)
    else do
      let filled := read.take wanted
      write filled
      pump reader span (offset + filled.length)
  else pure span.len
termination_by span.last + 1 - offset
decreasing_by
  have := List.length_pos_of_ne_nil _h
  have hchunk : 0 < Connection.sendChunk := by decide
  rw [List.length_take]
  omega

omit [Crates] in
def spanHead (size : ℕ) (span : Range.Span) : Head :=
  let part := span.len ≠ size
  let head := (headOf exchange (if part then .partialContent else .ok) NarUrl.contentType).header
    "Accept-Ranges".toList "bytes".toList
  let head := if part then head.header "Content-Range".toList ("bytes ".toList
      ++ Text.decimal span.first ++ '-' :: Text.decimal span.last ++ '/' :: Text.decimal size)
    else head
  head.length span.len

omit [Crates] in
def stream (url : NarUrl) : Call Error Http.KeepAlive := do
  match ← (Store.read url).context .store with
  | none => answer exchange .notFound .unread
  | some reader =>
    let size := reader.size
    if size = 0 then answer exchange .serverError .unread
    else
      let transmit (span : Range.Span) : Call Error Http.KeepAlive := do
        write (spanHead exchange size span).finish
        let sent ← pump reader span span.first
        bump exchange.shard .payloadBytes sent
        pure exchange.request.keepAlive
      match Range.resolve exchange.request.range size with
      | .whole => transmit ⟨0, size - 1⟩
      | .part span => transmit span
      | .unsatisfiable => do
        write ((((Head.new .rangeNotSatisfiable exchange.request.keepAlive).header
          "Content-Range".toList ("bytes */".toList ++ Text.decimal size)).header
          "Accept-Ranges".toList "bytes".toList).length 0).finish
        pure exchange.request.keepAlive

def admission (request : Http.Request) : Admission :=
  match request.authorization.bind credential with
  | some token => cache.tokens.admits token
  | none => .denied

/-- `admission`, and a refusal is counted. -/
def admitRequest : Call Error Admission := do
  let admission := cache.admission exchange.request
  if admission = .denied then bump exchange.shard .rejections 1
  pure admission

omit [Crates] in
/-- Answers `Expect: 100-continue` once the request is known to be acceptable. -/
def proceed : Call Error Unit :=
  if exchange.request.expectation = .continue then
    write (Text.utf8 (statusLine .continue ++ crlf))
  else pure ()

/-- Feeds what is left of a body to an upload, chunk by chunk. -/
def absorbBody (upload : Upload Upload.Receiving) (connection : Connection) (remaining : ℕ) :
    Call Error (Upload Upload.Receiving × Connection) :=
  if 0 < remaining then do
    let (chunk, connection) ← (connection.chunk remaining).context .connection
    if _h : chunk = [] then pure (upload, connection)
    else do
      let upload ← (upload.write chunk).context .upload
      absorbBody upload connection (remaining - chunk.length)
  else pure (upload, connection)
termination_by remaining
decreasing_by
  have := List.length_pos_of_ne_nil _h
  omega

/-- `PUT` of a NAR. An upload that is left behind by a failure is dropped. -/
def receive (url : NarUrl) : Call Error (Http.KeepAlive × Connection) := do
  let unchanged (keepAlive : Http.KeepAlive) : Http.KeepAlive × Connection :=
    (keepAlive, exchange.connection)
  if (← cache.admitRequest exchange) = .denied then
    unchanged <$> answer exchange .unauthorized .unread
  else
    match exchange.request.framing with
    | .length remaining => do
      match ← (cache.ingest.receive url).result with
      | .error error => unchanged <$> refuse exchange (.new error.fault error.message) .unread
      | .ok upload => do
        let (upload, connection) ← Attempt.onError (do
          proceed exchange
          absorbBody upload exchange.connection remaining) upload.staged.drop
        let compressed ← upload.finish.context .upload
        match ← compressed.verify.result with
        | .error error => do
          let keepAlive ← refuse exchange (.new error.fault error.message) .consumed
          pure (keepAlive, connection)
        | .ok verified => do
          let _ ← verified.store.context .upload
          bump exchange.shard .uploads 1
          let keepAlive ← answer exchange .created .consumed
          pure (keepAlive, connection)
    | _ => unchanged <$> answer exchange .lengthRequired .unread

/-- `PUT` of a narinfo, and the publish. -/
def publish : Call Error (Http.KeepAlive × Connection) := do
  let unchanged (keepAlive : Http.KeepAlive) : Http.KeepAlive × Connection :=
    (keepAlive, exchange.connection)
  if (← cache.admitRequest exchange) = .denied then
    unchanged <$> answer exchange .unauthorized .unread
  else
    match exchange.request.framing with
    | .length length =>
      if Http.metadataBodyMax < length then
        unchanged <$> answer exchange .contentTooLarge .unread
      else do
        proceed exchange
        let (body, connection) ← (exchange.connection.body length).context .connection
        match Text.fromUtf8 body with
        | none => do
          let keepAlive ← answer exchange .badRequest .consumed
          pure (keepAlive, connection)
        | some text => do
          match ← (cache.ingest.publish text).result with
          | .error error => do
            let keepAlive ← refuse exchange (.new error.fault error.message) .consumed
            pure (keepAlive, connection)
          | .ok _ => do
            let keepAlive ← answer exchange .created .consumed
            pure (keepAlive, connection)
    | _ => unchanged <$> answer exchange .lengthRequired .unread

def dispatch (route : Route) : Call Error (Http.KeepAlive × Connection) :=
  let unchanged (keepAlive : Http.KeepAlive) : Http.KeepAlive × Connection :=
    (keepAlive, exchange.connection)
  match route with
  | .cacheInfo => unchanged <$> cache.cacheInfo exchange
  | .metrics => unchanged <$> cache.metrics exchange
  | .narinfo key =>
    if exchange.request.method = .put then cache.publish exchange
    else unchanged <$> cache.narinfo exchange key
  | .nar url =>
    match exchange.request.method with
    | .put => cache.receive exchange url
    | .head => unchanged <$> probe exchange url
    | .get => unchanged <$> stream exchange url

def handle : Call Error (Http.KeepAlive × Connection) := do
  let unchanged (keepAlive : Http.KeepAlive) : Http.KeepAlive × Connection :=
    (keepAlive, exchange.connection)
  bump exchange.shard .requests 1
  if exchange.request.framing = .chunked then
    unchanged <$> answer exchange .notImplemented .unread
  else
    match Route.resolve exchange.request.target with
    | .ok route => cache.dispatch exchange route
    | .error (.unknown _) => unchanged <$> answer exchange .notFound .unread
    | .error _ => unchanged <$> answer exchange .badRequest .unread

/-! ## Sessions -/

/-- What became of one turn of a session. -/
inductive Turn
  /-- The peer closed between requests. -/
  | closed
  /-- A head that does not parse was refused, and the connection closed. -/
  | refused (head : Bytes)
  /-- A request was handled. -/
  | handled (head : Bytes) (keepAlive : Http.KeepAlive)

/-- What a complete head leads to. -/
def attend (shard : ℕ) (head : Bytes) (connection : Connection) : Call Error (Turn × Connection) :=
  match Http.parse head with
  | .error _ => do
    write (bare .badRequest .close 0)
    pure (.refused head, connection)
  | .ok request => do
    let (keepAlive, connection) ← cache.handle ⟨shard, connection, request⟩
    pure (.handled head keepAlive, connection)

/-- One turn of the loop: a head, and the answer to it. -/
def turn (shard : ℕ) (connection : Connection) : Call Error (Turn × Connection) := do
  let (head, connection) ← connection.head.context .connection
  match head with
  | none => pure (.closed, connection)
  | some head => cache.attend shard head connection

/-- One connection, for as long as it stays alive, or up to a number of turns. -/
def session (shard : ℕ) : ℕ → Connection → Call Error Unit
  | 0, _ => pure ()
  | turns + 1, connection => do
    match ← cache.turn shard connection with
    | (.handled _ .keep, connection) => session shard turns connection
    | _ => pure ()

end Cache

end Bincache
