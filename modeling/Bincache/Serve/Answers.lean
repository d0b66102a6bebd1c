import Bincache.Ingest.Publishing
import Bincache.Serve.Handler
import Bincache.Serve.Reading
import Bincache.Serve.Reply

/-!
# What the reading routes answer

One message for every exit of the handlers that do not read a body, and for each handler the message
it sends from a given state. A handler changes nothing but statistics, reads nothing, and either
writes its whole message or fails on the way.
-/

namespace Bincache

variable {env : Env} {α : Type}

namespace Cache

open Handler Response

/-- The program wrote this message and nothing else, or a part of it and failed. -/
def Says (env : Env) (site : Site) (message : Message) :
    Except Handler.Error Http.KeepAlive → Peer → World → Prop := fun result peer world ↦
  Steady site.1 world ∧ peer.unread = site.2.unread ∧ match result with
  | .ok keepAlive => keepAlive = message.reply.keepAlive
    ∧ peer.written = site.2.written ++ message.bytes
  | .error _ => env = .hostile ∧ ∃ said, said <+: message.bytes
    ∧ peer.written = site.2.written ++ said

theorem Says.of_steady {site : Site} {world : World} {message : Message}
    {result : Except Handler.Error Http.KeepAlive} {peer : Peer} {world' : World}
    (hsteady : Steady site.1 world) (h : Says env (world, site.2) message result peer world') :
    Says env site message result peer world' := ⟨hsteady.trans h.1, h.2⟩

/-- A program that fails before it writes anything says whatever it was going to. -/
theorem says_error {site : Site} {world : World} {message : Message} {error : Handler.Error}
    (henv : env = .hostile) (hsteady : Steady site.1 world) :
    Says env site message (.error error) site.2 world :=
  ⟨hsteady, rfl, henv, [], List.nil_prefix, (List.append_nil _).symm⟩

theorem ends_write (message : Message) (site : Site) :
    Ends env (do write message.bytes; pure message.reply.keepAlive : Call Handler.Error _).run
      (Says env site message) site := by
  refine Attempt.safe_bind (Attempt.safe_context ((Connection.ends_send _ site).imp ?_))
  rintro (error | ⟨⟩) peer world - ⟨rfl, hunread, hsent⟩
  · obtain ⟨henv, count, hwritten⟩ := hsent
    exact ⟨steady_refl _, hunread, henv, _, List.take_prefix _ _, hwritten⟩
  · exact ends_done ⟨steady_refl _, hunread, rfl, hsent⟩

theorem ends_bumped {ε : Type} (shard : ℕ) (counter : Counter) (amount : ℕ) (site : Site) :
    Ends env (bump shard counter amount : Call ε Unit).run (fun result peer world ↦
      result = .ok () ∧ peer = site.2 ∧ world = site.1.bump shard counter amount) site := by
  refine Attempt.safe_lift (ends_call fun answer site' hop ↦ ends_done ?_)
  obtain rfl := of_step_bump hop
  exact ⟨rfl, rfl, rfl⟩

theorem ends_bump {ε : Type} (shard : ℕ) (counter : Counter) (amount : ℕ) (site : Site) :
    Ends env (bump shard counter amount : Call ε Unit).run (fun result peer world ↦
      result = .ok () ∧ peer = site.2 ∧ Steady site.1 world) site :=
  (ends_bumped shard counter amount site).imp fun _ _ _ _ h ↦ ⟨h.1, h.2.1, _, h.2.2⟩

/-! ## Messages -/

def bareMessage (status : Status) (keepAlive : Http.KeepAlive) : Message :=
  ⟨⟨status, keepAlive, [], 0⟩, []⟩

theorem whole_bareMessage {status : Status} (hstatus : status ≠ .continue) (method : Http.Method)
    (keepAlive : Http.KeepAlive) : (bareMessage status keepAlive).Whole method :=
  ⟨⟨hstatus, by simp [bareMessage]⟩, fun _ ↦ rfl, fun _ ↦ rfl⟩

private theorem bytes_bareMessage (status : Status) (keepAlive : Http.KeepAlive) :
    (bareMessage status keepAlive).bytes = bare status keepAlive 0 := List.append_nil _

/-- A page, of which `HEAD` gets the head. -/
def pageMessage (request : Http.Request) (contentType : Text) (body : Bytes) : Message :=
  ⟨⟨.ok, request.keepAlive, [("Content-Type".toList, contentType)], body.length⟩,
    if request.method = .head then [] else body⟩

private theorem final_contentType {status : Status} {keepAlive : Http.KeepAlive}
    {contentType : Text} {length : ℕ} (hstatus : status ≠ .continue)
    (hplain : Text.Plain contentType) :
    Reply.Final ⟨status, keepAlive, [("Content-Type".toList, contentType)], length⟩ := by
  refine ⟨hstatus, fun line hline ↦ ?_⟩
  obtain rfl := List.mem_singleton.mp hline
  exact ⟨Reply.free_contentType, hplain⟩

theorem whole_pageMessage (request : Http.Request) {contentType : Text} (body : Bytes)
    (hplain : Text.Plain contentType) :
    (pageMessage request contentType body).Whole request.method :=
  ⟨final_contentType Status.noConfusion hplain, fun h ↦ if_pos h, fun h ↦ congrArg _ (if_neg h)⟩

/-- A refusal, with its reason when the reason is the client's to act on. -/
def refusalMessage (refusal : Refusal) (keepAlive : Http.KeepAlive) : Message :=
  match refusal.message with
  | none => bareMessage refusal.status keepAlive
  | some message =>
    ⟨⟨refusal.status, keepAlive, [("Content-Type".toList, refusalType)],
      (Text.utf8 message).length⟩, Text.utf8 message⟩

theorem whole_refusalMessage (fault : Fault) (message : Text) (keepAlive : Http.KeepAlive) :
    (refusalMessage (.new fault message) keepAlive).Whole .put := by
  cases fault with
  | client =>
    exact ⟨final_contentType Status.noConfusion (by decide), fun h ↦ absurd h (by decide),
      fun _ ↦ rfl⟩
  | server => exact whole_bareMessage Status.noConfusion _ _

theorem status_refusalMessage (fault : Fault) (message : Text) (keepAlive : Http.KeepAlive) :
    (refusalMessage (.new fault message) keepAlive).reply.status ≠ .created := by
  cases fault <;> exact Status.noConfusion

def narinfoMessage [Crates] (cache : Cache) (exchange : Exchange) (record : Option NarInfo) :
    Message :=
  match record with
  | none => bareMessage .notFound (keepAlive exchange .unread)
  | some record => pageMessage exchange.request NarInfo.contentType
      (Text.utf8 (record.render cache.ingest.dir))

def probeMessage (exchange : Exchange) (length : Option ℕ) : Message :=
  match length with
  | none => bareMessage .notFound (keepAlive exchange .unread)
  | some length =>
    ⟨⟨.ok, exchange.request.keepAlive, [("Content-Type".toList, NarUrl.contentType),
      ("Accept-Ranges".toList, "bytes".toList)], length⟩, []⟩

private theorem lines_artifact {headers : List (Text × Text)}
    (h : ∀ line ∈ headers, Reply.Free line.1 ∧ Text.Plain line.2) :
    ∀ line ∈ [("Content-Type".toList, NarUrl.contentType), ("Accept-Ranges".toList, "bytes".toList)]
      ++ headers, Reply.Free line.1 ∧ Text.Plain line.2 := by
  intro line hline
  obtain hline | hline := List.mem_append.mp hline
  · simp only [List.mem_cons, List.not_mem_nil, or_false] at hline
    obtain rfl | rfl := hline
    · exact ⟨Reply.free_contentType, by dsimp only; decide⟩
    · exact ⟨Reply.free_acceptRanges, by dsimp only; decide⟩
  · exact h line hline

theorem whole_probeMessage (exchange : Exchange) (length : Option ℕ) :
    (probeMessage exchange length).Whole .head := by
  cases length with
  | none => exact whole_bareMessage Status.noConfusion _ _
  | some length =>
    have hlines := lines_artifact (List.forall_mem_nil _)
    exact ⟨⟨Status.noConfusion, hlines⟩, fun _ ↦ rfl, fun h ↦ absurd rfl h⟩

/-- The span of an artifact of this size that a range asks for. -/
def wantedSpan (range : Option Text) (size : ℕ) : Option Range.Span :=
  match Range.resolve range size with
  | .whole => some ⟨0, size - 1⟩
  | .part span => some span
  | .unsatisfiable => none

theorem wantedSpan_bounds {range : Option Text} {size : ℕ} {span : Range.Span} (hsize : 0 < size)
    (h : wantedSpan range size = some span) : span.first ≤ span.last ∧ span.last < size := by
  rw [wantedSpan] at h
  split at h
  · obtain rfl := Option.some.inj h
    exact ⟨Nat.zero_le _, by dsimp only; omega⟩
  · next hpart =>
    obtain rfl := Option.some.inj h
    exact Range.resolve_part hsize hpart
  · exact absurd h (by simp)

/-- What names a span that is not all of the artifact. -/
def contentRange (size : ℕ) (span : Range.Span) : List (Text × Text) :=
  if span.len ≠ size then
    [("Content-Range".toList, "bytes ".toList ++ Text.decimal span.first ++ '-'
      :: Text.decimal span.last ++ '/' :: Text.decimal size)]
  else []

/-- A span of an artifact. The head announces the length of the span, and the bytes that follow are
those the artifact has there. -/
def spanMessage (request : Http.Request) (file : File) (span : Range.Span) : Message :=
  ⟨⟨if span.len ≠ file.size then .partialContent else .ok, request.keepAlive,
    [("Content-Type".toList, NarUrl.contentType), ("Accept-Ranges".toList, "bytes".toList)]
      ++ contentRange file.size span, span.len⟩, (file.data.drop span.first).take span.len⟩

private theorem lines_contentRange (size : ℕ) (span : Range.Span) :
    ∀ line ∈ contentRange size span, Reply.Free line.1 ∧ Text.Plain line.2 := by
  intro line hline
  rw [contentRange] at hline
  split at hline
  · obtain rfl := List.mem_singleton.mp hline
    refine ⟨Reply.free_contentRange, Text.Plain.append (Text.Plain.append ?_ ?_) ?_⟩
    · exact Text.Plain.append (by decide) (Text.plain_decimal _)
    · exact (Text.plain_decimal _).cons (by decide)
    · exact (Text.plain_decimal _).cons (by decide)
  · exact absurd hline List.not_mem_nil

theorem final_spanMessage (request : Http.Request) (file : File) (span : Range.Span) :
    (spanMessage request file span).reply.Final := by
  refine ⟨?_, lines_artifact (lines_contentRange _ _)⟩
  rw [spanMessage]
  dsimp only
  split <;> exact Status.noConfusion

/-- The answer to a range that has nothing in common with the artifact. -/
def rangeMessage (request : Http.Request) (size : ℕ) : Message :=
  ⟨⟨.rangeNotSatisfiable, request.keepAlive,
    [("Content-Range".toList, "bytes */".toList ++ Text.decimal size),
      ("Accept-Ranges".toList, "bytes".toList)], 0⟩, []⟩

theorem whole_rangeMessage (request : Http.Request) (size : ℕ) (method : Http.Method) :
    (rangeMessage request size).Whole method := by
  refine ⟨⟨Status.noConfusion, fun line hline ↦ ?_⟩, fun _ ↦ rfl, fun _ ↦ rfl⟩
  simp only [rangeMessage, List.mem_cons, List.not_mem_nil, or_false] at hline
  obtain rfl | rfl := hline
  · exact ⟨Reply.free_contentRange, Text.Plain.append (by decide) (Text.plain_decimal _)⟩
  · exact ⟨Reply.free_acceptRanges, by dsimp only; decide⟩

def streamMessage (exchange : Exchange) (file : Option File) : Message :=
  match file with
  | none => bareMessage .notFound (keepAlive exchange .unread)
  | some file =>
    if file.size = 0 then bareMessage .serverError (keepAlive exchange .unread)
    else match wantedSpan exchange.request.range file.size with
      | some span => spanMessage exchange.request file span
      | none => rangeMessage exchange.request file.size

/-! ## What each handler says -/

variable {exchange : Exchange} (site : Site)

theorem ends_answer {status : Status} {drained : Drained} :
    Ends env (answer exchange status drained).run
      (Says env site (bareMessage status (keepAlive exchange drained))) site := by
  have := @ends_write env (bareMessage status (keepAlive exchange drained)) site
  rwa [bytes_bareMessage] at this

theorem ends_refuse {refusal : Refusal} {drained : Drained} :
    Ends env (refuse exchange refusal drained).run
      (Says env site (refusalMessage refusal (keepAlive exchange drained))) site := by
  obtain ⟨status, message⟩ := refusal
  cases message with
  | none => exact ends_answer site
  | some message =>
    have hbytes : ((Head.new status (keepAlive exchange drained)).header "Content-Type".toList
        refusalType).withBody (Text.utf8 message)
          = (refusalMessage ⟨status, some message⟩ (keepAlive exchange drained)).bytes := rfl
    rw [refuse]
    dsimp only
    rw [hbytes]
    exact ends_write _ site

theorem ends_send {contentType : Text} {body : Bytes} :
    Ends env (send exchange (headOf exchange .ok contentType) body).run
      (Says env site (pageMessage exchange.request contentType body)) site := by
  have hbytes : (if exchange.request.method = .head
      then ((headOf exchange .ok contentType).length body.length).finish
      else (headOf exchange .ok contentType).withBody body)
        = (pageMessage exchange.request contentType body).bytes := by
    rw [Message.bytes, pageMessage]
    dsimp only
    split
    · exact (List.append_nil _).symm
    · rfl
  rw [send, hbytes]
  exact ends_write (pageMessage exchange.request contentType body) site

def metricsMessage (cache : Cache) (exchange : Exchange) (world : World) : Message :=
  pageMessage exchange.request metricsType
    (Text.utf8 ((world.totals cache.shards).render cache.shards world.index.count))

theorem ends_metrics (cache : Cache) :
    Ends env (cache.metrics exchange).run
      (Says env site (metricsMessage cache exchange site.1)) site := by
  refine Attempt.safe_bind (Attempt.safe_context ((ends_indexCall .count site).imp ?_))
  rintro (error | paths) peer world - ⟨rfl, hresult⟩
  · exact says_error hresult.2 (by rw [hresult.1]; exact steady_refl _)
  obtain ⟨rfl, rfl⟩ := hresult
  refine Attempt.safe_bind (Attempt.safe_lift (ends_call fun totals site' hop ↦ ends_done ?_))
  obtain ⟨rfl, rfl⟩ := of_step_totals hop
  exact ends_send site

theorem ends_narinfo [Crates] (cache : Cache) (key : StorePath.Hash) :
    Ends env (cache.narinfo exchange key).run
      (Says env site (narinfoMessage cache exchange (site.1.index.narinfo key))) site := by
  refine Attempt.safe_bind (Attempt.safe_context ((ends_indexCall (.narinfo key) site).imp ?_))
  rintro (error | row) peer world - ⟨rfl, hresult⟩
  · exact says_error hresult.2 (by rw [hresult.1]; exact steady_refl _)
  obtain ⟨rfl, rfl⟩ := hresult
  dsimp only [Except.mapError, IndexOp.run]
  cases site.1.index.narinfo key with
  | none =>
    refine Attempt.safe_bind ((ends_bump _ _ _ site).imp ?_)
    rintro _ _ world - ⟨rfl, rfl, hsteady⟩
    exact (ends_answer (world, site.2)).imp fun _ _ _ _ ↦ Says.of_steady hsteady
  | some record =>
    refine Attempt.safe_bind ((ends_bump _ _ _ site).imp ?_)
    rintro _ _ world - ⟨rfl, rfl, hsteady⟩
    exact (ends_send (world, site.2)).imp fun _ _ _ _ ↦ Says.of_steady hsteady

theorem ends_read (url : NarUrl) : Ends env (Store.read url).run (fun result peer world ↦
    world = site.1 ∧ peer = site.2 ∧ match result with
    | .ok none => site.1.fs.lookup (Store.path url) = none
    | .ok (some reader) => site.1.fs.lookup (Store.path url) = some (site.1.fs.files reader.inode)
      ∧ reader.size = (site.1.fs.files reader.inode).size
    | .error _ => env = .hostile) site := by
  refine Attempt.safe_bind (Attempt.safe_result (ends_call fun answer site' hop ↦ ends_done ?_))
  obtain ⟨rfl, ⟨henv, rfl⟩ | ⟨rfl, hnone⟩ | ⟨inode, rfl, hlink⟩⟩ := of_step_open hop
  · exact ends_done ⟨rfl, rfl, henv⟩
  · exact ends_done ⟨rfl, rfl, hnone⟩
  · refine Attempt.safe_bind (Attempt.safe_context (ends_call fun answer site' hop' ↦ ends_done ?_))
    obtain ⟨rfl, ⟨henv, rfl⟩ | rfl⟩ := of_step_metadata hop'
    · exact ⟨rfl, rfl, henv⟩
    · refine ends_done ⟨rfl, rfl, ?_, rfl⟩
      rw [FileSystem.lookup, hlink]
      rfl

/-- What an existence check finds. -/
def probed (world : World) (url : NarUrl) : Option ℕ :=
  if url.compression = .none then (world.index.nar url.fileHash).map fun entry ↦ entry.narSize
  else (world.fs.lookup (Store.path url)).map File.size

theorem ends_probeLength (url : NarUrl) :
    Ends env (probeLength url).run (fun result peer world ↦ world = site.1 ∧ peer = site.2
      ∧ match result with
        | .ok length => length = probed site.1 url
        | .error _ => env = .hostile) site := by
  rw [probeLength]
  split
  · next hnone =>
    refine Attempt.safe_bind (Attempt.safe_context ((ends_indexCall (.nar _) site).imp ?_))
    rintro (error | row) peer world - ⟨rfl, hresult⟩
    · exact ⟨hresult.1, rfl, hresult.2⟩
    · obtain ⟨rfl, rfl⟩ := hresult
      exact ends_done ⟨rfl, rfl, (if_pos hnone).symm⟩
  · next hsome =>
    refine Attempt.safe_bind (Attempt.safe_context ((ends_read site url).imp ?_))
    rintro (error | reader) peer world - ⟨rfl, rfl, hread⟩
    · exact ⟨rfl, rfl, hread⟩
    · refine ends_done ⟨rfl, rfl, ?_⟩
      rw [probed, if_neg hsome]
      cases reader with
      | none => rw [hread]; rfl
      | some reader => rw [hread.1, Option.map_some, Option.map_some, hread.2]

theorem ends_probe (url : NarUrl) :
    Ends env (probe exchange url).run
      (Says env site (probeMessage exchange (probed site.1 url))) site := by
  refine Attempt.safe_bind ((ends_probeLength site url).imp ?_)
  rintro (error | length) peer world - ⟨rfl, rfl, hresult⟩
  · exact says_error hresult (steady_refl _)
  · rw [← hresult]
    cases length with
    | none => exact ends_answer site
    | some length =>
      have := @ends_write env (probeMessage exchange (some length)) site
      rwa [Message.bytes, probeMessage, List.append_nil] at this

theorem ends_readAt (reader : Store.Reader) (offset : ℕ) :
    Ends env (reader.readAt offset).run (fun result peer world ↦ world = site.1 ∧ peer = site.2
      ∧ match result with
        | .ok bytes => bytes <+: (site.1.fs.files reader.inode).data.drop offset
          ∧ (bytes = [] → (site.1.fs.files reader.inode).data.drop offset = [])
        | .error _ => env = .hostile) site := by
  refine Attempt.safe_context (ends_call fun answer site' hop ↦ ends_done ?_)
  obtain ⟨rfl, ⟨henv, rfl⟩ | ⟨count, rfl⟩⟩ := of_step_readAt hop
  · exact ⟨rfl, rfl, henv⟩
  · refine ⟨rfl, rfl, List.take_prefix _ _, fun h ↦ ?_⟩
    exact (List.take_eq_nil_iff.mp h).resolve_left (Nat.succ_ne_zero count)

private theorem append_take_drop {list start : Bytes} (h : start <+: list) {n : ℕ}
    (hn : start.length ≤ n) :
    start ++ (list.drop start.length).take (n - start.length) = list.take n := by
  obtain ⟨rest, rfl⟩ := h
  rw [List.drop_left, List.take_append, List.take_of_length_le hn]

/-- The send loop sends what the artifact has of the span, from an offset on. -/
theorem ends_pump (reader : Store.Reader) (span : Range.Span) (offset : ℕ) :
    Ends env (pump reader span offset).run (fun result peer world ↦
      world = site.1 ∧ peer.unread = site.2.unread ∧ match result with
      | .ok _ => peer.written = site.2.written
        ++ ((site.1.fs.files reader.inode).data.drop offset).take (span.last + 1 - offset)
      | .error _ => env = .hostile ∧ ∃ said,
        said <+: ((site.1.fs.files reader.inode).data.drop offset).take (span.last + 1 - offset)
          ∧ peer.written = site.2.written ++ said) site := by
  induction hn : span.last + 1 - offset using Nat.strong_induction_on
    generalizing offset site with
  | _ n ih =>
    rw [pump]
    split
    · next hoffset =>
      refine Attempt.safe_bind (Attempt.safe_context ((ends_readAt site reader offset).imp ?_))
      rintro (error | read) peer world - ⟨rfl, rfl, hread⟩
      · exact ⟨rfl, rfl, hread, [], List.nil_prefix, (List.append_nil _).symm⟩
      obtain ⟨hbegins, hend⟩ := hread
      dsimp only [Except.mapError]
      split
      · next hnil =>
        refine ends_done ⟨rfl, rfl, ?_⟩
        rw [hend hnil, List.take_nil, List.append_nil]
      · next hnil =>
        -- What is filled is a nonempty piece of the span, and the loop sends what follows it.
        set filled := read.take (min (span.last - offset + 1) Connection.sendChunk) with hfilled
        have hpos : 0 < filled.length := by
          have := List.length_pos_of_ne_nil hnil
          have hchunk : 0 < Connection.sendChunk := by decide
          rw [hfilled, List.length_take]
          omega
        have hle : filled.length ≤ n := by
          rw [← hn, hfilled, List.length_take]
          omega
        have hsplit := append_take_drop ((List.take_prefix _ read).trans hbegins) hle
        rw [List.drop_drop] at hsplit
        refine Attempt.safe_bind (Attempt.safe_context
          ((Connection.ends_send filled (site.1, site.2)).imp ?_))
        rintro (error | ⟨⟩) peer world - ⟨rfl, hunread, hsent⟩
        · obtain ⟨henv, count, hwritten⟩ := hsent
          refine ⟨rfl, hunread, henv, _, ?_, hwritten⟩
          rw [← hsplit]
          exact (List.take_prefix _ _).trans (List.prefix_append _ _)
        · have hlt : span.last + 1 - (offset + filled.length) < n := by omega
          have hrest : n - filled.length = span.last + 1 - (offset + filled.length) := by omega
          refine (ih _ hlt (site.1, peer) (offset + filled.length) rfl).imp ?_
          rintro result peer' world - ⟨rfl, hunread', hresult⟩
          refine ⟨rfl, hunread'.trans hunread, ?_⟩
          cases result with
          | ok sent =>
            dsimp only at hresult ⊢
            rw [hresult, hsent, List.append_assoc, ← hrest, hsplit]
          | error error =>
            obtain ⟨henv, said, hsaid, hwritten⟩ := hresult
            refine ⟨henv, filled ++ said, ?_, ?_⟩
            · rw [← hsplit, hrest]
              exact (List.prefix_append_right_inj filled).mpr hsaid
            · rw [hwritten, hsent, List.append_assoc]
    · next hoffset =>
      refine ends_done ⟨rfl, rfl, ?_⟩
      rw [← hn, Nat.sub_eq_zero_of_le (by omega), List.take_zero, List.append_nil]

theorem ends_transmit {file : File} {reader : Store.Reader} {span : Range.Span}
    (hfile : site.1.fs.files reader.inode = file) (hspan : span.first ≤ span.last) :
    Ends env (do
        write (spanHead exchange file.size span).finish
        let sent ← pump reader span span.first
        bump exchange.shard .payloadBytes sent
        pure exchange.request.keepAlive : Call Handler.Error Http.KeepAlive).run
      (Says env site (spanMessage exchange.request file span)) site := by
  have hhead : (spanHead exchange file.size span).finish
      = (spanMessage exchange.request file span).reply.head := by
    rw [spanHead, spanMessage, contentRange]
    split <;> rfl
  have hlen : span.len = span.last + 1 - span.first := by
    rw [Range.Span.len]
    omega
  rw [hhead]
  refine Attempt.safe_bind (Attempt.safe_context ((Connection.ends_send _ site).imp ?_))
  rintro (error | ⟨⟩) peer world - ⟨rfl, hunread, hsent⟩
  · obtain ⟨henv, count, hwritten⟩ := hsent
    exact ⟨steady_refl _, hunread, henv, _, (List.take_prefix _ _).trans (List.prefix_append _ _),
      hwritten⟩
  dsimp only [Except.mapError]
  refine Attempt.safe_bind ((ends_pump (site.1, peer) reader span span.first).imp ?_)
  rintro (error | sent) peer' world - ⟨rfl, hunread', hpump⟩
  · obtain ⟨henv, said, hsaid, hwritten⟩ := hpump
    refine ⟨steady_refl _, hunread'.trans hunread, henv,
      (spanMessage exchange.request file span).reply.head ++ said, ?_, ?_⟩
    · rw [hfile, ← hlen] at hsaid
      exact (List.prefix_append_right_inj _).mpr hsaid
    · rw [hwritten, hsent, List.append_assoc]
  · refine Attempt.safe_bind ((ends_bump _ _ _ (site.1, peer')).imp ?_)
    rintro _ _ world - ⟨rfl, rfl, hsteady⟩
    refine ends_done ⟨hsteady, hunread'.trans hunread, rfl, ?_⟩
    dsimp only at hpump
    rw [hpump, hsent, hfile, ← hlen, List.append_assoc]
    rfl

theorem ends_stream (url : NarUrl) :
    Ends env (stream exchange url).run
      (Says env site (streamMessage exchange (site.1.fs.lookup (Store.path url)))) site := by
  refine Attempt.safe_bind (Attempt.safe_context ((ends_read site url).imp ?_))
  rintro (error | reader) peer world - ⟨rfl, rfl, hread⟩
  · exact says_error hread (steady_refl _)
  cases reader with
  | none =>
    rw [hread]
    exact ends_answer site
  | some reader =>
    obtain ⟨hlookup, hsize⟩ := hread
    rw [hlookup, streamMessage]
    dsimp only [Except.mapError]
    rw [hsize]
    split
    · exact ends_answer site
    · next hne =>
      have hpos := Nat.pos_of_ne_zero hne
      cases hresolve : Range.resolve exchange.request.range (site.1.fs.files reader.inode).size with
      | whole =>
        rw [wantedSpan, hresolve]
        exact ends_transmit site rfl (Nat.zero_le _)
      | part span =>
        rw [wantedSpan, hresolve]
        exact ends_transmit site rfl (Range.resolve_part hpos hresolve).1
      | unsatisfiable =>
        rw [wantedSpan, hresolve]
        have := @ends_write env
          (rangeMessage exchange.request (site.1.fs.files reader.inode).size) site
        rwa [Message.bytes, rangeMessage, List.append_nil] at this

end Cache

end Bincache
