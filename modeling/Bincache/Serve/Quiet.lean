import Bincache.Serve.Handler

/-!
# Exchanges that only read

A request that is no `PUT`, or whose client may not write, is answered with operations that leave
the index and the files alone, and looks up no row but the one its route names. This is a fact about
the program of the exchange, so it holds between any two of its operations, wherever it is cut off,
and whatever runs at the same time.
-/

namespace Bincache

open Attempt

variable {lookups : IndexOp → Prop}

theorem reads_indexCall {op : IndexOp} (h : lookups op) :
    (indexCall op).run.Uses (Op.Reads lookups) := ⟨h, fun _ ↦ trivial⟩

theorem reads_fileCall {op : FileOp} (h : Op.Reads lookups (.file op)) :
    (fileCall op).run.Uses (Op.Reads lookups) := ⟨h, fun _ ↦ trivial⟩

namespace Store

theorem reads_read (url : NarUrl) : (read url).run.Uses (Op.Reads lookups) := by
  refine uses_bind (uses_result (reads_fileCall trivial)) ?_
  rintro (error | inode)
  · cases error <;> trivial
  · exact uses_bind (uses_context (reads_fileCall trivial)) fun _ ↦ trivial

theorem reads_readAt (reader : Reader) (offset : ℕ) :
    (reader.readAt offset).run.Uses (Op.Reads lookups) :=
  uses_context (reads_fileCall trivial)

end Store

namespace Connection

theorem reads_send (bytes : Bytes) : (send bytes).run.Uses (Op.Reads lookups) :=
  uses_context ⟨trivial, fun _ ↦ trivial⟩

theorem reads_recv : recv.run.Uses (Op.Reads lookups) := uses_context ⟨trivial, fun _ ↦ trivial⟩

theorem reads_head (connection : Connection) : connection.head.run.Uses (Op.Reads lookups) := by
  induction connection using head.induct with
  | case1 connection len hlen =>
    rw [head, hlen]
    trivial
  | case2 connection hlen hshort ih =>
    rw [head, hlen]
    dsimp only
    rw [if_pos hshort]
    refine uses_bind reads_recv fun read ↦ ?_
    split
    · split <;> trivial
    · next hread => exact ih read hread
  | case3 connection hlen hlong =>
    rw [head, hlen]
    dsimp only
    rw [if_neg hlong]
    trivial

theorem reads_fill (connection : Connection) : connection.fill.run.Uses (Op.Reads lookups) := by
  rw [fill]
  split
  · refine uses_bind reads_recv fun read ↦ ?_
    split
    · trivial
    · trivial
  · trivial

theorem reads_chunk (connection : Connection) (remaining : ℕ) :
    (connection.chunk remaining).run.Uses (Op.Reads lookups) := by
  rw [chunk]
  split
  · trivial
  · exact uses_bind (reads_fill connection) fun _ ↦ trivial

theorem reads_body (connection : Connection) (len : ℕ) :
    (connection.body len).run.Uses (Op.Reads lookups) := by
  induction connection using body.induct len with
  | case1 connection hshort ih =>
    rw [body, if_pos hshort]
    refine uses_bind reads_recv fun read ↦ ?_
    split
    · trivial
    · next hread => exact ih read hread
  | case2 connection hlong =>
    rw [body, if_neg hlong]
    trivial

end Connection

namespace Cache

open Handler Response

theorem reads_bump {ε : Type} (shard : ℕ) (counter : Counter) (amount : ℕ) :
    (bump shard counter amount : Call ε Unit).run.Uses (Op.Reads lookups) :=
  uses_lift ⟨trivial, fun _ ↦ trivial⟩

theorem reads_write (bytes : Bytes) : (write bytes).run.Uses (Op.Reads lookups) :=
  uses_context (Connection.reads_send bytes)

variable (exchange : Exchange)

theorem reads_answer (status : Status) (drained : Drained) :
    (answer exchange status drained).run.Uses (Op.Reads lookups) :=
  uses_bind (reads_write _) fun _ ↦ trivial

theorem reads_refuse (refusal : Refusal) (drained : Drained) :
    (refuse exchange refusal drained).run.Uses (Op.Reads lookups) := by
  rw [refuse]
  split
  · exact reads_answer exchange _ _
  · exact uses_bind (reads_write _) fun _ ↦ trivial

theorem reads_send (head : Head) (body : Bytes) :
    (send exchange head body).run.Uses (Op.Reads lookups) :=
  uses_bind (reads_write _) fun _ ↦ trivial

theorem reads_proceed : (proceed exchange).run.Uses (Op.Reads lookups) := by
  rw [proceed]
  split
  · exact reads_write _
  · trivial

theorem reads_metrics (cache : Cache) (h : lookups .count) :
    (cache.metrics exchange).run.Uses (Op.Reads lookups) :=
  uses_bind (uses_context (reads_indexCall h)) fun _ ↦
    uses_bind (uses_lift ⟨trivial, fun _ ↦ trivial⟩) fun _ ↦ reads_send exchange _ _

theorem reads_narinfo [Crates] (cache : Cache) {key : StorePath.Hash}
    (h : lookups (.narinfo key)) :
    (cache.narinfo exchange key).run.Uses (Op.Reads lookups) := by
  refine uses_bind (uses_context (reads_indexCall h)) ?_
  rintro (_ | record)
  · exact uses_bind (reads_bump _ _ _) fun _ ↦ reads_answer exchange _ _
  · exact uses_bind (reads_bump _ _ _) fun _ ↦ reads_send exchange _ _

theorem reads_probe {url : NarUrl} (h : url.compression = .none → lookups (.nar url.fileHash)) :
    (probe exchange url).run.Uses (Op.Reads lookups) := by
  refine uses_bind ?_ ?_
  · rw [probeLength]
    split
    · next hnone => exact uses_bind (uses_context (reads_indexCall (h hnone))) fun _ ↦ trivial
    · exact uses_bind (uses_context (Store.reads_read url)) fun _ ↦ trivial
  · rintro (_ | length)
    · exact reads_answer exchange _ _
    · exact uses_bind (reads_write _) fun _ ↦ trivial

theorem reads_pump (reader : Store.Reader) (span : Range.Span) (offset : ℕ) :
    (pump reader span offset).run.Uses (Op.Reads lookups) := by
  induction offset using pump.induct span with
  | case1 offset hle wanted ih =>
    rw [pump, if_pos hle]
    refine uses_bind (uses_context (Store.reads_readAt _ _)) fun read ↦ ?_
    split
    · trivial
    · next hread => exact uses_bind (reads_write _) fun _ ↦ ih read hread
  | case2 offset hlt =>
    rw [pump, if_neg hlt]
    trivial

theorem reads_stream (url : NarUrl) : (stream exchange url).run.Uses (Op.Reads lookups) := by
  have htransmit : ∀ (reader : Store.Reader) (head : Bytes) (span : Range.Span),
      (do write head
          let sent ← pump reader span span.first
          bump exchange.shard .payloadBytes sent
          pure exchange.request.keepAlive : Call Handler.Error _).run.Uses (Op.Reads lookups) :=
    fun reader head span ↦ uses_bind (reads_write _) fun _ ↦
      uses_bind (reads_pump reader span _) fun _ ↦ uses_bind (reads_bump _ _ _) fun _ ↦ trivial
  refine uses_bind (uses_context (Store.reads_read url)) ?_
  rintro (_ | reader)
  · exact reads_answer exchange _ _
  · dsimp only
    split
    · exact reads_answer exchange _ _
    · split
      · exact htransmit reader _ _
      · exact htransmit reader _ _
      · exact uses_bind (reads_write _) fun _ ↦ trivial

variable [Crates] (cache : Cache) {exchange}

theorem reads_admitRequest : (cache.admitRequest exchange).run.Uses (Op.Reads lookups) := by
  rw [admitRequest]
  dsimp only
  split
  · exact uses_bind (reads_bump _ _ _) fun _ ↦ trivial
  · trivial

/-- A client that may not write is counted, and nothing else. -/
theorem admitRequest_bind_of_denied {α : Type} (h : cache.admission exchange.request = .denied)
    (f : Admission → Call Handler.Error α) :
    cache.admitRequest exchange >>= f = (do bump exchange.shard .rejections 1; f .denied) := by
  rw [admitRequest, h, if_pos rfl, bind_assoc]
  rfl

theorem receive_of_denied (h : cache.admission exchange.request = .denied) (url : NarUrl) :
    cache.receive exchange url = (do
      bump exchange.shard .rejections 1
      (fun keepAlive ↦ (keepAlive, exchange.connection)) <$>
        answer exchange .unauthorized .unread) := by
  rw [receive, admitRequest_bind_of_denied cache h]
  rfl

theorem publish_of_denied (h : cache.admission exchange.request = .denied) :
    cache.publish exchange = (do
      bump exchange.shard .rejections 1
      (fun keepAlive ↦ (keepAlive, exchange.connection)) <$>
        answer exchange .unauthorized .unread) := by
  rw [publish, admitRequest_bind_of_denied cache h]
  rfl

omit [Crates] in
/-- The transaction a request without a body may look something up with. -/
def Asks (request : Http.Request) : Route → IndexOp → Prop
  | .cacheInfo, _ => False
  | .metrics, op => op = .count
  | .narinfo key, op => op = .narinfo key
  | .nar url, op => op = .nar url.fileHash ∧ request.method = .head ∧ url.compression = .none

/-- An exchange writes to the index and the files only for a client that may. -/
theorem reads_handle
    (hdenied : exchange.request.method = .put → cache.admission exchange.request = .denied)
    (hasks : ∀ route op, Route.resolve exchange.request.target = .ok route →
      Asks exchange.request route op → lookups op) :
    (cache.handle exchange).run.Uses (Op.Reads lookups) := by
  refine uses_bind (reads_bump _ _ _) fun _ ↦ ?_
  split
  · exact uses_map (reads_answer exchange _ _)
  · split
    · next route hroute =>
      cases route with
      | cacheInfo => exact uses_map (reads_send exchange _ _)
      | metrics => exact uses_map (reads_metrics exchange cache (hasks _ _ hroute rfl))
      | narinfo key =>
        rw [dispatch]
        split
        · next hput =>
          rw [publish_of_denied cache (hdenied hput)]
          exact uses_bind (reads_bump _ _ _) fun _ ↦ uses_map (reads_answer exchange _ _)
        · exact uses_map (reads_narinfo exchange cache (hasks _ _ hroute rfl))
      | nar url =>
        rw [dispatch]
        split
        · next hput =>
          rw [receive_of_denied cache (hdenied hput)]
          exact uses_bind (reads_bump _ _ _) fun _ ↦ uses_map (reads_answer exchange _ _)
        · next hhead =>
          exact uses_map (reads_probe exchange fun hnone ↦ hasks _ _ hroute ⟨rfl, hhead, hnone⟩)
        · exact uses_map (reads_stream exchange url)
    · exact uses_map (reads_answer exchange _ _)
    · exact uses_map (reads_answer exchange _ _)

theorem quiet_handle
    (hdenied : exchange.request.method = .put → cache.admission exchange.request = .denied) :
    (cache.handle exchange).run.Uses Op.Quiet := by
  refine reads_handle cache hdenied fun route op _ hasks ↦ ?_
  cases route with
  | cacheInfo => exact hasks.elim
  | metrics => exact hasks ▸ trivial
  | narinfo key => exact hasks ▸ trivial
  | nar url => exact hasks.1 ▸ trivial

end Cache

end Bincache
