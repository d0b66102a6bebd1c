import Bincache.Lib.Record
import Bincache.Serve.Exchanges

/-!
# Failures of the server, on record

A run of an exchange is recorded: which operations failed under it and which bytes it read, over a
socket that works. The programs of the store, the upload and the index raise every failure they
meet, and clean-ups hide none; which failures a handler looks at is a matter of the operation and of
the method of the request, and is written down in `Op.Caught`.
-/

namespace Bincache

/-! ## The record of a run -/

inductive Event
  | failed (op : Op)
  | read (bytes : Bytes)

/-- Reading a body is no failure. -/
def Event.Harmless : Event → Prop
  | failed _ => False
  | read _ => True

/-- The answer is a failure on the server's side: of the index, of opening or statting an artifact,
or of a staging file on its way into place. A file that is not there to be opened is no failure. -/
def Op.Faulty : (op : Op) → Ans op → Bool
  | .index _, .error _ => true
  | .file (.open _), .error error => error ≠ .notFound
  | .file (.metadata _), .error _ => true
  | .file (.create _), .error _ => true
  | .file (.writeAt _ _ _), .error _ => true
  | .file (.sync _), .error _ => true
  | .file (.createDirAll _), .error _ => true
  | .file (.rename _ _), .error _ => true
  | _, _ => false

/-- What is written down about an operation. -/
def Op.events (op : Op) (answer : Ans op) : List Event :=
  match op, answer with
  | .recv, .ok bytes => [.read bytes]
  | op, answer => if op.Faulty answer then [.failed op] else []

/-- What was read, in order. -/
def arrived (record : List Event) : List Bytes :=
  record.filterMap fun
    | .read bytes => some bytes
    | .failed _ => none

/-- The socket works, and everything else may fail. -/
def connected : Interpretation Ans Site := fun op site answer site' ↦
  step .hostile op site answer site' ∧ match op, answer with
    | .recv, .error _ => False
    | .send _, .error _ => False
    | _, _ => True

/-- In every recorded run from a site, the program ends with `post`. -/
abbrev Records {α : Type} (program : Program Ans α)
    (post : α → Peer × List Event → World → Prop) (world : World) (peer : Peer)
    (record : List Event) : Prop :=
  program.Safe (.alone World) (fun _ ↦ Program.recorded Op.events connected) () post (peer, record)
    world

section Records

variable {α : Type} {program : Program Ans α} {post : α → Peer → World → Prop} {world : World}
  {peer : Peer} {record : List Event}

/-- Operations on the socket and on statistics. -/
def Op.Wire : Op → Prop
  | .recv | .send _ | .bump _ _ _ | .totals _ => True
  | _ => False

/-- Operations about which nothing is ever written down. -/
def Op.Mute : Op → Prop
  | .send _ | .bump _ _ _ | .totals _ | .processId | .nextOrdinal | .file (.remove _) => True
  | _ => False

/-- Those of them that are on the socket and on statistics. -/
def Op.Spoken : Op → Prop
  | .send _ | .bump _ _ _ | .totals _ => True
  | _ => False

theorem Op.Spoken.wire {op : Op} (h : op.Spoken) : op.Wire := by
  cases op with
  | send _ | bump _ _ _ | totals _ => trivial
  | _ => exact h.elim

theorem Op.Spoken.mute {op : Op} (h : op.Spoken) : op.Mute := by
  cases op with
  | send _ | bump _ _ _ | totals _ => trivial
  | _ => exact h.elim

private theorem events_wire (op : Op) (answer : Ans op) (h : op.Wire) :
    ∀ event ∈ op.events answer, event.Harmless := by
  cases op with
  | recv => cases answer <;> simp [Op.events, Op.Faulty, Event.Harmless]
  | send bytes => cases answer <;> simp [Op.events, Op.Faulty]
  | bump shard counter amount => simp [Op.events, Op.Faulty]
  | totals shards => simp [Op.events, Op.Faulty]
  | index op => exact h.elim
  | file op => exact h.elim
  | processId => exact h.elim
  | nextOrdinal => exact h.elim

theorem events_mute (op : Op) (answer : Ans op) (h : op.Mute) : op.events answer = [] := by
  cases op with
  | file op =>
    cases op with
    | remove path => cases answer <;> rfl
    | _ => exact h.elim
  | send bytes => cases answer <;> rfl
  | index op => exact h.elim
  | recv => exact h.elim
  | _ => rfl

private theorem fair_of_wire {op : Op} {site site' : Site} {answer : Ans op} (hwire : op.Wire)
    (h : connected op site answer site') : step .fair op site answer site' := by
  obtain ⟨⟨choice, -, heffect⟩, hsocket⟩ := h
  obtain ⟨world, peer⟩ := site
  cases op with
  | recv =>
    refine ⟨choice, Bool.eq_false_iff.mpr fun hfails ↦ ?_, heffect⟩
    rw [effect, if_pos hfails] at heffect
    obtain ⟨rfl, -⟩ := Prod.mk.inj (Option.some.inj heffect)
    exact hsocket
  | send bytes =>
    refine ⟨choice, Bool.eq_false_iff.mpr fun hfails ↦ ?_, heffect⟩
    rw [effect, if_pos hfails] at heffect
    obtain ⟨rfl, -⟩ := Prod.mk.inj (Option.some.inj heffect)
    exact hsocket
  | bump shard counter amount => exact ⟨{}, rfl, heffect⟩
  | totals shards => exact ⟨{}, rfl, heffect⟩
  | index op => exact hwire.elim
  | file op => exact hwire.elim
  | processId => exact hwire.elim
  | nextOrdinal => exact hwire.elim

/-- What a program on the socket does when nothing fails, it does when the server fails
elsewhere. -/
theorem records_wire (h : program.Uses Op.Wire) (hends : Ends .fair program post (world, peer)) :
    Records program (fun value l' world' ↦ post value l'.1 world'
      ∧ ∃ news, l'.2 = record ++ news ∧ ∀ event ∈ news, event.Harmless) world peer record :=
  ((h.safe_refine (fun _ _ _ _ hwire hop ↦ fair_of_wire hwire hop) hends).recorded).and
    (h.safe_recorded events_wire)

theorem events_of_mute (harmless : Event → Prop) (op : Op) (answer : Ans op) (h : op.Mute) :
    ∀ event ∈ op.events answer, harmless event := by
  rw [events_mute op answer h]
  exact fun event hevent ↦ absurd hevent List.not_mem_nil

private theorem append_of_forall_false {news : List Event} (h : ∀ event ∈ news, False) :
    record ++ news = record := by
  rw [List.eq_nil_iff_forall_not_mem.mpr h, List.append_nil]

theorem records_mute (h : program.Uses Op.Mute) :
    Records program (fun _ l' _ ↦ l'.2 = record) world peer record := by
  refine (h.safe_recorded (events_of_mute fun _ ↦ False)).imp ?_
  rintro value ⟨peer', record'⟩ world' - ⟨news, rfl, hnews⟩
  exact append_of_forall_false hnews

theorem records_spoken (h : program.Uses Op.Spoken)
    (hends : Ends .fair program post (world, peer)) :
    Records program (fun value l' world' ↦ post value l'.1 world' ∧ l'.2 = record)
      world peer record := by
  refine ((records_wire (h.imp fun _ ↦ Op.Spoken.wire) hends).and
    (records_mute (h.imp fun _ ↦ Op.Spoken.mute))).imp ?_
  rintro value l' world' - ⟨⟨hpost, -⟩, hrecord⟩
  exact ⟨hpost, hrecord⟩

theorem records_local (h : program.Uses Op.Local) :
    Records program (fun _ l' _ ↦ l'.1 = peer) world peer record := by
  have hends := @ends_local .hostile α program h (world, peer)
  exact (hends.refine fun _ _ _ _ hop ↦ hop.1).recorded

end Records

/-! ## Failures that are raised -/

/-- Every failure under the attempt is raised by it. -/
abbrev Raises {ε α : Type} (harmless : Event → Prop) (blames : Event → ε → Prop)
    (x : Call ε α) : Prop := Attempt.Surfaces Op.events connected harmless blames x

section Raises

open Attempt

variable {ε α : Type} {harmless : Event → Prop} {blames : Event → ε → Prop}

private theorem error_of_faulty {op : FileOp} {answer : Ans (.file op)}
    (h : Op.Faulty (.file op) answer = true) : ∃ error, answer = .error error := by
  cases answer with
  | error error => exact ⟨error, rfl⟩
  | ok value => cases op <;> exact absurd h Bool.false_ne_true

private theorem events_file (op : FileOp) (answer : Ans (.file op)) :
    Op.events (.file op) answer
      = if Op.Faulty (.file op) answer then [.failed (.file op)] else [] :=
  rfl

theorem raises_indexCall {op : IndexOp} {blames : Event → IndexError → Prop}
    (h : ∀ error, blames (.failed (.index op)) error) : Raises harmless blames (indexCall op) := by
  refine surfaces_call (Op.index op) (fun answer : Ans (.index op) ↦ answer) ?_
  rintro (error | value) event hevent
  · obtain rfl := List.mem_singleton.mp hevent
    exact .inr ⟨error, rfl, h error⟩
  · exact absurd hevent List.not_mem_nil

theorem raises_fileCall {op : FileOp} {blames : Event → IoError → Prop}
    (h : ∀ error, blames (.failed (.file op)) error) : Raises harmless blames (fileCall op) := by
  refine surfaces_call (Op.file op) (fun answer : Ans (.file op) ↦ answer) ?_
  intro answer event hevent
  rw [events_file] at hevent
  split at hevent
  · next hfaulty =>
    obtain ⟨error, rfl⟩ := error_of_faulty hfaulty
    obtain rfl := List.mem_singleton.mp hevent
    exact .inr ⟨error, rfl, h error⟩
  · exact absurd hevent List.not_mem_nil

theorem raises_mute {x : Call ε α} (h : x.run.Uses Op.Mute) : Raises harmless blames x :=
  surfaces_of_uses h (events_of_mute harmless)

theorem raises_onError {β : Type} {x : Call ε α} {cleanup : Program Ans β}
    (hx : Raises harmless blames x) (hcleanup : cleanup.Uses Op.Mute) :
    Raises harmless blames (onError x cleanup) :=
  surfaces_onError hx hcleanup (events_of_mute harmless)

theorem mute_drop (staged : Store.Staged) : staged.drop.Uses Op.Mute := ⟨trivial, fun _ ↦ trivial⟩

end Raises

/-! ## What the server failed at -/

/-- Failed operations whose failure the handler of such a request looks at. -/
def Op.Caught (method : Http.Method) : Op → Prop
  | .index (.nar _) => method = .put
  | .index (.publish _) => True
  | .file (.create _) => True
  | _ => False

/-- The event is a failure nothing looks at before it ends the exchange. -/
def Uncaught {ε : Type} (method : Http.Method) (event : Event) (_ : ε) : Prop :=
  ∃ op : Op, event = .failed op ∧ ¬op.Caught method

section Uncaught

open Attempt

variable {harmless : Event → Prop} {method : Http.Method}

theorem raises_uncaughtIndex {op : IndexOp} (h : ¬Op.Caught method (.index op)) :
    Raises harmless (Uncaught method) (indexCall op) := raises_indexCall fun _ ↦ ⟨_, rfl, h⟩

theorem raises_uncaughtFile {op : FileOp} (h : ¬Op.Caught method (.file op)) :
    Raises harmless (Uncaught method) (fileCall op) := raises_fileCall fun _ ↦ ⟨_, rfl, h⟩

namespace Store

/-- A missing artifact is an answer, and any other failure to open one is raised. -/
theorem raises_read (url : NarUrl) : Raises harmless (Uncaught method) (read url) := by
  have hmetadata : ∀ inode : ℕ, Raises harmless (Uncaught method) (do
      let size ← (fileCall (.metadata inode)).context (.metadata (path url))
      pure (some ⟨inode, path url, size⟩) : Call Error (Option Reader)) := fun inode ↦
    surfaces_bind (surfaces_context (raises_uncaughtFile id)) fun _ ↦ surfaces_done _
  intro world peer record
  refine safe_bind (safe_result (Program.safe_alone_call.mpr ?_))
  rintro answer world' ⟨peer', -⟩ ⟨-, rfl⟩
  refine Program.safe_alone_done.mpr ?_
  obtain (_ | _) | inode := answer
  · exact Program.safe_alone_done.mpr ⟨[], rfl, by simp [Blamed]⟩
  · refine Program.safe_alone_done.mpr ⟨_, rfl, fun event hevent ↦ .inr ⟨_, rfl, ?_⟩⟩
    exact ⟨_, List.mem_singleton.mp hevent, id⟩
  · exact (List.append_nil record).symm ▸ hmetadata inode world' peer' record

namespace Staged

variable (staged : Staged)

theorem raises_write (bytes : Bytes) : Raises harmless (Uncaught method) (staged.write bytes) :=
  surfaces_bind (surfaces_context (raises_uncaughtFile id)) fun _ ↦ surfaces_done _

theorem raises_commit (url : NarUrl) : Raises harmless (Uncaught method) (staged.commit url) := by
  have hlink : Raises harmless (Uncaught method) (staged.link (Store.path url)) :=
    surfaces_bind (surfaces_context (raises_uncaughtFile id)) fun _ ↦
      surfaces_bind (surfaces_context (raises_uncaughtFile id)) fun _ ↦
        surfaces_context (raises_uncaughtFile id)
  exact surfaces_bind (raises_onError hlink (mute_drop staged)) fun _ ↦ surfaces_done _

end Staged

end Store

namespace Upload

theorem raises_store (upload : Upload Verified) :
    Raises harmless (Uncaught method) upload.store :=
  surfaces_bind (surfaces_context (upload.staged.raises_commit _)) fun _ ↦
    surfaces_bind (surfaces_context (raises_uncaughtIndex id)) fun _ ↦ surfaces_done _

variable [Crates]

theorem raises_drain (upload : Upload Receiving) :
    Raises harmless (Uncaught method) upload.drain := by
  rw [drain]
  split
  · exact surfaces_done _
  · exact surfaces_bind (surfaces_context (upload.staged.raises_write _)) fun _ ↦ surfaces_done _

theorem raises_write (upload : Upload Receiving) (chunk : Bytes) :
    Raises harmless (Uncaught method) (upload.write chunk) := by
  rw [write]
  split
  · exact surfaces_done _
  · dsimp only
    split
    · exact raises_drain _
    · exact surfaces_done _

theorem raises_finish (upload : Upload Receiving) :
    Raises harmless (Uncaught method) upload.finish := by
  refine raises_onError (surfaces_bind upload.raises_drain fun upload ↦ ?_)
    (mute_drop upload.staged)
  dsimp only
  split
  · exact surfaces_done _
  · exact surfaces_bind (surfaces_context (upload.staged.raises_write _)) fun _ ↦ surfaces_done _

omit [Crates] in
theorem mute_verify (upload : Upload Compressed) : upload.verify.run.Uses Op.Mute := by
  refine uses_onError ?_ (mute_drop upload.staged)
  repeat' split
  all_goals trivial

end Upload

end Uncaught

namespace Cache

open Handler Response Attempt

/-! ## What handlers write -/

theorem spoken_bump {ε : Type} (shard : ℕ) (counter : Counter) (amount : ℕ) :
    (bump shard counter amount : Call ε Unit).run.Uses Op.Spoken :=
  uses_lift ⟨trivial, fun _ ↦ trivial⟩

theorem spoken_write (bytes : Bytes) : (write bytes).run.Uses Op.Spoken :=
  uses_context (uses_context ⟨trivial, fun _ ↦ trivial⟩)

variable (exchange : Exchange)

theorem spoken_answer (status : Status) (drained : Drained) :
    (answer exchange status drained).run.Uses Op.Spoken :=
  uses_bind (spoken_write _) fun _ ↦ trivial

theorem spoken_refuse (refusal : Refusal) (drained : Drained) :
    (refuse exchange refusal drained).run.Uses Op.Spoken := by
  rw [refuse]
  split
  · exact spoken_answer exchange _ _
  · exact uses_bind (spoken_write _) fun _ ↦ trivial

theorem spoken_send (head : Head) (body : Bytes) : (send exchange head body).run.Uses Op.Spoken :=
  uses_bind (spoken_write _) fun _ ↦ trivial

theorem spoken_proceed : (proceed exchange).run.Uses Op.Spoken := by
  rw [proceed]
  split
  · exact spoken_write _
  · trivial

theorem spoken_admitRequest [Crates] (cache : Cache) :
    (cache.admitRequest exchange).run.Uses Op.Spoken := by
  rw [admitRequest]
  dsimp only
  split
  · exact uses_bind (spoken_bump _ _ _) fun _ ↦ trivial
  · trivial

theorem wire_body (connection : Connection) (len : ℕ) : (connection.body len).run.Uses Op.Wire := by
  induction hn : len - connection.buffer.length using Nat.strong_induction_on
    generalizing connection with
  | _ n ih =>
    rw [Connection.body]
    split
    · refine uses_bind (uses_context ⟨trivial, fun _ ↦ trivial⟩) fun read ↦ ?_
      split
      · trivial
      · next hread =>
        have hpos := List.length_pos_of_ne_nil hread
        refine ih _ ?_ ⟨connection.buffer ++ read⟩ rfl
        rw [← hn, List.length_append]
        omega
    · trivial

/-! ## Handlers that raise every failure -/

variable {harmless : Event → Prop} {method : Http.Method}

theorem raises_spoken {ε α : Type} {blames : Event → ε → Prop} {x : Call ε α}
    (h : x.run.Uses Op.Spoken) : Raises harmless blames x :=
  raises_mute (h.imp fun _ ↦ Op.Spoken.mute)

theorem raises_metrics (cache : Cache) :
    Raises harmless (Uncaught method) (cache.metrics exchange) :=
  surfaces_bind (surfaces_context (raises_uncaughtIndex id)) fun _ ↦
    surfaces_bind (raises_mute (uses_lift ⟨trivial, fun _ ↦ trivial⟩)) fun _ ↦
      raises_spoken (spoken_send exchange _ _)

theorem raises_narinfo [Crates] (cache : Cache) (key : StorePath.Hash) :
    Raises harmless (Uncaught method) (cache.narinfo exchange key) := by
  refine surfaces_bind (surfaces_context (raises_uncaughtIndex id)) ?_
  rintro (_ | record)
  · exact surfaces_bind (raises_spoken (spoken_bump _ _ _)) fun _ ↦
      raises_spoken (spoken_answer exchange _ _)
  · exact surfaces_bind (raises_spoken (spoken_bump _ _ _)) fun _ ↦
      raises_spoken (spoken_send exchange _ _)

theorem raises_probe (hmethod : method ≠ .put) (url : NarUrl) :
    Raises harmless (Uncaught method) (probe exchange url) := by
  refine surfaces_bind ?_ ?_
  · rw [probeLength]
    split
    · exact surfaces_bind (surfaces_context (raises_uncaughtIndex hmethod)) fun _ ↦ surfaces_done _
    · exact surfaces_bind (surfaces_context (Store.raises_read url)) fun _ ↦ surfaces_done _
  · rintro (_ | length)
    · exact raises_spoken (spoken_answer exchange _ _)
    · exact surfaces_bind (raises_spoken (spoken_write _)) fun _ ↦ surfaces_done _

theorem raises_pump (reader : Store.Reader) (span : Range.Span) (offset : ℕ) :
    Raises harmless (Uncaught method) (pump reader span offset) := by
  induction offset using pump.induct span with
  | case1 offset hle wanted ih =>
    rw [pump, if_pos hle]
    refine surfaces_bind (surfaces_context (surfaces_context (raises_uncaughtFile id)))
      fun read ↦ ?_
    split
    · exact surfaces_done _
    · next hread => exact surfaces_bind (raises_spoken (spoken_write _)) fun _ ↦ ih read hread
  | case2 offset hlt =>
    rw [pump, if_neg hlt]
    exact surfaces_done _

theorem raises_stream (url : NarUrl) : Raises harmless (Uncaught method) (stream exchange url) := by
  have htransmit : ∀ (reader : Store.Reader) (head : Bytes) (span : Range.Span),
      Raises harmless (Uncaught method) (do
        write head
        let sent ← pump reader span span.first
        bump exchange.shard .payloadBytes sent
        pure exchange.request.keepAlive : Call Handler.Error _) :=
    fun reader head span ↦ surfaces_bind (raises_spoken (spoken_write _)) fun _ ↦
      surfaces_bind (raises_pump reader span _) fun _ ↦
        surfaces_bind (raises_spoken (spoken_bump _ _ _)) fun _ ↦ surfaces_done _
  refine surfaces_bind (surfaces_context (Store.raises_read url)) ?_
  rintro (_ | reader)
  · exact raises_spoken (spoken_answer exchange _ _)
  · dsimp only
    split
    · exact raises_spoken (spoken_answer exchange _ _)
    · split
      · exact htransmit reader _ _
      · exact htransmit reader _ _
      · exact surfaces_bind (raises_spoken (spoken_write _)) fun _ ↦ surfaces_done _

end Cache

end Bincache
