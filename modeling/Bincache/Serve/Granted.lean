import Bincache.Ingest.Publishing
import Bincache.Lib.Glance
import Bincache.Lib.Granting
import Bincache.Serve.Exchanges

/-!
# Pushes that meet no failure

None of the operations of a push fails, and beside it other connections do what they do. An upload
works on a file of its own, so nothing they do can make it fail, and of the tables a publish looks
at one row only, which a server keeps once it has it. Such a push is answered with success.

What the others do is `Standing`: it leaves every NAR received, under the size it has, and some
record wherever there was one.
-/

namespace Bincache

/-! ## Operations that do not fail -/

/-- The operation did not fail. -/
def Op.Granted : (op : Op) → Ans op → Prop
  | .index _, answer => ∃ value, answer = .ok value
  | .file _, answer => ∃ value, answer = .ok value
  | .recv, answer => ∃ bytes, answer = .ok bytes
  | .send _, answer => answer = .ok ()
  | _, _ => True

instance (op : Op) (answer : Ans op) : Decidable (op.Granted answer) :=
  match op, answer with
  | .index _, .ok value => isTrue ⟨value, rfl⟩
  | .index _, .error _ => isFalse (by rintro ⟨value, ⟨⟩⟩)
  | .file _, .ok value => isTrue ⟨value, rfl⟩
  | .file _, .error _ => isFalse (by rintro ⟨value, ⟨⟩⟩)
  | .recv, .ok bytes => isTrue ⟨bytes, rfl⟩
  | .recv, .error _ => isFalse (by rintro ⟨bytes, ⟨⟩⟩)
  | .send _, .ok _ => isTrue rfl
  | .send _, .error _ => isFalse (by rintro ⟨⟩)
  | .processId, _ => isTrue trivial
  | .nextOrdinal, _ => isTrue trivial
  | .bump _ _ _, _ => isTrue trivial
  | .totals _, _ => isTrue trivial

open Attempt (Succeeds succeeds_pure succeeds_bind succeeds_context succeeds_lift succeeds_onError)

theorem succeeds_fileCall (op : FileOp) : Succeeds Op.Granted (fileCall op) fun _ ↦ True := by
  rintro _ ⟨value, rfl⟩
  exact ⟨value, rfl, trivial⟩

namespace Store

theorem succeeds_stage : Succeeds Op.Granted stage fun staged ↦ staged.offset = 0 := by
  refine succeeds_bind (succeeds_lift fun _ _ ↦ trivial) fun ordinal _ ↦ ?_
  refine succeeds_bind (succeeds_lift fun _ _ ↦ trivial) fun pid _ ↦ ?_
  refine succeeds_bind (succeeds_context (succeeds_fileCall _)) fun inode _ ↦ ?_
  exact succeeds_pure rfl

namespace Staged

variable (staged : Staged)

theorem succeeds_write (bytes : Bytes) : Succeeds Op.Granted (staged.write bytes)
    fun staged' ↦ staged'.offset = staged.offset + bytes.length :=
  succeeds_bind (succeeds_context (succeeds_fileCall _)) fun _ _ ↦ succeeds_pure rfl

theorem succeeds_commit (url : NarUrl) : Succeeds Op.Granted (staged.commit url) fun _ ↦ True := by
  have hlink : Succeeds Op.Granted (staged.link (Store.path url)) fun _ ↦ True := by
    refine succeeds_bind (succeeds_context (succeeds_fileCall _)) fun _ _ ↦ ?_
    refine succeeds_bind (succeeds_context (succeeds_fileCall _)) fun _ _ ↦ ?_
    exact succeeds_context (succeeds_fileCall _)
  exact succeeds_bind (succeeds_onError hlink) fun _ _ ↦ succeeds_pure trivial

end Staged

end Store

namespace Upload

variable [Crates] {level : Level} {expected : Sha256} {upload : Upload Receiving}
  {chunks : List Bytes}

/-- The upload has absorbed these chunks, of what is to hash to `expected`. -/
structure Absorbs (level : Level) (expected : Sha256) (upload : Upload Receiving)
    (chunks : List Bytes) : Prop where
  expected : upload.expected = expected
  fed : ∃ data, Fed level upload chunks data ∧ upload.staged.offset = data.length

variable (hencoder : Crates.EncoderSucceeds)

include hencoder

theorem succeeds_new {staged : Store.Staged} (h : staged.offset = 0) :
    Succeeds Op.Granted (new staged expected level) fun upload ↦
      upload.Absorbs level expected [] := by
  obtain ⟨encoder, hnew⟩ := Option.isSome_iff_exists.mp (hencoder.new level.get)
  rw [new, hnew]
  exact succeeds_pure ⟨rfl, [], fed_nil hnew staged expected, h⟩

omit hencoder in
theorem succeeds_drain (h : upload.Absorbs level expected chunks) :
    Succeeds Op.Granted upload.drain fun upload' ↦ upload'.Absorbs level expected chunks := by
  obtain ⟨hexpected, data, hfed, hoffset⟩ := h
  rw [drain]
  split
  · exact succeeds_pure ⟨hexpected, data, hfed, hoffset⟩
  · refine succeeds_bind (succeeds_context (upload.staged.succeeds_write _)) fun staged hstaged ↦ ?_
    refine succeeds_pure ⟨hexpected, _, hfed.drained staged, ?_⟩
    rw [List.length_append, ← hoffset]
    exact hstaged

theorem succeeds_write (h : upload.Absorbs level expected chunks) (chunk : Bytes) :
    Succeeds Op.Granted (upload.write chunk) fun upload' ↦
      upload'.Absorbs level expected (chunks ++ [chunk]) := by
  obtain ⟨hexpected, data, hfed, hoffset⟩ := h
  obtain ⟨⟨encoder, output⟩, hwrite⟩ :=
    Option.isSome_iff_exists.mp (hencoder.write upload.state.encoder chunk)
  have habsorbed : (upload.absorbed chunk encoder output).Absorbs level expected
      (chunks ++ [chunk]) := ⟨hexpected, data, hfed.absorbed hwrite, hoffset⟩
  rw [write, hwrite]
  dsimp only
  split
  · exact succeeds_drain habsorbed
  · exact succeeds_pure habsorbed

theorem succeeds_finish (h : upload.Absorbs level expected chunks) :
    Succeeds Op.Granted upload.finish fun compressed ↦ compressed.expected = expected
      ∧ ∃ artifact, Packed level compressed chunks artifact := by
  refine succeeds_onError (succeeds_bind (succeeds_drain h) fun drained hdrained ↦ ?_)
  obtain ⟨hexpected, data, hfed, hoffset⟩ := hdrained
  obtain ⟨rest, hfinish⟩ :=
    Option.isSome_iff_exists.mp (hencoder.finish drained.state.encoder)
  rw [hfinish]
  refine succeeds_bind (succeeds_context (drained.staged.succeeds_write _)) fun staged hstaged ↦ ?_
  refine succeeds_pure ⟨hexpected, _, hfed.packed hfinish staged ?_⟩
  rw [hstaged, hoffset]
  exact List.length_append.symm

omit hencoder in
theorem succeeds_verify {compressed : Upload Compressed} {artifact : Bytes}
    (h : Packed level compressed chunks artifact)
    (hexpected : compressed.expected = .digest chunks.flatten) (hnil : chunks.flatten ≠ []) :
    Succeeds Op.Granted compressed.verify fun verified ↦
      Vouches level compressed.expected verified chunks artifact := by
  obtain ⟨verified, hverify, -, hvouches, -⟩ | ⟨error, -, -, hwrong⟩ := h.verify
  · rw [hverify]
    exact succeeds_onError (succeeds_pure hvouches)
  · exact absurd hwrong (not_or.mpr ⟨not_not.mpr hexpected, hnil⟩)

end Upload

theorem Ingest.succeeds_receive [Crates] (hencoder : Crates.EncoderSucceeds) (ingest : Ingest)
    {url : NarUrl} (hcompression : url.compression = .none) :
    Succeeds Op.Granted (ingest.receive url) fun upload ↦
      upload.Absorbs ingest.level url.fileHash [] := by
  rw [receive, if_pos hcompression]
  refine succeeds_bind (succeeds_context Store.succeeds_stage) fun staged hoffset ↦ ?_
  exact succeeds_context (Upload.succeeds_new hencoder hoffset)

/-! ## Beside others -/

/-- Whatever the others do, every NAR that was received is there, under the size it has, and so is
some record wherever there was one. -/
structure Standing (world world' : World) : Prop where
  nar : ∀ narHash entry, world.index.nar narHash = some entry →
    ∃ entry', world'.index.nar narHash = some entry' ∧ entry'.narSize = entry.narSize
  narinfo : ∀ key, (world.index.narinfo key).isSome → (world'.index.narinfo key).isSome

theorem standing_refl (world : World) : Standing world world :=
  ⟨fun _ entry h ↦ ⟨entry, h, rfl⟩, fun _ ↦ id⟩

theorem Standing.trans {a b c : World} (hab : Standing a b) (hbc : Standing b c) :
    Standing a c := by
  refine ⟨fun narHash entry h ↦ ?_, fun key h ↦ hbc.narinfo key (hab.narinfo key h)⟩
  obtain ⟨entry', h', hsize⟩ := hab.nar narHash entry h
  obtain ⟨entry'', h'', hsize'⟩ := hbc.nar narHash entry' h'
  exact ⟨entry'', h'', hsize'.trans hsize⟩

/-- A world, and those so far, each with what had been sent and said by then. -/
abbrev History : Type := World × Set (World × Peer)

/-- What the others may have made of a state. -/
abbrev Later (t t' : History) : Prop := Standing t.1 t'.1 ∧ t.2 ⊆ t'.2

theorem Later.trans {a b c : History} (hab : Later a b) (hbc : Later b c) : Later a c :=
  ⟨Standing.trans hab.1 hbc.1, Set.Subset.trans hab.2 hbc.2⟩

/-- An operation that leaves the tables alone leaves what stands. -/
theorem later_of_index {t : History} {world world' : World} {peer : Peer}
    {past : Set (World × Peer)} (hlater : Later t (world, past))
    (hindex : world'.index = world.index) : Later t (world', insert (world', peer) past) := by
  refine hlater.trans ⟨⟨fun narHash entry h ↦ ⟨entry, ?_, rfl⟩, fun key h ↦ ?_⟩, ?_⟩
  · rwa [hindex]
  · rwa [hindex]
  · exact Set.subset_insert _ _

def granted : Interpretation Ans Site := fun op site answer site' ↦
  step .hostile op site answer site' ∧ op.Granted answer

/-- Beside others and without a failure of its own, the program ends with `post`. Of the others it
is known that their states so far are `Standing`. -/
abbrev Goes {α : Type} (program : Program Ans α) (post : α → Peer → History → Prop)
    (peer : Peer) (t : History) : Prop :=
  program.Safe (.watching Standing standing_refl Standing.trans) (Program.watched granted) () post
    peer t

section Goes

variable {α ε : Type} {program : Program Ans α} {post : α → Peer → History → Prop}
  {peer : Peer} {t : History}

/-- The next operation starts in a state that the others have left. -/
theorem goes_call {op : Op} {next : Ans op → Program Ans α}
    (h : ∀ world past, Later t (world, past) → ∀ answer world' peer',
      granted op (world, peer) answer (world', peer') →
        Goes (next answer) post peer' (world', insert (world', peer') past)) :
    Goes (.call op next) post peer t := by
  rintro ⟨world, past⟩ hlater - answer ⟨world', past'⟩ peer' ⟨hop, hpast⟩
  obtain rfl : past' = insert (world', peer') past := hpast
  exact ⟨⟨peer', Set.mem_insert _ _⟩, fun j hj ↦ absurd rfl hj, h _ _ hlater answer _ _ hop⟩

/-- A transaction happens at one moment, and the others have their turn again after it. -/
theorem goes_indexCall {op : IndexOp} {post : Except IndexError op.Value → Peer →
      History → Prop}
    (h : ∀ world past t', Later t (world, past) →
      Later ({ world with index := (op.run world.index).2 },
        insert ({ world with index := (op.run world.index).2 }, peer) past) t' →
      post (.ok (op.run world.index).1) peer t') : Goes (indexCall op).run post peer t := by
  refine goes_call fun world past hlater answer world' peer' hop ↦ ?_
  obtain ⟨hop, value, hvalue⟩ := hop
  obtain ⟨-, rfl, -⟩ | ⟨rfl, hsite⟩ := of_step_index hop
  · cases hvalue
  · obtain ⟨rfl, rfl⟩ := Prod.mk.inj hsite
    exact fun t' hlater' _ ↦ h world past t' hlater hlater'

theorem goes_bump (shard : ℕ) (counter : Counter) (amount : ℕ) :
    Goes (Cache.bump shard counter amount : Call ε Unit).run
      (fun result peer' t' ↦ result = .ok () ∧ peer' = peer ∧ Later t t') peer t := by
  refine goes_call fun world past hlater answer world' peer' hop ↦ ?_
  obtain ⟨rfl, rfl⟩ := Prod.mk.inj (of_step_bump hop.1)
  have hbumped : Later t (world.bump shard counter amount,
      insert (world.bump shard counter amount, peer') past) := later_of_index hlater rfl
  exact fun t' hlater' _ ↦ ⟨rfl, rfl, hbumped.trans hlater'⟩

theorem goes_of_succeeds {x : Call ε α} {post : α → Prop} (h : Succeeds Op.Granted x post)
    (huses : x.run.Uses Op.Local) :
    Goes x.run (fun result peer' _ ↦ (∃ value, result = .ok value ∧ post value) ∧ peer' = peer)
      peer t := by
  refine h.safe huses ?_
  rintro op ⟨world, past⟩ peer answer ⟨world', past'⟩ peer' hlocal - ⟨⟨hop, hgranted⟩, hpast⟩
  obtain rfl : past' = insert (world', peer') past := hpast
  exact ⟨hgranted, peer_of_local hlocal hop, ⟨peer', Set.mem_insert _ _⟩, fun j hj ↦ absurd rfl hj⟩

def Op.Socket : Op → Prop
  | .recv | .send _ => True
  | _ => False

/-- What the socket does is the same in every state. -/
theorem fair_of_granted {op : Op} {world world' : World} {peer peer' : Peer} {answer : Ans op}
    (hsocket : op.Socket) (hop : granted op (world, peer) answer (world', peer')) :
    world' = world ∧ ∀ other, step .fair op (other, peer) answer (other, peer') := by
  obtain ⟨hop, hgranted⟩ := hop
  cases op with
  | recv =>
    obtain ⟨-, rfl, -⟩ | ⟨count, rfl, hsite⟩ := of_step_recv hop
    · exact absurd hgranted (by rintro ⟨bytes, ⟨⟩⟩)
    · obtain ⟨rfl, rfl⟩ := Prod.mk.inj hsite
      exact ⟨rfl, fun _ ↦ ⟨{ count }, rfl, rfl⟩⟩
  | send bytes =>
    obtain ⟨-, rfl, -⟩ | ⟨rfl, hsite⟩ := of_step_send hop
    · exact absurd hgranted (by rintro ⟨⟩)
    · obtain ⟨rfl, rfl⟩ := Prod.mk.inj hsite
      exact ⟨rfl, fun _ ↦ ⟨{}, rfl, rfl⟩⟩
  | _ => exact hsocket.elim

/-- On the socket, a program does beside others what it does alone. -/
theorem goes_of_ends {post : α → Peer → Prop} (h : program.Uses Op.Socket)
    (hends : ∀ world, Ends .fair program (fun value peer' _ ↦ post value peer') (world, peer)) :
    Goes program (fun value peer' t' ↦ post value peer' ∧ Later t t') peer t := by
  induction program generalizing peer t with
  | done value => exact fun t' hlater _ ↦ ⟨Program.safe_alone_done.mp (hends t.1), hlater⟩
  | call op next ih =>
    refine goes_call fun world past hlater answer world' peer' hop ↦ ?_
    obtain ⟨rfl, hfair⟩ := fair_of_granted h.1 hop
    refine (ih answer (h.2 answer) fun other ↦ ?_).imp ?_
    · exact Program.safe_alone_call.mp (hends other) answer other peer' (hfair other)
    · exact fun value peer'' t' _ hend ↦
        ⟨hend.1, (later_of_index hlater rfl).trans hend.2⟩

end Goes

/-! ## Bodies -/

namespace Connection

theorem socket_recv : recv.run.Uses Op.Socket := ⟨trivial, fun _ ↦ trivial⟩

theorem socket_send (bytes : Bytes) : (send bytes).run.Uses Op.Socket := ⟨trivial, fun _ ↦ trivial⟩

theorem socket_chunk (connection : Connection) (remaining : ℕ) :
    (connection.chunk remaining).run.Uses Op.Socket := by
  rw [chunk]
  split
  · trivial
  refine Attempt.uses_bind ?_ fun _ ↦ trivial
  rw [fill]
  split
  · refine Attempt.uses_bind socket_recv fun read ↦ ?_
    split <;> trivial
  · trivial

theorem socket_body (connection : Connection) (len : ℕ) :
    (connection.body len).run.Uses Op.Socket := by
  induction hn : len - connection.buffer.length using Nat.strong_induction_on
    generalizing connection with
  | _ n ih =>
    rw [body]
    split
    · next hshort =>
      refine Attempt.uses_bind socket_recv fun read ↦ ?_
      split
      · trivial
      · next hread =>
        refine ih _ ?_ ⟨connection.buffer ++ read⟩ rfl
        have hpos := List.length_pos_of_ne_nil hread
        rw [List.length_append]
        omega
    · trivial

variable {peer : Peer} {t : History}

/-- While something of the stream is left, a chunk of it can be read. -/
theorem goes_chunk (connection : Connection) {remaining : ℕ} (hremaining : 0 < remaining)
    (hstream : connection.stream peer ≠ []) :
    Goes (connection.chunk remaining).run (fun result peer' t' ↦ (∃ chunk connection',
      result = .ok (chunk, connection') ∧ connection.stream peer = chunk ++ connection'.stream peer'
        ∧ chunk ≠ [] ∧ chunk.length ≤ remaining ∧ peer'.written = peer.written) ∧ Later t t')
      peer t := by
  refine goes_of_ends (socket_chunk connection remaining) fun world ↦ ?_
  refine (ends_chunk connection hremaining (world, peer)).imp ?_
  rintro (error | ⟨chunk, connection'⟩) peer' world' - ⟨-, hwritten, hresult⟩
  · exact absurd (hresult.resolve_left (by decide)).2 hstream
  · obtain ⟨hchunk, hnil, hlen, -⟩ := hresult
    exact ⟨chunk, connection', rfl, hchunk, hnil, hlen, hwritten⟩

theorem goes_body (connection : Connection) {body rest : Bytes}
    (hstream : connection.stream peer = body ++ rest) :
    Goes (connection.body body.length).run (fun result peer' t' ↦ (∃ connection',
      result = .ok (body, connection') ∧ connection'.stream peer' = rest
        ∧ peer'.written = peer.written) ∧ Later t t') peer t := by
  refine goes_of_ends (socket_body connection body.length) fun world ↦ ?_
  refine (ends_body connection body.length (world, peer)).imp ?_
  rintro (error | ⟨read, connection'⟩) peer' world' - ⟨-, hwritten, hresult⟩
  · refine absurd (hresult.resolve_left (by decide)).2 (Nat.not_lt.mpr ?_)
    rw [hstream, List.length_append]
    exact Nat.le_add_right _ _
  · obtain ⟨hread, hlen⟩ := hresult
    obtain ⟨rfl, hrest⟩ := List.append_inj (hread.symm.trans hstream) hlen
    exact ⟨connection', rfl, hrest, hwritten⟩

end Connection

namespace Cache

open Handler Response

variable [Crates] {level : Level} {expected : Sha256} {peer : Peer} {t : History}

/-- What is left of a body is absorbed, whatever chunks it comes in. -/
theorem goes_absorbBody (hencoder : Crates.EncoderSucceeds) {upload : Upload Upload.Receiving}
    {chunks : List Bytes} (h : upload.Absorbs level expected chunks) (connection : Connection)
    {body rest : Bytes} (hstream : connection.stream peer = body ++ rest) :
    Goes (absorbBody upload connection body.length).run (fun result peer' _ ↦
      ∃ upload' connection' more, result = .ok (upload', connection')
        ∧ upload'.Absorbs level expected (chunks ++ more) ∧ more.flatten = body
        ∧ connection'.stream peer' = rest ∧ peer'.written = peer.written) peer t := by
  induction hlen : body.length using Nat.strong_induction_on
    generalizing upload chunks connection body peer t with
  | _ remaining ih =>
    rw [absorbBody]
    split
    · next hpos =>
      have hnil : connection.stream peer ≠ [] := by
        rw [hstream]
        exact List.append_ne_nil_of_left_ne_nil (List.length_pos_iff.mp (hlen ▸ hpos)) rest
      refine Attempt.safe_bind (Attempt.safe_context
        ((Connection.goes_chunk connection hpos hnil).imp ?_))
      rintro _ peer₁ t₁ - ⟨⟨chunk, connection₁, rfl, hchunk, hne, hle, hwritten⟩, -⟩
      dsimp only [Except.mapError]
      rw [dif_neg hne]
      -- the chunk is a piece of the body, and the rest of it is what is still to come
      obtain ⟨left, rfl⟩ : chunk <+: body :=
        List.prefix_of_prefix_length_le ⟨_, hchunk.symm.trans hstream⟩ ⟨rest, rfl⟩ (hlen ▸ hle)
      have hstream₁ : connection₁.stream peer₁ = left ++ rest := by
        rw [hchunk, List.append_assoc] at hstream
        exact List.append_cancel_left hstream
      refine Attempt.safe_bind (Attempt.safe_context
        ((goes_of_succeeds (Upload.succeeds_write hencoder h chunk)
          (upload.uses_write chunk)).imp ?_))
      rintro _ peer₂ t₂ - ⟨⟨upload', rfl, habsorbs⟩, rfl⟩
      have hleft : remaining - chunk.length = left.length := by
        rw [← hlen, List.length_append, Nat.add_sub_cancel_left]
      have hlt : left.length < remaining := by
        have := List.length_pos_of_ne_nil hne
        omega
      rw [hleft]
      refine (ih left.length hlt habsorbs connection₁ hstream₁ rfl).imp ?_
      rintro _ peer₃ t₃ - ⟨upload'', connection', more, rfl, habsorbs', rfl, hrest, hwritten'⟩
      refine ⟨upload'', connection', chunk :: more, rfl, ?_, rfl, hrest, hwritten'.trans hwritten⟩
      rwa [List.append_assoc] at habsorbs'
    · next hzero =>
      obtain rfl : body = [] := List.length_eq_zero_iff.mp (by omega)
      refine fun _ _ _ ↦ ⟨upload, connection, [], rfl, ?_, rfl, hstream, rfl⟩
      rwa [List.append_nil]

/-! ## Pushes -/

omit [Crates] in
theorem socket_write (bytes : Bytes) : (write bytes).run.Uses Op.Socket :=
  Attempt.uses_context (Connection.socket_send bytes)

omit [Crates] in
theorem goes_proceed (exchange : Exchange) : Goes (proceed exchange).run (fun result peer' t' ↦
    (result = .ok () ∧ peer'.unread = peer.unread
      ∧ peer'.written = peer.written ++ invitation exchange) ∧ Later t t') peer t := by
  have huses : (proceed exchange).run.Uses Op.Socket := by
    rw [proceed]
    split
    · exact socket_write _
    · trivial
  refine goes_of_ends huses fun world ↦ (ends_proceed exchange (world, peer)).imp ?_
  rintro (error | ⟨⟩) peer' world' - ⟨-, hunread, hresult⟩
  · exact absurd hresult.1 (by decide)
  · exact ⟨rfl, hunread, hresult⟩

omit [Crates] in
theorem goes_answer (exchange : Exchange) (status : Status) : Goes (answer exchange status
    .consumed).run (fun result peer' t' ↦ (result = .ok exchange.request.keepAlive
      ∧ peer'.unread = peer.unread
      ∧ peer'.written = peer.written ++ bare status exchange.request.keepAlive 0) ∧ Later t t')
    peer t := by
  rw [answer, keepAlive_consumed]
  refine goes_of_ends (Attempt.uses_bind (socket_write _) fun _ ↦ trivial) fun world ↦ ?_
  refine Attempt.safe_bind (Attempt.safe_context ((Connection.ends_send _ (world, peer)).imp ?_))
  rintro (error | ⟨⟩) peer' world' - ⟨-, hunread, hresult⟩
  · exact absurd hresult.1 (by decide)
  · exact ends_done ⟨rfl, hunread, hresult⟩

/-- The push was answered with success, and its body is what was read. -/
def Welcomed (exchange : Exchange) (peer peer' : Peer)
    (result : Except Handler.Error (Http.KeepAlive × Connection)) : Prop :=
  ∃ connection' body, result = .ok (exchange.request.keepAlive, connection')
    ∧ exchange.request.framing = .length body.length
    ∧ exchange.connection.stream peer = body ++ connection'.stream peer'
    ∧ peer'.written
      = peer.written ++ (invitation exchange ++ bare .created exchange.request.keepAlive 0)

variable {exchange : Exchange} {rest : Bytes}

omit [Crates] in
theorem goes_created {start : Peer} (hwritten : peer.written = start.written ++ invitation exchange)
    {connection : Connection} {body : Bytes}
    (hframing : exchange.request.framing = .length body.length)
    (hstream : exchange.connection.stream start = body ++ connection.stream peer) :
    Goes (do
        let keepAlive ← answer exchange .created .consumed
        pure (keepAlive, connection) : Call Handler.Error _).run
      (fun result peer' t' ↦ Welcomed exchange start peer' result ∧ Later t t') peer t := by
  refine Attempt.safe_bind ((goes_answer exchange .created).imp ?_)
  rintro _ peer' t₁ - ⟨⟨rfl, hunread, hanswer⟩, hlater⟩
  refine fun t' hlater' _ ↦ ⟨⟨connection, body, rfl, hframing, ?_, ?_⟩, hlater.trans hlater'⟩
  · rw [hstream, Connection.stream, Connection.stream, hunread]
  · rw [hanswer, hwritten, List.append_assoc]

theorem goes_admitRequest {cache : Cache} (h : cache.admission exchange.request = .admitted) :
    Goes (cache.admitRequest exchange).run (fun result peer' t' ↦
      result = .ok .admitted ∧ peer' = peer ∧ Later t t') peer t := by
  rw [admitRequest, h]
  exact fun t' hlater _ ↦ ⟨rfl, rfl, hlater⟩

/-- An upload is received if all of it is there, and it is what was announced. -/
theorem goes_receive (hencoder : Crates.EncoderSucceeds) {cache : Cache} {url : NarUrl}
    {nar : Bytes} (hadmitted : cache.admission exchange.request = .admitted)
    (hframing : exchange.request.framing = .length nar.length)
    (hcompression : url.compression = .none) (hhash : url.fileHash = .digest nar) (hnil : nar ≠ [])
    (hstream : exchange.connection.stream peer = nar ++ rest) :
    Goes (cache.receive exchange url).run (fun result peer' t' ↦
      Welcomed exchange peer peer' result
        ∧ ∃ entry, t'.1.index.nar url.fileHash = some entry ∧ (entry.narSize : ℕ) = nar.length)
      peer t := by
  refine Attempt.safe_bind ((goes_admitRequest hadmitted).imp ?_)
  rintro _ peer₁ t₁ - ⟨rfl, rfl, -⟩
  dsimp only
  rw [if_neg (by decide), hframing]
  dsimp only
  refine Attempt.safe_bind (Attempt.safe_result ((goes_of_succeeds
    (cache.ingest.succeeds_receive hencoder hcompression)
    (cache.ingest.uses_receive url)).imp ?_))
  rintro _ peer₂ t₂ - ⟨⟨upload, rfl, habsorbs⟩, rfl⟩
  refine Attempt.safe_bind (Attempt.safe_onError (Attempt.safe_bind
    ((goes_proceed exchange).imp ?_)))
  rintro _ peer₃ t₃ - ⟨⟨rfl, hunread, hproceed⟩, -⟩
  have hstream₃ : exchange.connection.stream peer₃ = nar ++ rest := by
    rw [← hstream, Connection.stream, Connection.stream, hunread]
  refine (goes_absorbBody hencoder habsorbs exchange.connection hstream₃).imp ?_
  rintro _ peer₄ t₄ - ⟨upload', connection, chunks, rfl, habsorbs', hbody, hrest, hwritten⟩
  rw [List.nil_append] at habsorbs'
  refine Attempt.safe_bind (Attempt.safe_context ((goes_of_succeeds
    (Upload.succeeds_finish hencoder habsorbs') upload'.uses_finish).imp ?_))
  rintro _ peer₅ t₅ - ⟨⟨compressed, rfl, hexpected, artifact, hpacked⟩, rfl⟩
  have hdigest : compressed.expected = .digest chunks.flatten := by
    rw [hexpected, hbody, hhash]
  refine Attempt.safe_bind (Attempt.safe_result ((goes_of_succeeds
    (Upload.succeeds_verify hpacked hdigest (hbody ▸ hnil)) compressed.uses_verify).imp ?_))
  rintro _ peer₆ t₆ - ⟨⟨verified, rfl, hvouches⟩, rfl⟩
  -- the row is written under the hash that was announced, and stays from then on
  refine Attempt.safe_bind (Attempt.safe_context (Attempt.safe_bind (Attempt.safe_context
    ((goes_of_succeeds (verified.staged.succeeds_commit _)
      (verified.staged.uses_commit _)).imp ?_))))
  rintro _ peer₇ t₇ - ⟨⟨offset, rfl, -⟩, rfl⟩
  refine Attempt.safe_bind (Attempt.safe_context (goes_indexCall fun world past t₈ _ hlater ↦ ?_))
  have hput := (Index.nar_putNar world.index verified.state.narHash
    ⟨verified.state.fileHash, verified.state.fileSize, verified.state.narSize, storedAs⟩
    url.fileHash).trans (if_pos (hexpected.symm.trans hvouches.narHash.symm))
  refine fun t₉ (hlater₉ : Later t₈ t₉) _ ↦ ?_
  dsimp only [Except.mapError]
  refine Attempt.safe_bind ((goes_bump _ _ _).imp ?_)
  rintro _ peer₈ t₁₀ - ⟨rfl, rfl, hlater₁₀⟩
  refine (goes_created (hwritten.trans hproceed) hframing (hrest ▸ hstream)).imp ?_
  rintro result peer₉ t' - ⟨hwelcomed, hlater'⟩
  obtain ⟨entry, hrow, hsize⟩ := (hlater.trans (hlater₉.trans (hlater₁₀.trans hlater'))).1.nar
    url.fileHash _ hput
  refine ⟨hwelcomed, entry, hrow, ?_⟩
  rw [hsize, ← hbody]
  exact hvouches.narSize

/-- A record is published if its NAR has been received. -/
theorem goes_publish {cache : Cache} {text : Text} {declared : NarInfo} {entry : Entry}
    (hadmitted : cache.admission exchange.request = .admitted)
    (hframing : exchange.request.framing = .length (Text.utf8 text).length)
    (hlength : (Text.utf8 text).length ≤ Http.metadataBodyMax)
    (hstream : exchange.connection.stream peer = Text.utf8 text ++ rest)
    (hparse : NarInfo.parse text cache.ingest.dir = .ok declared)
    (hrow : t.1.index.nar declared.narHash = some entry)
    (hsize : entry.narSize = declared.narSize) :
    Goes (cache.publish exchange).run (fun result peer' t' ↦
      Welcomed exchange peer peer' result
        ∧ ∃ moment ∈ t'.2, moment.2.written = peer.written ++ invitation exchange
          ∧ ∃ entry, moment.1.index.narinfo declared.storePath.hash
            = some (cache.ingest.record declared entry)) peer t := by
  refine Attempt.safe_bind ((goes_admitRequest hadmitted).imp ?_)
  rintro _ peer₁ t₁ - ⟨rfl, rfl, hlater₁⟩
  dsimp only
  rw [if_neg (by decide), hframing]
  dsimp only
  rw [if_neg (Nat.not_lt.mpr hlength)]
  refine Attempt.safe_bind ((goes_proceed exchange).imp ?_)
  rintro _ peer₂ t₂ - ⟨⟨rfl, hunread, hproceed⟩, hlater₂⟩
  have hstream₂ : exchange.connection.stream peer₂ = Text.utf8 text ++ rest := by
    rw [← hstream, Connection.stream, Connection.stream, hunread]
  refine Attempt.safe_bind (Attempt.safe_context
    ((Connection.goes_body exchange.connection hstream₂).imp ?_))
  rintro _ peer₃ t₃ - ⟨⟨connection, rfl, hrest, hwritten⟩, hlater₃⟩
  dsimp only [Except.mapError]
  rw [Text.fromUtf8_utf8]
  dsimp only
  refine Attempt.safe_bind (Attempt.safe_result ?_)
  rw [cache.ingest.publish_of_ok hparse]
  -- by the time the row is looked up it may be another one, for a NAR of the same size
  refine Attempt.safe_bind (Attempt.safe_context (goes_indexCall fun world past t₄ hlater₄ _ ↦ ?_))
  obtain ⟨entry', hrow', hsize'⟩ :=
    ((hlater₁.trans hlater₂).trans (hlater₃.trans hlater₄)).1.nar declared.narHash entry hrow
  have hlookup : ((IndexOp.nar declared.narHash).run world.index).1 = some entry' := hrow'
  dsimp only [Except.mapError]
  rw [hlookup, Ingest.publishEntry, if_pos (hsize'.trans hsize)]
  refine Attempt.safe_bind (Attempt.safe_context (goes_indexCall fun world past t₅ _ hlater₅ ↦ ?_))
  have hlisted := (Index.narinfo_publish world.index (cache.ingest.record declared entry')
    declared.storePath.hash).trans (if_pos rfl)
  refine fun t₆ (hlater₆ : Later t₅ t₆) _ ↦ ?_
  dsimp only
  refine (goes_created (hwritten.trans hproceed) hframing (hrest ▸ hstream)).imp ?_
  rintro result peer₄ t' - ⟨hwelcomed, hlater'⟩
  have hlater := hlater₅.trans (hlater₆.trans hlater')
  exact ⟨hwelcomed, _, hlater.2 (Set.mem_insert _ _), hwritten.trans hproceed, entry', hlisted⟩

section Handle

variable {cache : Cache} {post : Except Handler.Error (Http.KeepAlive × Connection) → Peer →
  History → Prop}

theorem goes_handle {route : Route} {length : ℕ}
    (hframing : exchange.request.framing = .length length)
    (hroute : Route.resolve exchange.request.target = .ok route)
    (h : ∀ t', Later t t' → Goes (cache.dispatch exchange route).run post peer t') :
    Goes (cache.handle exchange).run post peer t := by
  refine Attempt.safe_bind ((goes_bump _ _ _).imp ?_)
  rintro _ peer' t' - ⟨rfl, rfl, hlater⟩
  dsimp only
  rw [if_neg (by rw [hframing]; exact Http.Framing.noConfusion), hroute]
  exact h t' hlater

end Handle

end Cache

end Bincache
