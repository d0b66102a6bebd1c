import Bincache.Serve.Faults
import Bincache.Specimen

/-!
# How failures of the server are answered

What the server fails at in a run — an operation, starting the encoder, or the encoder later on — is
told from the record of the run, and the exchange ought to answer each of these with a bare 500.

It does so where the handler looks at the failure itself: both transactions of a publish, the
creation of a staging file and the start of the encoder become a refusal. Every other failure is
passed on by `?` out of the handler and ends the connection with no final response at all.

## The construction

A run is recorded together with its events: the operations that failed, and the bytes that arrived.
A failed operation is an event by itself. The encoder is no operation, so its failures are worked
out from what it was given: `slices` cuts the bytes that arrived into the chunks that the upload's
loop makes of them, and `Absorbed` says that the encoder in hand is the one that took these chunks.
`Suffers` puts the three causes together.

## The invariant

Of each program on the way `Blamed` is kept: whatever the record shows is harmless, or is what the
program failed for, and then the handler did not look at it. Programs without an upload have nothing
more to show (`outcome_of_blamed`). For an upload the record is followed chunk by chunk
(`records_absorbBody`), where the chunks so far and those to come are `slices` of what has arrived
so far and later.
-/

namespace Bincache

namespace Cache

open Handler Response Attempt

/-! ## The chunks of a body -/

/-- The chunks that `absorbBody` cuts a body into that starts in the buffer and arrives in these
reads. -/
def slices (buffer : Bytes) (remaining : ℕ) (reads : List Bytes) : List Bytes :=
  if remaining = 0 then []
  else if buffer = [] then
    match reads with
    | [] => []
    | read :: reads => if read = [] then [] else slices read remaining reads
  else
    let take := min (min buffer.length remaining) Connection.readChunk
    buffer.take take :: slices (buffer.drop take) (remaining - (buffer.take take).length) reads
termination_by (reads.length, remaining)
decreasing_by
  · exact Prod.Lex.left _ _ (Nat.lt_succ_self _)
  · refine Prod.Lex.right _ ?_
    have hpos := List.length_pos_of_ne_nil ‹buffer ≠ []›
    have hchunk : 0 < Connection.readChunk := by decide
    rw [List.length_take]
    omega

theorem slices_cut {buffer : Bytes} {remaining : ℕ} (hremaining : remaining ≠ 0)
    (hbuffer : buffer ≠ []) (reads : List Bytes) :
    slices buffer remaining reads
      = buffer.take (min (min buffer.length remaining) Connection.readChunk)
        :: slices (buffer.drop (min (min buffer.length remaining) Connection.readChunk))
          (remaining - (buffer.take (min (min buffer.length remaining)
            Connection.readChunk)).length) reads := by
  rw [slices.eq_def, if_neg hremaining, if_neg hbuffer]

theorem slices_fill {remaining : ℕ} (hremaining : remaining ≠ 0) {read : Bytes} (hread : read ≠ [])
    (reads : List Bytes) : slices [] remaining (read :: reads) = slices read remaining reads := by
  rw [slices.eq_def, if_neg hremaining, if_pos rfl]
  exact if_neg hread

section Slices

variable {world : World} {peer : Peer} {record : List Event}

private theorem arrived_append (record more : List Event) :
    arrived (record ++ more) = arrived record ++ arrived more := List.filterMap_append

private theorem records_recv : Records Connection.recv.run (fun result l' _ ↦ ∃ read,
    result = .ok read ∧ l'.2 = record ++ [.read read]) world peer record := by
  refine safe_context (Program.safe_alone_call.mpr ?_)
  rintro answer world' ⟨peer', -⟩ ⟨⟨-, hsocket⟩, rfl⟩
  refine Program.safe_alone_done.mpr ?_
  cases answer with
  | error error => exact hsocket.elim
  | ok read => exact ⟨read, rfl, rfl⟩

theorem records_chunk (connection : Connection) {remaining : ℕ} (hremaining : 0 < remaining) :
    Records (connection.chunk remaining).run (fun result l' _ ↦ ∃ news, l'.2 = record ++ news
      ∧ (∀ event ∈ news, event.Harmless) ∧ ∀ chunk connection',
        result = .ok (chunk, connection') → chunk ≠ [] ∧ ∀ reads,
          slices connection.buffer remaining (arrived news ++ reads)
            = chunk :: slices connection'.buffer (remaining - chunk.length) reads)
      world peer record := by
  have hnonzero := Nat.pos_iff_ne_zero.mp hremaining
  have htake : ∀ buffer : Bytes, buffer ≠ [] →
      buffer.take (min (min buffer.length remaining) Connection.readChunk) ≠ [] := by
    intro buffer hbuffer hnil
    have hpos := List.length_pos_of_ne_nil hbuffer
    have hchunk : 0 < Connection.readChunk := by decide
    obtain hzero | hnil := List.take_eq_nil_iff.mp hnil
    · omega
    · exact hbuffer hnil
  rw [Connection.chunk, if_neg hnonzero]
  refine safe_bind ?_
  rw [Connection.fill]
  by_cases hbuffer : connection.buffer = []
  · rw [if_pos hbuffer]
    refine safe_bind (records_recv.imp ?_)
    rintro _ ⟨peer', _⟩ world' - ⟨read, rfl, rfl⟩
    dsimp only
    by_cases hread : read = []
    · rw [if_pos hread]
      exact Program.safe_alone_done.mpr ⟨_, rfl, by simp [Event.Harmless], fun _ _ h ↦ by cases h⟩
    · rw [if_neg hread]
      refine Program.safe_alone_done.mpr (Program.safe_alone_done.mpr
        ⟨_, rfl, by simp [Event.Harmless], ?_⟩)
      rintro chunk connection' h
      obtain ⟨rfl, rfl⟩ := Prod.mk.inj (Except.ok.inj h)
      refine ⟨htake read hread, fun reads ↦ ?_⟩
      -- The buffer was empty, so the slice is cut from what was read.
      exact (hbuffer ▸ slices_fill hnonzero hread reads).trans (slices_cut hnonzero hread reads)
  · rw [if_neg hbuffer]
    refine Program.safe_alone_done.mpr (Program.safe_alone_done.mpr
      ⟨[], (List.append_nil _).symm, by simp, ?_⟩)
    rintro chunk connection' h
    obtain ⟨rfl, rfl⟩ := Prod.mk.inj (Except.ok.inj h)
    exact ⟨htake _ hbuffer, fun reads ↦ slices_cut hnonzero hbuffer reads⟩

end Slices

/-! ## The encoder of an upload -/

section Encoder

variable [Crates] {world : World} {peer : Peer} {record : List Event} {start : Crates.Encoder}
  {chunks : List Bytes} {upload : Upload Upload.Receiving}

/-- The upload's encoder has taken these chunks, one after another. -/
def Absorbed (start : Crates.Encoder) (chunks : List Bytes) (upload : Upload Upload.Receiving) :
    Prop := ∃ output, Crates.feed start chunks = some (upload.state.encoder, output)

private theorem ends_drain_encoder (upload : Upload Upload.Receiving) (site : Site) :
    Ends .hostile upload.drain.run (fun result _ _ ↦ ∀ upload', result = .ok upload' →
      upload'.state.encoder = upload.state.encoder) site := by
  rw [Upload.drain]
  split
  · exact ends_done fun upload' h ↦ by rw [← Except.ok.inj h]
  · refine safe_bind (safe_context ((ends_local (upload.staged.uses_write _) site).imp ?_))
    rintro (error | staged) peer' world' - -
    · rintro upload' ⟨⟩
    · exact ends_done fun upload' h ↦ by rw [← Except.ok.inj h, Upload.drained]

private theorem ends_write_encoder (h : Absorbed start chunks upload) (chunk : Bytes)
    (site : Site) :
    Ends .hostile (upload.write chunk).run (fun result _ _ ↦ ∀ upload', result = .ok upload' →
      Absorbed start (chunks ++ [chunk]) upload') site := by
  obtain ⟨output, hfeed⟩ := h
  rw [Upload.write]
  cases hwrite : Crates.encoderWrite upload.state.encoder chunk with
  | none => exact ends_done fun _ h ↦ by cases h
  | some taken =>
    obtain ⟨encoder, produced⟩ := taken
    have habsorbed := Crates.feed_concat hfeed hwrite
    dsimp only
    split
    · refine (ends_drain_encoder _ site).imp ?_
      rintro result peer' world' - hdrain upload' hresult
      refine ⟨output ++ produced, ?_⟩
      rw [hdrain upload' hresult]
      exact habsorbed
    · exact ends_done fun upload' h ↦
        ⟨output ++ produced, by rw [← Except.ok.inj h]; exact habsorbed⟩

private theorem ends_finish_encoder (upload : Upload Upload.Receiving) (site : Site) :
    Ends .hostile upload.finish.run (fun result _ _ ↦ ∀ compressed, result = .ok compressed →
      (Crates.encoderFinish upload.state.encoder).isSome) site := by
  refine safe_onError (safe_bind ((ends_drain_encoder upload site).imp ?_))
  rintro (error | drained) peer' world' - hdrain
  · refine Program.Safe.imp (ends_local upload.staged.uses_drop (world', peer')) ?_
    rintro _ _ _ - - compressed ⟨⟩
  dsimp only
  rw [← hdrain drained rfl]
  cases Crates.encoderFinish drained.state.encoder with
  | none =>
    refine ends_done ((ends_local upload.staged.uses_drop (world', peer')).imp ?_)
    rintro _ _ _ - - compressed ⟨⟩
  | some rest =>
    refine safe_bind (safe_context
      ((ends_local (drained.staged.uses_write _) (world', peer')).imp ?_))
    rintro (error | staged) peer'' world'' - -
    · refine (ends_local upload.staged.uses_drop (world'', peer'')).imp ?_
      rintro _ _ _ - - compressed ⟨⟩
    · exact ends_done fun _ _ ↦ rfl

omit [Crates] in
private theorem records_raises {ε α : Type} {harmless : Event → Prop} {blames : Event → ε → Prop}
    {x : Call ε α} {post : Except ε α → Peer → World → Prop} (hraises : Raises harmless blames x)
    (hends : Ends .hostile x.run post (world, peer)) :
    Records x.run (fun result l' world' ↦ post result l'.1 world'
      ∧ ∃ news, l'.2 = record ++ news ∧ Blamed harmless blames result news) world peer record := by
  have hpost : Records x.run (fun result l' world' ↦ post result l'.1 world') world peer record :=
    (hends.refine fun _ _ _ _ hop ↦ hop.1).recorded
  exact hpost.and (hraises world peer record)

/-- The encoder takes the slices of the body one after another, up to the first failure. -/
theorem records_absorbBody (method : Http.Method) (h : Absorbed start chunks upload)
    (connection : Connection) (remaining : ℕ) :
    Records (absorbBody upload connection remaining).run (fun result l' _ ↦ ∃ news,
      l'.2 = record ++ news ∧ Blamed Event.Harmless (Uncaught method) result news
        ∧ ∀ upload' connection', result = .ok (upload', connection') →
          Absorbed start (chunks ++ slices connection.buffer remaining (arrived news)) upload')
      world peer record := by
  -- a chunk is not empty, so what remains gets less with each
  induction remaining using Nat.strong_induction_on
    generalizing upload chunks connection world peer record with
  | _ remaining ih =>
    rw [absorbBody]
    split
    · next hpos =>
      refine safe_bind (safe_context ((records_chunk connection hpos).imp ?_))
      rintro (error | ⟨chunk, connection'⟩) ⟨peer₁, _⟩ world₁ - ⟨news, rfl, hread, hchunk⟩
      · exact ⟨news, rfl, fun event hevent ↦ .inl (hread event hevent), fun _ _ h ↦ by cases h⟩
      obtain ⟨hnil, hslices⟩ := hchunk chunk connection' rfl
      dsimp only [Except.mapError]
      rw [dif_neg hnil]
      have hraises : Raises (fun _ ↦ False) (Uncaught method) (upload.write chunk) :=
        upload.raises_write chunk
      refine safe_bind (safe_context
        ((records_raises hraises (ends_write_encoder h chunk (world₁, peer₁))).imp ?_))
      rintro (error | upload') ⟨peer₂, _⟩ world₂ - ⟨hwrite, failed, rfl, hfailed⟩
      · refine ⟨news ++ failed, List.append_assoc _ _ _, fun event hevent ↦ ?_,
          fun _ _ h ↦ by cases h⟩
        obtain hevent | hevent := List.mem_append.mp hevent
        · exact .inl (hread event hevent)
        · obtain ⟨error', herror, huncaught⟩ := (hfailed event hevent).resolve_left id
          exact .inr ⟨_, rfl, huncaught⟩
      obtain rfl : failed = [] :=
        List.eq_nil_iff_forall_not_mem.mpr (harmless_of_blamed hfailed)
      rw [List.append_nil]
      have hlt : remaining - chunk.length < remaining := by
        have := List.length_pos_of_ne_nil hnil
        omega
      refine (ih _ hlt (hwrite upload' rfl) connection').imp ?_
      rintro result ⟨peer₃, _⟩ world₃ - ⟨more, rfl, hmore, hresult⟩
      refine ⟨news ++ more, List.append_assoc _ _ _, fun event hevent ↦ ?_,
        fun upload'' connection'' hok ↦ ?_⟩
      · obtain hevent | hevent := List.mem_append.mp hevent
        · exact .inl (hread event hevent)
        · exact hmore event hevent
      · -- the slices of the whole body are this chunk and those of the rest
        rw [arrived_append, hslices, List.append_cons]
        exact hresult upload'' connection'' hok
    · next hzero =>
      obtain rfl := Nat.eq_zero_of_not_pos hzero
      refine Program.safe_alone_done.mpr ⟨[], (List.append_nil _).symm, by simp [Blamed], ?_⟩
      rintro upload' connection' hok
      obtain ⟨rfl, -⟩ := Prod.mk.inj (Except.ok.inj hok)
      rw [slices.eq_def, if_pos rfl, List.append_nil]
      exact h

end Encoder

/-! ## What the server failed at -/

/-- Something the server failed at. -/
inductive Cause
  | operation (op : Op)
  | encoderStart
  /-- Taking a chunk, or ending the stream. -/
  | encoder

/-- The handler looks at the failure. -/
def Cause.Caught (method : Http.Method) : Cause → Prop
  | operation op => op.Caught method
  | encoderStart => True
  | encoder => False

variable [Crates] (cache : Cache) (exchange : Exchange)

/-- The request is an upload that gets as far as a staging file. -/
structure Uploads (length : ℕ) : Prop where
  method : exchange.request.method = .put
  target : ∃ url, Route.resolve exchange.request.target = .ok (.nar url) ∧ url.compression = .none
  framing : exchange.request.framing = .length length
  admitted : cache.admission exchange.request = .admitted

/-- In a run with this record, this is what the server failed at. -/
def Suffers (record : List Event) : Cause → Prop
  | .operation op => .failed op ∈ record
  | .encoderStart => (∃ length, Uploads cache exchange length) ∧ (∀ op, .failed op ∉ record)
      ∧ Crates.encoderNew cache.ingest.level.get = none
  | .encoder => ∃ length start, Uploads cache exchange length
      ∧ (∀ path, .failed (.file (.create path)) ∉ record)
      ∧ Crates.encoderNew cache.ingest.level.get = some start
      ∧ let chunks := slices exchange.connection.buffer length (arrived record)
        Crates.feed start chunks = none
          ∨ (∀ op, .failed op ∉ record) ∧ chunks.flatten.length = length
            ∧ ∃ encoder output, Crates.feed start chunks = some (encoder, output)
              ∧ Crates.encoderFinish encoder = none

omit [Crates] in
/-- The peer has a final answer: 500 with nothing to read, and a connection that is closed unless
the body was read. -/
def Reported (start : Peer) (result : Except Handler.Error (Http.KeepAlive × Connection))
    (peer : Peer) : Prop :=
  ∃ keepAlive connection invited, result = .ok (keepAlive, connection)
    ∧ (invited = [] ∨ invited = interim)
    ∧ peer.written = start.written ++ (invited ++ (bareMessage .serverError keepAlive).bytes)
    ∧ (keepAlive = .close ∨ ∃ body : Bytes, body.length = exchange.request.bodyLen
      ∧ exchange.connection.stream start = body ++ connection.stream peer)

/-- Of a run: what the server failed at was reported exactly if the handler looks at it. -/
def Outcome (start : Peer) (result : Except Handler.Error (Http.KeepAlive × Connection))
    (peer : Peer) (record : List Event) : Prop :=
  ∀ cause, Suffers cache exchange record cause →
    (Reported exchange start result peer ↔ cause.Caught exchange.request.method)

variable {cache exchange} {start peer : Peer} {world : World} {record : List Event}
  {result : Except Handler.Error (Http.KeepAlive × Connection)}

theorem outcome_of_blamed (hno : ∀ length, ¬Uploads cache exchange length)
    (h : Blamed Event.Harmless (Uncaught exchange.request.method) result record) :
    Outcome cache exchange start result peer record := by
  rintro (op | _ | _) hcause
  · obtain hharmless | ⟨error, rfl, op', hop, hcaught⟩ := h _ hcause
    · exact hharmless.elim
    · obtain rfl := Event.failed.inj hop
      refine ⟨?_, fun hop ↦ absurd hop hcaught⟩
      rintro ⟨_, _, _, hresult, -⟩
      cases hresult
  · obtain ⟨⟨length, hupload⟩, -⟩ := hcause
    exact absurd hupload (hno length)
  · obtain ⟨length, -, hupload, -⟩ := hcause
    exact absurd hupload (hno length)

theorem outcome_of_harmless (hno : ∀ length, ¬Uploads cache exchange length)
    (h : ∀ event ∈ record, event.Harmless) : Outcome cache exchange start result peer record :=
  outcome_of_blamed hno fun event hevent ↦ .inl (h event hevent)

omit [Crates] in
/-- What an attempt failed for, or went through in spite of. -/
private theorem uncaught_of_blamed {ε α : Type} {harmless : Event → Prop} {method : Http.Method}
    {result : Except ε α} (hharmless : ∀ event, harmless event → event.Harmless)
    (h : Blamed harmless (Uncaught method) result record) :
    ∀ event ∈ record, event.Harmless ∨ ∃ op : Op, event = .failed op ∧ ¬op.Caught method :=
  fun event hevent ↦ (h event hevent).imp (hharmless event) fun ⟨_, _, huncaught⟩ ↦ huncaught

private theorem outcome_of_error {encoder : Crates.Encoder} {error : Handler.Error}
    (hnew : Crates.encoderNew cache.ingest.level.get = some encoder)
    (h : ∀ event ∈ record, event.Harmless
      ∨ ∃ op : Op, event = .failed op ∧ ¬op.Caught exchange.request.method) :
    Outcome cache exchange start (.error error) peer record := by
  have hunreported : ¬Reported exchange start (.error error) peer := by
    rintro ⟨_, _, _, hresult, -⟩
    cases hresult
  rintro (op | _ | _) hcause
  · obtain hharmless | ⟨op', hop, hcaught⟩ := h _ hcause
    · exact hharmless.elim
    · obtain rfl := Event.failed.inj hop
      exact iff_of_false hunreported hcaught
  · exact absurd (hcause.2.2.symm.trans hnew) (by simp)
  · exact iff_of_false hunreported id

private theorem outcome_of_finish {first : Crates.Encoder} {upload : Upload Upload.Receiving}
    {length : ℕ} (hnew : Crates.encoderNew cache.ingest.level.get = some first)
    (hframing : exchange.request.framing = .length length)
    (habsorbed : Absorbed first (slices exchange.connection.buffer length (arrived record)) upload)
    (hfinish : (Crates.encoderFinish upload.state.encoder).isSome)
    (h : ∀ event ∈ record, event.Harmless) : Outcome cache exchange start result peer record := by
  rintro (op | _ | _) hcause
  · exact absurd (h _ hcause) id
  · exact absurd (hcause.2.2.symm.trans hnew) (by simp)
  · obtain ⟨length', first', hupload, -, hnew', hfails⟩ := hcause
    obtain rfl := Http.Framing.length.inj (hupload.framing.symm.trans hframing)
    obtain rfl := Option.some.inj (hnew'.symm.trans hnew)
    obtain ⟨output, hfeed⟩ := habsorbed
    obtain hfails | ⟨-, -, encoder, output', hfeed', hfails⟩ := hfails
    · rw [hfeed] at hfails
      cases hfails
    · obtain ⟨rfl, -⟩ := Prod.mk.inj (Option.some.inj (hfeed.symm.trans hfeed'))
      rw [hfails] at hfinish
      cases hfinish

/-! ## Refusals -/

omit [Crates] in
private theorem records_refuse (drained : Drained) (message : Text) (connection : Connection)
    {said : Bytes} {peer' : Peer} (hsaid : said = [] ∨ said = interim)
    (hwritten : peer'.written = peer.written ++ said)
    (hbody : keepAlive exchange drained = .close ∨ ∃ body : Bytes,
      body.length = exchange.request.bodyLen
        ∧ exchange.connection.stream peer = body ++ connection.stream peer') :
    Records (refuse exchange (.new .server message) drained).run (fun result l' _ ↦
      l'.2 = record ∧ ∃ keepAlive, result = .ok keepAlive
        ∧ Reported exchange peer (.ok (keepAlive, connection)) l'.1) world peer' record := by
  refine (records_spoken (spoken_refuse exchange _ _) (ends_refuse (world, peer'))).imp ?_
  rintro (error | kept) ⟨peer'', _⟩ world' - ⟨⟨-, hunread, hresult⟩, rfl⟩
  · exact Env.noConfusion hresult.1
  · obtain ⟨rfl, hwritten'⟩ := hresult
    refine ⟨rfl, _, rfl, _, _, said, rfl, hsaid, ?_, hbody.imp id ?_⟩
    · rw [hwritten', hwritten, List.append_assoc]
      rfl
    · rintro ⟨body, hlength, hstream⟩
      refine ⟨body, hlength, ?_⟩
      rw [hstream, Connection.stream, Connection.stream, hunread]

omit [Crates] in
private theorem records_stage : Records Store.stage.run (fun result l' _ ↦ l'.1 = peer
    ∧ match result with
      | .ok _ => l'.2 = record
      | .error _ => ∃ path, l'.2 = record ++ [.failed (.file (.create path))])
    world peer record := by
  refine (records_local Store.uses_stage).and
    (safe_bind (safe_lift (Program.safe_alone_call.mpr ?_)))
  rintro ordinal world₁ ⟨peer₁, _⟩ ⟨-, rfl⟩
  refine Program.safe_alone_done.mpr (safe_bind (safe_lift (Program.safe_alone_call.mpr ?_)))
  rintro pid world₂ ⟨peer₂, _⟩ ⟨-, rfl⟩
  refine Program.safe_alone_done.mpr
    (safe_bind (safe_context (Program.safe_alone_call.mpr ?_)))
  rintro (error | inode) world₃ ⟨peer₃, _⟩ ⟨-, rfl⟩
  · refine Program.safe_alone_done.mpr ⟨Store.stagedPath pid ordinal, ?_⟩
    rw [events_mute .nextOrdinal ordinal trivial, events_mute .processId pid trivial,
      List.append_nil, List.append_nil]
    rfl
  · refine Program.safe_alone_done.mpr (Program.safe_alone_done.mpr ?_)
    rw [events_mute .nextOrdinal ordinal trivial, events_mute .processId pid trivial,
      List.append_nil, List.append_nil]
    exact List.append_nil _

/-- An upload is under way, or refused: for its name, or for what the server failed at. -/
private theorem records_receive (ingest : Ingest) (target : NarUrl) :
    Records (ingest.receive target).run (fun result l' _ ↦ l'.1 = peer ∧ match result with
      | .ok upload => l'.2 = record ∧ target.compression = .none ∧ ∃ first,
          Crates.encoderNew ingest.level.get = some first ∧ Absorbed first [] upload
      | .error error => target.compression ≠ .none ∧ l'.2 = record
        ∨ error.fault = .server ∧ ((∃ path, l'.2 = record ++ [.failed (.file (.create path))])
          ∨ l'.2 = record ∧ Crates.encoderNew ingest.level.get = none))
    world peer record := by
  rw [Ingest.receive]
  split
  · next hcompression =>
    refine safe_bind (safe_context (records_stage.imp ?_))
    rintro (error | staged) ⟨peer₁, _⟩ world₁ - ⟨rfl, hstage⟩
    · exact ⟨rfl, .inr ⟨rfl, .inl hstage⟩⟩
    obtain rfl := hstage
    refine safe_context ?_
    rw [Upload.new]
    cases hnew : Crates.encoderNew ingest.level.get with
    | some first =>
      exact Program.safe_alone_done.mpr ⟨rfl, rfl, hcompression, first, rfl, [], rfl⟩
    | none =>
      refine safe_bind (safe_lift (((records_local staged.uses_drop).and
        (records_mute (mute_drop staged))).imp ?_))
      rintro _ ⟨peer₂, _⟩ world₂ - ⟨rfl, rfl⟩
      exact Program.safe_alone_done.mpr ⟨rfl, .inr ⟨rfl, .inr ⟨rfl, rfl⟩⟩⟩
  · next hcompression => exact Program.safe_alone_done.mpr ⟨rfl, .inl ⟨hcompression, rfl⟩⟩

/-- Whatever the server fails at in a publish is its fault, and one of the two transactions. -/
private theorem raises_publish (ingest : Ingest) (body : Text) :
    Raises (fun _ ↦ False) (fun event (error : Ingest.Error) ↦ error.fault = .server
      ∧ ∃ op : Op, event = .failed op ∧ op.Caught .put) (ingest.publish body) := by
  refine surfaces_bind (surfaces_context (surfaces_done _)) fun declared ↦
    surfaces_bind (surfaces_context (raises_indexCall fun _ ↦ ⟨rfl, _, rfl, rfl⟩)) ?_
  rintro (_ | entry)
  · exact surfaces_done _
  · rw [Ingest.publishEntry]
    split
    · exact surfaces_bind
        (surfaces_context (raises_indexCall fun _ ↦ ⟨rfl, _, rfl, trivial⟩)) fun _ ↦ surfaces_done _
    · exact surfaces_done _

/-! ## Exchanges -/

omit [Crates] in
/-- An answer before the body was read closes the connection, unless there is no body to read. -/
private theorem body_of_unread (exchange : Exchange) (peer : Peer) :
    keepAlive exchange .unread = .close ∨ ∃ body : Bytes, body.length = exchange.request.bodyLen
      ∧ exchange.connection.stream peer = body ++ exchange.connection.stream peer := by
  rw [keepAlive]
  by_cases hcarries : exchange.request.carriesBody = true
  · exact .inl (if_pos ⟨rfl, hcarries⟩)
  · refine .inr ⟨[], ?_, rfl⟩
    exact (Http.Request.bodyLen_eq_zero (Bool.eq_false_iff.mpr hcarries)).symm

/-- A handler that raises every failure, for a request that uploads nothing. -/
private theorem outcome_of_raises {program : Call Handler.Error (Http.KeepAlive × Connection)}
    (hno : ∀ length, ¬Uploads cache exchange length)
    (h : Raises Event.Harmless (Uncaught exchange.request.method) program)
    (hrecord : ∀ event ∈ record, event.Harmless) :
    Records program.run (fun result l' _ ↦ Outcome cache exchange start result l'.1 l'.2)
      world peer record := by
  refine (h world peer record).imp ?_
  rintro result ⟨peer', _⟩ world' - ⟨news, rfl, hnews⟩
  refine outcome_of_blamed hno fun event hevent ↦ ?_
  obtain hevent | hevent := List.mem_append.mp hevent
  · exact .inl (hrecord event hevent)
  · exact hnews event hevent

private theorem records_upload {first : Crates.Encoder} {upload : Upload Upload.Receiving}
    {length : ℕ} (hnew : Crates.encoderNew cache.ingest.level.get = some first)
    (hframing : exchange.request.framing = .length length) (habsorbed : Absorbed first [] upload) :
    Records (do
        let (upload, connection) ← Attempt.onError (do
          proceed exchange
          absorbBody upload exchange.connection length) upload.staged.drop
        let compressed ← upload.finish.context .upload
        match ← compressed.verify.result with
        | .error error => do
          let keepAlive ← refuse exchange (.new error.fault error.message) .consumed
          pure (keepAlive, connection)
        | .ok verified => do
          let _ ← verified.store.context .upload
          bump exchange.shard .uploads 1
          let keepAlive ← answer exchange .created .consumed
          pure (keepAlive, connection) :
        Call Handler.Error (Http.KeepAlive × Connection)).run
      (fun result l' _ ↦ Outcome cache exchange start result l'.1 l'.2) world peer [] := by
  refine safe_bind (safe_onError (safe_bind
    ((records_spoken (spoken_proceed exchange) (ends_proceed exchange (world, peer))).imp ?_)))
  rintro (error | ⟨⟩) ⟨peer₁, _⟩ world₁ - ⟨⟨-, -, hproceed⟩, rfl⟩
  · exact Env.noConfusion hproceed.1
  refine (records_absorbBody exchange.request.method habsorbed exchange.connection length).imp ?_
  rintro (error | ⟨upload', connection⟩) ⟨peer₂, record⟩ world₂ - ⟨_, rfl, hblamed, hresult⟩
  · refine (records_mute (mute_drop upload.staged)).imp ?_
    rintro _ ⟨peer₃, _⟩ world₃ - rfl
    exact outcome_of_error hnew (uncaught_of_blamed (fun _ ↦ id) hblamed)
  have hread := harmless_of_blamed hblamed
  have hslices := hresult upload' connection rfl
  -- What comes next leaves the record as it is, or fails for something that nothing looks at.
  have hlater : ∀ {ε α : Type} {result : Except ε α} {error : Handler.Error} {peer : Peer}
      {failed : List Event},
      Blamed (fun _ ↦ False) (Uncaught exchange.request.method) result failed →
        Outcome cache exchange start (.error error) peer (record ++ failed) := by
    intro ε α result error peer failed hfailed
    refine outcome_of_error hnew fun event hevent ↦ ?_
    obtain hevent | hevent := List.mem_append.mp hevent
    · exact .inl (hread event hevent)
    · exact uncaught_of_blamed (fun _ ↦ False.elim) hfailed event hevent
  have hraises : Raises (fun _ ↦ False) (Uncaught exchange.request.method) upload'.finish :=
    upload'.raises_finish
  refine safe_bind (safe_context
    ((records_raises hraises (ends_finish_encoder upload' (world₂, peer₂))).imp ?_))
  rintro (error | compressed) ⟨peer₃, _⟩ world₃ - ⟨hfinish, failed, rfl, hfailed⟩
  · exact hlater hfailed
  obtain rfl : failed = [] := List.eq_nil_iff_forall_not_mem.mpr (harmless_of_blamed hfailed)
  rw [List.append_nil]
  have hdone : ∀ {x : Call Handler.Error (Http.KeepAlive × Connection)} {world : World}
    {peer : Peer},
      x.run.Uses Op.Mute → Records x.run (fun result l' _ ↦
        Outcome cache exchange start result l'.1 l'.2) world peer record := by
    intro x world peer hmute
    refine (records_mute hmute).imp ?_
    rintro result ⟨peer', _⟩ world' - rfl
    exact outcome_of_finish hnew hframing hslices (hfinish compressed rfl) hread
  refine safe_bind (safe_result ((records_mute compressed.mute_verify).imp ?_))
  rintro (error | verified) ⟨peer₄, _⟩ world₄ - rfl
  · refine hdone (uses_bind ((spoken_refuse exchange _ _).imp fun _ ↦ Op.Spoken.mute) ?_)
    exact fun _ ↦ trivial
  have hstore : Raises (fun _ ↦ False) (Uncaught exchange.request.method) verified.store :=
    verified.raises_store
  refine safe_bind (safe_context ((hstore world₄ peer₄ _).imp ?_))
  rintro (error | entry) ⟨peer₅, _⟩ world₅ - ⟨failed, rfl, hfailed⟩
  · exact hlater hfailed
  obtain rfl : failed = [] := List.eq_nil_iff_forall_not_mem.mpr (harmless_of_blamed hfailed)
  rw [List.append_nil]
  refine hdone (uses_bind ((spoken_bump _ _ _).imp fun _ ↦ Op.Spoken.mute) fun _ ↦
    uses_bind ((spoken_answer exchange _ _).imp fun _ ↦ Op.Spoken.mute) ?_)
  exact fun _ ↦ trivial

private theorem records_put_nar {url : NarUrl}
    (hroute : Route.resolve exchange.request.target = .ok (.nar url)) :
    Records (cache.receive exchange url).run
      (fun result l' _ ↦ Outcome cache exchange peer result l'.1 l'.2) world peer [] := by
  have hblank : ∀ {status : Status} {world : World}, (∀ length, ¬Uploads cache exchange length) →
      Records ((fun keepAlive ↦ (keepAlive, exchange.connection)) <$>
        answer exchange status .unread).run
      (fun result l' _ ↦ Outcome cache exchange peer result l'.1 l'.2) world peer [] := fun hno ↦
    outcome_of_raises hno (surfaces_map (raises_spoken (spoken_answer exchange _ _))) (by simp)
  refine safe_bind ((records_spoken (spoken_admitRequest exchange cache)
    (ends_admitRequest exchange (world, peer))).imp ?_)
  rintro _ ⟨peer₁, _⟩ world₁ - ⟨⟨rfl, rfl, -⟩, rfl⟩
  dsimp only
  split
  · next hdenied =>
    refine hblank fun length hupload ↦ ?_
    rw [hupload.admitted] at hdenied
    exact Admission.noConfusion hdenied
  split
  · next length hframing =>
    refine safe_bind (safe_result ((records_receive cache.ingest url).imp ?_))
    rintro (error | upload) ⟨peer₂, _⟩ world₂ - ⟨rfl, hreceive⟩
    · obtain ⟨hcompression, rfl⟩ | ⟨hfault, hfailed⟩ := hreceive
      · refine outcome_of_raises (fun length hupload ↦ ?_)
          (surfaces_map (raises_spoken (spoken_refuse exchange _ _))) (by simp)
        obtain ⟨url', hroute', hnone⟩ := hupload.target
        obtain rfl := Route.nar.inj (Except.ok.inj (hroute'.symm.trans hroute))
        exact hcompression hnone
      · dsimp only
        rw [hfault]
        refine safe_map ((records_refuse .unread error.message exchange.connection (.inl rfl)
          (List.append_nil _).symm (body_of_unread exchange peer₂)).imp ?_)
        rintro _ ⟨peer₃, _⟩ world₃ - ⟨rfl, keepAlive, rfl, hreported⟩
        rintro (op | _ | _) hcause
        · refine iff_of_true hreported ?_
          obtain ⟨path, rfl⟩ | ⟨rfl, -⟩ := hfailed
          · obtain rfl := Event.failed.inj (List.mem_singleton.mp hcause)
            trivial
          · exact absurd hcause List.not_mem_nil
        · exact iff_of_true hreported trivial
        · -- The encoder was never reached, or it was but could not be started.
          obtain ⟨-, first, -, hcreated, hnew, -⟩ := hcause
          obtain ⟨path, rfl⟩ | ⟨-, hnone⟩ := hfailed
          · exact absurd (List.mem_singleton_self _) (hcreated path)
          · exact absurd (hnew.symm.trans hnone) (by simp)
    · obtain ⟨rfl, -, first, hnew, habsorbed⟩ := hreceive
      exact records_upload hnew hframing habsorbed
  · next hframing =>
    refine hblank fun length hupload ↦ ?_
    exact hframing length hupload.framing

private theorem records_put_narinfo (hmethod : exchange.request.method = .put)
    (hno : ∀ length, ¬Uploads cache exchange length) :
    Records (cache.publish exchange).run
      (fun result l' _ ↦ Outcome cache exchange peer result l'.1 l'.2) world peer [] := by
  have hblank : ∀ {status : Status} {world : World},
      Records ((fun keepAlive ↦ (keepAlive, exchange.connection)) <$>
        answer exchange status .unread).run
      (fun result l' _ ↦ Outcome cache exchange peer result l'.1 l'.2) world peer [] :=
    outcome_of_raises hno (surfaces_map (raises_spoken (spoken_answer exchange _ _))) (by simp)
  refine safe_bind ((records_spoken (spoken_admitRequest exchange cache)
    (ends_admitRequest exchange (world, peer))).imp ?_)
  rintro _ ⟨peer₁, _⟩ world₁ - ⟨⟨rfl, rfl, -⟩, rfl⟩
  dsimp only
  split
  · exact hblank
  split
  · next length hframing =>
    split
    · exact hblank
    refine safe_bind ((records_spoken (spoken_proceed exchange)
      (ends_proceed exchange (world₁, peer₁))).imp ?_)
    rintro (error | ⟨⟩) ⟨peer₂, _⟩ world₂ - ⟨⟨-, hunread, hproceed⟩, rfl⟩
    · exact Env.noConfusion hproceed.1
    refine safe_bind (safe_context ((records_wire (wire_body exchange.connection length)
      (Connection.ends_body exchange.connection length (world₂, peer₂))).imp ?_))
    rintro (error | ⟨body, connection⟩) ⟨peer₃, record⟩ world₃ -
      ⟨⟨-, hwritten, hbody⟩, _, rfl, hread⟩
    · exact outcome_of_harmless hno hread
    have hdone : ∀ {x : Call Handler.Error (Http.KeepAlive × Connection)} {world : World}
      {peer : Peer},
        x.run.Uses Op.Mute → Records x.run (fun result l' _ ↦
          Outcome cache exchange peer₁ result l'.1 l'.2) world peer record := by
      intro x world peer hmute
      exact outcome_of_raises hno (raises_mute hmute) hread
    dsimp only [Except.mapError]
    split
    · refine hdone (uses_bind ((spoken_answer exchange _ _).imp fun _ ↦ Op.Spoken.mute) ?_)
      exact fun _ ↦ trivial
    · next text _ =>
      refine safe_bind (safe_result ((records_raises (raises_publish cache.ingest text)
        (cache.ingest.ends_publish text (world₃, peer₃))).imp ?_))
      rintro (error | published) ⟨peer₄, _⟩ world₄ - ⟨⟨rfl, -⟩, failed, rfl, hfailed⟩
      · by_cases hfault : error.fault = .server
        · dsimp only
          rw [hfault]
          refine safe_bind ((records_refuse .consumed error.message connection ?_
            (hwritten.trans hproceed) (.inr ⟨body, ?_, ?_⟩)).imp ?_)
          · rw [invitation]
            split
            · exact .inr rfl
            · exact .inl rfl
          · rw [Http.Request.bodyLen, hframing]
            exact hbody.2
          · rw [← hbody.1, Connection.stream, Connection.stream, hunread]
          rintro _ ⟨peer₅, _⟩ world₅ - ⟨rfl, keepAlive, rfl, hreported⟩
          refine Program.safe_alone_done.mpr ?_
          rintro (op | _ | _) hcause
          · refine iff_of_true hreported ?_
            obtain hevent | hevent := List.mem_append.mp hcause
            · exact (hread _ hevent).elim
            · obtain ⟨-, -, -, op', hop, hcaught⟩ := (hfailed _ hevent).resolve_left id
              obtain rfl := Event.failed.inj hop
              rw [hmethod]
              exact hcaught
          · exact absurd hcause.1.choose_spec (hno _)
          · exact absurd hcause.choose_spec.choose_spec.1 (hno _)
        · obtain rfl : failed = [] := by
            refine List.eq_nil_iff_forall_not_mem.mpr fun event hevent ↦ ?_
            obtain ⟨error', herror, hserver, -⟩ := (hfailed event hevent).resolve_left id
            obtain rfl := Except.error.inj herror
            exact hfault hserver
          rw [List.append_nil]
          refine hdone (uses_bind ((spoken_refuse exchange _ _).imp fun _ ↦ Op.Spoken.mute) ?_)
          exact fun _ ↦ trivial
      · obtain rfl : failed = [] := List.eq_nil_iff_forall_not_mem.mpr (harmless_of_blamed hfailed)
        rw [List.append_nil]
        refine hdone (uses_bind ((spoken_answer exchange _ _).imp fun _ ↦ Op.Spoken.mute) ?_)
        exact fun _ ↦ trivial
  · exact hblank

/-- What any exchange makes of what the server failed at. -/
private theorem records_handle (exchange : Exchange) (world : World) (peer : Peer) :
    Records (cache.handle exchange).run
      (fun result l' _ ↦ Outcome cache exchange peer result l'.1 l'.2) world peer [] := by
  refine safe_bind ((records_spoken (spoken_bump _ _ _) (ends_bump _ _ _ (world, peer))).imp ?_)
  rintro _ ⟨peer, _⟩ world₁ - ⟨⟨rfl, rfl, -⟩, rfl⟩
  dsimp only
  split
  · next hchunked =>
    refine outcome_of_raises (fun length hupload ↦ ?_)
      (surfaces_map (raises_spoken (spoken_answer exchange _ _))) (by simp)
    exact Http.Framing.noConfusion (hchunked.symm.trans hupload.framing)
  split
  · next route hroute =>
    have hno : (∀ url, route = .nar url → exchange.request.method ≠ .put) →
        ∀ length, ¬Uploads cache exchange length := by
      intro hother length hupload
      obtain ⟨url, htarget, -⟩ := hupload.target
      exact hother url (Except.ok.inj (hroute.symm.trans htarget)) hupload.method
    have hwhole : ∀ {program : Call Handler.Error Http.KeepAlive},
        (∀ url, route = .nar url → exchange.request.method ≠ .put) →
        Raises Event.Harmless (Uncaught exchange.request.method) program →
        Records ((fun keepAlive ↦ (keepAlive, exchange.connection)) <$> program).run
          (fun result l' _ ↦ Outcome cache exchange peer result l'.1 l'.2) world₁ peer [] :=
      fun hother hraises ↦ outcome_of_raises (hno hother) (surfaces_map hraises) (by simp)
    cases route with
    | cacheInfo => exact hwhole (by simp) (raises_spoken (spoken_send exchange _ _))
    | metrics => exact hwhole (by simp) (raises_metrics exchange cache)
    | narinfo key =>
      rw [dispatch]
      split
      · next hput => exact records_put_narinfo hput (hno (by simp))
      · exact hwhole (by simp) (raises_narinfo exchange cache key)
    | nar url =>
      rw [dispatch]
      split
      · exact records_put_nar hroute
      · next hhead =>
        have hmethod : exchange.request.method ≠ .put := by simp [hhead]
        exact hwhole (fun _ _ ↦ hmethod) (raises_probe exchange hmethod url)
      · next hget => exact hwhole (by simp [hget]) (raises_stream exchange url)
  · next hroute =>
    refine outcome_of_raises (fun length hupload ↦ ?_)
      (surfaces_map (raises_spoken (spoken_answer exchange _ _))) (by simp)
    obtain ⟨url, htarget, -⟩ := hupload.target
    exact absurd (hroute.symm.trans htarget) (by simp)
  · next hroute =>
    refine outcome_of_raises (fun length hupload ↦ ?_)
      (surfaces_map (raises_spoken (spoken_answer exchange _ _))) (by simp)
    obtain ⟨url, htarget, -⟩ := hupload.target
    exact absurd (hroute.symm.trans htarget) (by simp)

/-- Over a socket that works, what the server failed at is answered with a bare 500 exactly if it is
one of the two transactions of a publish, the creation of a staging file or the start of the
encoder. -/
theorem reported_iff_caught {world world' : World}
    (hrun : (cache.handle exchange).run.Runs (Program.recorded Op.events connected)
      (world, start, []) result (world', peer, record))
    {cause : Cause} (hcause : Suffers cache exchange record cause) :
    Reported exchange start result peer ↔ cause.Caught exchange.request.method :=
  ((records_handle exchange world start).runs trivial hrun).2 cause hcause

end Cache

section

open Specimen Cache Attempt

/-- A request for the metadata of the specimen's path. -/
def Specimen.lookup : Http.Request :=
  request .get "/00000000000000000000000000000000.narinfo".toList .empty

private theorem resolve_lookup :
    Route.resolve Specimen.lookup.target = .ok (.narinfo path.hash) := by
  decide +kernel

/-- The specimen's world after one request. -/
private def counted (index : Index) (fs : FileSystem) : World :=
  { world index fs with
    stats := Function.update (fun _ ↦ {}) 0 (Totals.bump {} .requests 1) }

/-- The index cannot be read, and the exchange ends with nothing written. -/
private theorem runs_lookup (index : Index) (fs : FileSystem) :
    (cache.handle ⟨0, {}, Specimen.lookup⟩).run.Runs (Program.recorded Op.events connected)
      (world index fs, ⟨[], []⟩, []) (.error (.index .failed))
      (counted index fs, ⟨[], []⟩, [.failed (.index (.narinfo path.hash))]) := by
  rw [handle, run_bind, Program.runs_bind]
  refine ⟨.ok (), (counted index fs, ⟨[], []⟩, []),
    ⟨(), _, ⟨⟨⟨{}, trivial, rfl⟩, trivial⟩, rfl⟩, rfl, rfl⟩, ?_⟩
  rw [andThen_ok, if_neg (by decide), resolve_lookup]
  dsimp only
  rw [dispatch, if_neg (by decide), run_map, Cache.narinfo, run_bind, Program.runs_bind]
  let after : World × Peer × List Event :=
    (counted index fs, ⟨[], []⟩, [.failed (.index (.narinfo path.hash))])
  refine ⟨.error (.index .failed), after, ?_, rfl, rfl⟩
  rw [Program.runs_bind]
  refine ⟨.error (.index .failed), after, ?_, rfl, rfl⟩
  exact ⟨.error .failed, after, ⟨⟨⟨{ fails := true }, trivial, rfl⟩, trivial⟩, rfl⟩, rfl, rfl⟩

/-- A failed lookup of a record is not answered at all. -/
theorem not_reported_lookup : ∃ world' record cause,
    (cache.handle ⟨0, {}, Specimen.lookup⟩).run.Runs (Program.recorded Op.events connected)
        (world .empty .empty, ⟨[], []⟩, []) (.error (.index .failed)) (world', ⟨[], []⟩, record)
      ∧ Suffers cache ⟨0, {}, Specimen.lookup⟩ record cause
      ∧ ¬Reported ⟨0, {}, Specimen.lookup⟩ ⟨[], []⟩ (.error (.index .failed)) ⟨[], []⟩ := by
  refine ⟨_, _, .operation (.index (.narinfo path.hash)), runs_lookup .empty .empty,
    List.mem_singleton_self _, ?_⟩
  rintro ⟨_, _, _, hresult, -⟩
  cases hresult

theorem reported_lookup_iff :
    Reported ⟨0, {}, Specimen.lookup⟩ ⟨[], []⟩ (.error (.index .failed)) ⟨[], []⟩
      ↔ Cause.Caught .get (.operation (.index (.narinfo path.hash))) :=
  reported_iff_caught (runs_lookup .empty .empty) (List.mem_singleton_self _)

end

end Bincache
