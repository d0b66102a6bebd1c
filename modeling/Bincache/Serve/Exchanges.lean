import Bincache.Serve.Answers

/-!
# What an exchange writes and reads

The two handlers that read a body, and `handle` over all of them: every run writes one response,
after at most one invitation, or fails while doing so; and a run that succeeds has read either
exactly the body of the request or nothing.

Not every exit looks at the body before it says what becomes of the connection. `Blind` names those
that do not; `Short` names the answers that announce more than the artifact has.
-/

namespace Bincache

variable {env : Env} {α : Type}

/-! ## Programs that leave the socket alone -/

/-- Operations that are not on the socket. -/
def Op.Local : Op → Prop
  | .recv | .send _ => False
  | _ => True

theorem peer_of_local {op : Op} {world : World} {peer : Peer} {site : Site} {answer : Ans op}
    (hlocal : op.Local) (hop : step env op (world, peer) answer site) : site.2 = peer := by
  cases op with
  | index op =>
    obtain ⟨-, -, rfl⟩ | ⟨-, rfl⟩ := of_step_index hop
    · rfl
    · rfl
  | file op =>
    obtain ⟨_, _, rfl, -⟩ := of_step_file hop
    rfl
  | recv => exact hlocal.elim
  | send bytes => exact hlocal.elim
  | processId => rw [(of_step_processId hop).2]
  | nextOrdinal => rw [(of_step_nextOrdinal hop).2]
  | bump shard counter amount =>
    rw [of_step_bump hop]
  | totals shards => rw [(of_step_totals hop).2]

theorem ends_local {program : Program Ans α} (h : program.Uses Op.Local) (site : Site) :
    Ends env program (fun _ peer _ ↦ peer = site.2) site := by
  refine ends_of_runs fun value site' hrun ↦ ?_
  let inv : Site → Prop := fun s ↦ s.2 = site.2
  have hstep : ∀ op s answer s', op.Local → inv s → step env op s answer s' → inv s' :=
    fun op s answer s' hlocal hs hop ↦ (peer_of_local hlocal hop).trans hs
  exact h.runs hstep (s := site) rfl hrun

theorem uses_indexCall (op : IndexOp) : (indexCall op).run.Uses Op.Local :=
  ⟨trivial, fun _ ↦ trivial⟩

theorem uses_fileCall (op : FileOp) : (fileCall op).run.Uses Op.Local :=
  ⟨trivial, fun _ ↦ trivial⟩

namespace Store

open Attempt

theorem uses_stage : stage.run.Uses Op.Local :=
  uses_bind (uses_lift ⟨trivial, fun _ ↦ trivial⟩) fun _ ↦
    uses_bind (uses_lift ⟨trivial, fun _ ↦ trivial⟩) fun _ ↦
      uses_bind (uses_context (uses_fileCall _)) fun _ ↦ trivial

namespace Staged

variable (staged : Staged)

theorem uses_drop : staged.drop.Uses Op.Local := ⟨trivial, fun _ ↦ trivial⟩

theorem uses_write (bytes : Bytes) : (staged.write bytes).run.Uses Op.Local :=
  uses_bind (uses_context (uses_fileCall _)) fun _ ↦ trivial

theorem uses_commit (url : NarUrl) : (staged.commit url).run.Uses Op.Local := by
  have hlink : (staged.link (Store.path url)).run.Uses Op.Local :=
    uses_bind (uses_context (uses_fileCall _)) fun _ ↦
      uses_bind (uses_context (uses_fileCall _)) fun _ ↦ uses_context (uses_fileCall _)
  exact uses_bind (uses_onError hlink staged.uses_drop) fun _ ↦ trivial

end Staged

end Store

section Ingest

open Attempt

variable [Crates]

namespace Upload

theorem uses_drain (upload : Upload Receiving) : upload.drain.run.Uses Op.Local := by
  rw [drain]
  split
  · trivial
  · exact uses_bind (uses_context (upload.staged.uses_write _)) fun _ ↦ trivial

theorem uses_write (upload : Upload Receiving) (chunk : Bytes) :
    (upload.write chunk).run.Uses Op.Local := by
  rw [write]
  split
  · trivial
  · dsimp only
    split
    · exact uses_drain _
    · trivial

theorem uses_finish (upload : Upload Receiving) : upload.finish.run.Uses Op.Local := by
  refine uses_onError (uses_bind upload.uses_drain fun upload ↦ ?_) upload.staged.uses_drop
  dsimp only
  split
  · trivial
  · exact uses_bind (uses_context (upload.staged.uses_write _)) fun _ ↦ trivial

omit [Crates] in
theorem uses_verify (upload : Upload Compressed) : upload.verify.run.Uses Op.Local := by
  refine uses_onError ?_ upload.staged.uses_drop
  repeat' split
  all_goals trivial

omit [Crates] in
theorem uses_store (upload : Upload Verified) : upload.store.run.Uses Op.Local :=
  uses_bind (uses_context (upload.staged.uses_commit _)) fun _ ↦
    uses_bind (uses_context (uses_indexCall _)) fun _ ↦ trivial

end Upload

theorem Ingest.uses_receive (ingest : Ingest) (target : NarUrl) :
    (ingest.receive target).run.Uses Op.Local := by
  rw [receive]
  split
  · refine uses_bind (uses_context Store.uses_stage) fun staged ↦ uses_context ?_
    rw [Upload.new]
    split
    · trivial
    · exact uses_bind (uses_lift staged.uses_drop) fun _ ↦ trivial
  · trivial

end Ingest

namespace Cache

open Handler Response Attempt

theorem keepAlive_consumed (exchange : Exchange) :
    keepAlive exchange .consumed = exchange.request.keepAlive :=
  if_neg fun h ↦ Drained.noConfusion h.1

/-! ## The exits that do not look at the body -/

section Exits

variable [Crates] (request : Http.Request) (world : World)

omit [Crates] in
/-- The routes that answer without a look at the body. -/
def BlindOn : Route → Prop
  | .cacheInfo => True
  | .metrics => True
  | .narinfo key => request.method ≠ .put ∧ (world.index.narinfo key).isSome
  | .nar url => match request.method with
    | .put => False
    | .head => (probed world url).isSome
    | .get => ∃ file, world.fs.lookup (Store.path url) = some file ∧ file.size ≠ 0

/-- The request is answered without a look at its body. -/
def Blind : Prop :=
  request.framing ≠ .chunked
    ∧ ∃ route, Route.resolve request.target = .ok route ∧ BlindOn request world route

/-- The request is for a span that the artifact does not reach to the end of. -/
def Overruns (file : File) (span : Range.Span) : Prop :=
  request.framing ≠ .chunked ∧ request.method = .get ∧ ∃ url,
    Route.resolve request.target = .ok (.nar url)
      ∧ world.fs.lookup (Store.path url) = some file ∧ file.size ≠ 0
      ∧ wantedSpan request.range file.size = some span ∧ file.data.length ≤ span.last

/-- The message announces such a span. -/
def Short (message : Message) : Prop :=
  ∃ file span, Overruns request world file span ∧ message = spanMessage request file span

end Exits

variable [Crates] (cache : Cache) (exchange : Exchange)

/-! ## What every exchange comes to -/

/-- Only a request that may write and waits for it is invited to send its body. -/
def Invited (bytes : Bytes) : Prop :=
  bytes = [] ∨ bytes = interim ∧ exchange.request.method = .put
    ∧ exchange.request.expectation = .continue ∧ cache.admission exchange.request = .admitted

/-- The exchange has read exactly the body of its request. -/
structure Took (site : Site) (connection : Connection) (peer : Peer) : Prop where
  method : exchange.request.method = .put
  framing : ∃ length, exchange.request.framing = .length length
  body : ∃ body : Bytes, body.length = exchange.request.bodyLen
    ∧ exchange.connection.stream site.2 = body ++ connection.stream peer

/-- The exchange has read nothing. -/
structure Left (site : Site) (keepAlive : Http.KeepAlive) (connection : Connection) (peer : Peer) :
    Prop where
  connection : connection = exchange.connection
  unread : peer.unread = site.2.unread
  keepAlive : keepAlive = Cache.keepAlive exchange .unread ∧ ¬Blind exchange.request site.1
    ∨ keepAlive = exchange.request.keepAlive ∧ Blind exchange.request site.1

/-- How an exchange ends. -/
def Concludes (env : Env) (site : Site) :
    Except Handler.Error (Http.KeepAlive × Connection) → Peer → World → Prop :=
  fun result peer _ ↦ ∃ invited message said, Invited cache exchange invited
    ∧ peer.written = site.2.written ++ said ∧ message.reply.Final
    ∧ (message.Whole exchange.request.method ∨ Short exchange.request site.1 message)
    ∧ match result with
      | .error _ => (env = .hostile
          ∨ exchange.request.method = .put ∧ ¬Blind exchange.request site.1)
        ∧ said <+: invited ++ message.bytes
      | .ok (keepAlive, connection) => keepAlive = message.reply.keepAlive
        ∧ said = invited ++ message.bytes
        ∧ (Took exchange site connection peer ∧ keepAlive = exchange.request.keepAlive
            ∧ ¬Blind exchange.request site.1
          ∨ invited = [] ∧ Left exchange site keepAlive connection peer)

variable {cache exchange} {site : Site}

theorem Concludes.of_steady {world : World} {peer : Peer}
    {result : Except Handler.Error (Http.KeepAlive × Connection)} {world' : World}
    (hsteady : Steady site.1 world)
    (h : Concludes cache exchange env (world, site.2) result peer world') :
    Concludes cache exchange env site result peer world' := by
  obtain ⟨stats, rfl⟩ := hsteady
  obtain ⟨invited, message, said, hinvited, hwritten, hfinal, hwhole, hresult⟩ := h
  refine ⟨invited, message, said, hinvited, hwritten, hfinal, hwhole, ?_⟩
  cases result with
  | error error => exact hresult
  | ok value =>
    obtain ⟨hkeep, hsaid, ⟨⟨hmethod, hframing, hbody⟩, hk⟩ | ⟨hnil, hleft⟩⟩ := hresult
    · exact ⟨hkeep, hsaid, .inl ⟨⟨hmethod, hframing, hbody⟩, hk⟩⟩
    · exact ⟨hkeep, hsaid, .inr ⟨hnil, hleft.connection, hleft.unread, hleft.keepAlive⟩⟩

/-- A handler that says one message and reads nothing concludes. -/
theorem concludes_of_message {program : Call Handler.Error Http.KeepAlive} {message : Message}
    (h : Ends env program.run (Says env site message) site)
    (hfinal : message.reply.Final)
    (hwhole : message.Whole exchange.request.method ∨ Short exchange.request site.1 message)
    (hkeep : message.reply.keepAlive = keepAlive exchange .unread ∧ ¬Blind exchange.request site.1
      ∨ message.reply.keepAlive = exchange.request.keepAlive ∧ Blind exchange.request site.1) :
    Ends env ((fun keepAlive ↦ (keepAlive, exchange.connection)) <$> program).run
      (Concludes cache exchange env site) site := by
  refine Attempt.safe_map (h.imp ?_)
  rintro (error | keepAlive) peer world - ⟨-, hunread, hresult⟩
  · obtain ⟨henv, said, hsaid, hwritten⟩ := hresult
    exact ⟨[], message, said, .inl rfl, hwritten, hfinal, hwhole, .inl henv, hsaid⟩
  · obtain ⟨rfl, hwritten⟩ := hresult
    exact ⟨[], message, _, .inl rfl, hwritten, hfinal, hwhole, rfl, rfl,
      .inr ⟨rfl, rfl, hunread, hkeep⟩⟩

theorem concludes_bareMessage {program : Call Handler.Error Http.KeepAlive} {status : Status}
    (hstatus : status ≠ .continue)
    (h : Ends env program.run
      (Says env site (bareMessage status (keepAlive exchange .unread))) site)
    (hblind : ¬Blind exchange.request site.1) :
    Ends env ((fun keepAlive ↦ (keepAlive, exchange.connection)) <$> program).run
      (Concludes cache exchange env site) site := by
  have hwhole : (bareMessage status (keepAlive exchange .unread)).Whole exchange.request.method :=
    whole_bareMessage hstatus _ _
  exact concludes_of_message h hwhole.final (.inl hwhole) (.inl ⟨rfl, hblind⟩)

theorem concludes_bare {status : Status} (hstatus : status ≠ .continue)
    (hblind : ¬Blind exchange.request site.1) :
    Ends env ((fun keepAlive ↦ (keepAlive, exchange.connection)) <$>
      answer exchange status .unread).run (Concludes cache exchange env site) site :=
  concludes_bareMessage hstatus (ends_answer site) hblind

theorem concludes_page {program : Call Handler.Error Http.KeepAlive} {contentType : Text}
    (hplain : Text.Plain contentType) (hblind : Blind exchange.request site.1)
    (h : Ends env program.run (fun result peer world ↦ ∃ body,
      Says env site (pageMessage exchange.request contentType body) result peer world) site) :
    Ends env ((fun keepAlive ↦ (keepAlive, exchange.connection)) <$> program).run
      (Concludes cache exchange env site) site := by
  refine ends_of_runs fun result site' hrun ↦ ?_
  rw [Attempt.run_map, Program.runs_bind] at hrun
  obtain ⟨value, site₁, hprogram, hvalue, rfl⟩ := hrun
  obtain ⟨body, hmessage⟩ := h.runs hprogram
  have hwhole := whole_pageMessage exchange.request body hplain
  obtain ⟨-, hunread, hresult⟩ := hmessage
  subst hvalue
  cases value with
  | error error =>
    obtain ⟨henv, said, hsaid, hwritten⟩ := hresult
    exact ⟨[], _, said, .inl rfl, hwritten, hwhole.final, .inl hwhole, .inl henv, hsaid⟩
  | ok keepAlive =>
    obtain ⟨rfl, hwritten⟩ := hresult
    exact ⟨[], _, _, .inl rfl, hwritten, hwhole.final, .inl hwhole, rfl, rfl,
      .inr ⟨rfl, rfl, hunread, .inr ⟨rfl, hblind⟩⟩⟩

/-! ## Uploads -/

omit [Crates] in
/-- What `proceed` writes. -/
def invitation (exchange : Exchange) : Bytes :=
  if exchange.request.expectation = .continue then interim else []

omit [Crates] in
theorem ends_proceed (exchange : Exchange) (site : Site) :
    Ends env (proceed exchange).run (fun result peer world ↦
      world = site.1 ∧ peer.unread = site.2.unread ∧ match result with
      | .ok _ => peer.written = site.2.written ++ invitation exchange
      | .error _ => env = .hostile ∧ ∃ said, said <+: invitation exchange
        ∧ peer.written = site.2.written ++ said) site := by
  rw [proceed, invitation]
  split
  · refine Attempt.safe_context ((Connection.ends_send _ site).imp ?_)
    rintro (error | ⟨⟩) peer world - ⟨rfl, hunread, hsent⟩
    · obtain ⟨henv, count, hwritten⟩ := hsent
      exact ⟨rfl, hunread, henv, _, List.take_prefix _ _, hwritten⟩
    · exact ⟨rfl, hunread, hsent⟩
  · exact ends_done ⟨rfl, rfl, (List.append_nil _).symm⟩

theorem invited_invitation (hmethod : exchange.request.method = .put)
    (hmay : cache.admission exchange.request = .admitted) :
    Invited cache exchange (invitation exchange) := by
  rw [Invited, invitation]
  split
  · next hexpect => exact .inr ⟨rfl, hmethod, hexpect, hmay⟩
  · exact .inl rfl

/-- An upload takes its whole body off the stream. -/
theorem ends_absorbBody (upload : Upload Upload.Receiving) (connection : Connection)
    (remaining : ℕ) (site : Site) :
    Ends env (absorbBody upload connection remaining).run (fun result peer _ ↦
      peer.written = site.2.written ∧ match result with
      | .ok (_, connection') => ∃ body : Bytes, body.length = remaining
        ∧ connection.stream site.2 = body ++ connection'.stream peer
      | .error _ => True) site := by
  -- a chunk is not empty, so what remains gets less with each
  induction remaining using Nat.strong_induction_on generalizing upload connection site with
  | _ remaining ih =>
    rw [absorbBody]
    split
    · next hpos =>
      refine Attempt.safe_bind (Attempt.safe_context
        ((Connection.ends_chunk connection hpos site).imp ?_))
      rintro (error | ⟨chunk, connection'⟩) peer world - ⟨rfl, hwritten, hchunk⟩
      · exact ⟨hwritten, trivial⟩
      obtain ⟨hstream, hnil, hlen, -⟩ := hchunk
      dsimp only [Except.mapError]
      rw [dif_neg hnil]
      refine Attempt.safe_bind (Attempt.safe_context
        ((ends_local (upload.uses_write chunk) (site.1, peer)).imp ?_))
      rintro (error | upload') peer world - rfl
      · exact ⟨hwritten, trivial⟩
      have hlt : remaining - chunk.length < remaining := by
        have := List.length_pos_of_ne_nil hnil
        omega
      refine (ih _ hlt upload' connection' (world, peer)).imp ?_
      rintro (error | ⟨upload'', connection''⟩) peer' world' - ⟨hwritten', hresult⟩
      · exact ⟨hwritten'.trans hwritten, trivial⟩
      · obtain ⟨body, hbody, hstream'⟩ := hresult
        refine ⟨hwritten'.trans hwritten, chunk ++ body, ?_, ?_⟩
        · rw [List.length_append, hbody]
          omega
        · rw [hstream, hstream', List.append_assoc]
    · next hzero =>
      exact ends_done ⟨rfl, [], (Nat.eq_zero_of_not_pos hzero).symm, rfl⟩

/-- After the body was read: one message, and the connection goes on as the request says. -/
private theorem concludes_took {program : Call Handler.Error Http.KeepAlive} {message : Message}
    {connection : Connection} {length : ℕ} {world : World} {peer : Peer}
    (hmethod : exchange.request.method = .put) (hblind : ∀ world, ¬Blind exchange.request world)
    (hmay : cache.admission exchange.request = .admitted)
    (hframing : exchange.request.framing = .length length)
    (hwritten : peer.written = site.2.written ++ invitation exchange)
    (hbody : ∃ body : Bytes, body.length = length
      ∧ exchange.connection.stream site.2 = body ++ connection.stream peer)
    (hwhole : message.Whole .put) (hkeep : message.reply.keepAlive = exchange.request.keepAlive)
    (h : Ends env program.run (Says env (world, peer) message) (world, peer)) :
    Ends env (do let keepAlive ← program; pure (keepAlive, connection) :
        Call Handler.Error (Http.KeepAlive × Connection)).run
      (Concludes cache exchange env site) (world, peer) := by
  refine Attempt.safe_bind (h.imp ?_)
  rintro (error | keepAlive) peer' world' - ⟨-, hunread, hresult⟩
  · obtain ⟨henv, said, hsaid, hwritten'⟩ := hresult
    refine ⟨invitation exchange, message, invitation exchange ++ said,
      invited_invitation hmethod hmay, ?_, hwhole.final, .inl (hmethod ▸ hwhole), .inl henv, ?_⟩
    · rw [hwritten', hwritten, List.append_assoc]
    · exact (List.prefix_append_right_inj _).mpr hsaid
  · obtain ⟨rfl, hwritten'⟩ := hresult
    refine ends_done ⟨invitation exchange, message, invitation exchange ++ message.bytes,
      invited_invitation hmethod hmay, ?_, hwhole.final, .inl (hmethod ▸ hwhole), rfl, rfl,
      .inl ⟨⟨hmethod, ⟨length, hframing⟩, ?_⟩, hkeep, hblind _⟩⟩
    · rw [hwritten', hwritten, List.append_assoc]
    · obtain ⟨body, hlength, hstream⟩ := hbody
      refine ⟨body, ?_, ?_⟩
      · rw [Http.Request.bodyLen, hframing, hlength]
      · rw [hstream, Connection.stream, Connection.stream, hunread]

/-- A failure after part of the invitation was written. -/
private theorem concludes_error {error : Handler.Error} {peer : Peer} {world : World} {said : Bytes}
    (hmethod : exchange.request.method = .put) (hblind : ∀ world, ¬Blind exchange.request world)
    (hmay : cache.admission exchange.request = .admitted)
    (hsaid : said <+: invitation exchange) (hwritten : peer.written = site.2.written ++ said) :
    Concludes cache exchange env site (.error error) peer world := by
  have hwhole : (bareMessage .serverError .keep).Whole .put :=
    whole_bareMessage Status.noConfusion .put .keep
  exact ⟨invitation exchange, _, said, invited_invitation hmethod hmay, hwritten, hwhole.final,
    .inl (hmethod ▸ hwhole), .inr ⟨hmethod, hblind _⟩, hsaid.trans (List.prefix_append _ _)⟩

theorem ends_admitRequest (exchange : Exchange) (site : Site) :
    Ends env (cache.admitRequest exchange).run (fun result peer world ↦
      result = .ok (cache.admission exchange.request) ∧ peer = site.2
        ∧ Steady site.1 world) site := by
  rw [admitRequest]
  dsimp only
  split
  · refine Attempt.safe_bind ((ends_bump _ _ _ site).imp ?_)
    rintro _ _ world - ⟨rfl, rfl, hsteady⟩
    exact ends_done ⟨rfl, rfl, hsteady⟩
  · exact ends_done ⟨rfl, rfl, steady_refl _⟩

/-- A `PUT` is never answered blindly, and nothing about how it concludes depends on the world. -/
theorem Concludes.of_put {world world' world'' : World} {peer peer' : Peer}
    {result : Except Handler.Error (Http.KeepAlive × Connection)}
    (hmethod : exchange.request.method = .put) (hblind : ∀ world, ¬Blind exchange.request world)
    (h : Concludes cache exchange env (world, peer) result peer' world'') :
    Concludes cache exchange env (world', peer) result peer' world'' := by
  obtain ⟨invited, message, said, hinvited, hwritten, hfinal, hwhole, hresult⟩ := h
  have hwhole' := hwhole.resolve_right fun hshort ↦ by
    obtain ⟨file, span, hoverruns, -⟩ := hshort
    exact Http.Method.noConfusion (hmethod.symm.trans hoverruns.2.1)
  refine ⟨invited, message, said, hinvited, hwritten, hfinal, .inl hwhole', ?_⟩
  cases result with
  | error error => exact ⟨hresult.1.imp_right fun h ↦ ⟨h.1, hblind _⟩, hresult.2⟩
  | ok value =>
    obtain ⟨hkeep, hsaid, ⟨⟨hput, hframing, hbody⟩, hk, -⟩ | ⟨hnil, hleft⟩⟩ := hresult
    · exact ⟨hkeep, hsaid, .inl ⟨⟨hput, hframing, hbody⟩, hk, hblind _⟩⟩
    · refine ⟨hkeep, hsaid, .inr ⟨hnil, hleft.connection, hleft.unread, .inl ⟨?_, hblind _⟩⟩⟩
      obtain ⟨hk, -⟩ | ⟨-, hblind'⟩ := hleft.keepAlive
      · exact hk
      · exact absurd hblind' (hblind _)

omit [Crates] in
private theorem keepAlive_refusalMessage (refusal : Refusal) (keepAlive : Http.KeepAlive) :
    (refusalMessage refusal keepAlive).reply.keepAlive = keepAlive := by
  rw [refusalMessage]
  split <;> rfl

theorem concludes_receive (url : NarUrl) (hmethod : exchange.request.method = .put)
    (hblind : ∀ world, ¬Blind exchange.request world) :
    Ends env (cache.receive exchange url).run (Concludes cache exchange env site) site := by
  obtain ⟨world, peer⟩ := site
  have hworld : ∀ {program : Call Handler.Error (Http.KeepAlive × Connection)} {world₁ : World},
      Ends env program.run (Concludes cache exchange env (world₁, peer)) (world₁, peer) →
        Ends env program.run (Concludes cache exchange env (world, peer)) (world₁, peer) :=
    fun h ↦ h.imp fun _ _ _ _ ↦ Concludes.of_put hmethod hblind
  refine Attempt.safe_bind ((ends_admitRequest exchange (world, peer)).imp ?_)
  rintro _ peer world₁ - ⟨rfl, rfl, -⟩
  dsimp only
  split
  · exact hworld (concludes_bare Status.noConfusion (hblind _))
  next hdenied =>
  have hmay : cache.admission exchange.request = .admitted := by
    cases h : cache.admission exchange.request with
    | admitted => rfl
    | denied => exact absurd h hdenied
  split
  · next length hframing =>
    refine Attempt.safe_bind (Attempt.safe_result
      ((ends_local (cache.ingest.uses_receive url) (world₁, peer)).imp ?_))
    rintro (error | upload) peer world₂ - rfl
    · refine hworld (concludes_of_message (ends_refuse _) ?_ (.inl ?_) (.inl ⟨?_, hblind _⟩))
      · exact (whole_refusalMessage _ _ _).final
      · exact hmethod ▸ whole_refusalMessage _ _ _
      · exact keepAlive_refusalMessage _ _
    -- The upload takes the body off the stream, or is dropped.
    refine Attempt.safe_bind (Attempt.safe_onError (Attempt.safe_bind
      ((ends_proceed exchange (world₂, peer)).imp ?_)))
    rintro (error | ⟨⟩) peer₁ world₂ - ⟨rfl, hunread, hproceed⟩
    · obtain ⟨-, said, hsaid, hwritten⟩ := hproceed
      refine (ends_local upload.staged.uses_drop (world₂, peer₁)).imp ?_
      rintro _ _ _ - rfl
      exact concludes_error hmethod hblind hmay hsaid hwritten
    refine (ends_absorbBody upload exchange.connection length (world₂, peer₁)).imp ?_
    rintro (error | ⟨upload', connection⟩) peer₂ world₃ - ⟨hwritten, hbody⟩
    · refine (ends_local upload.staged.uses_drop (world₃, peer₂)).imp ?_
      rintro _ _ _ - rfl
      exact concludes_error hmethod hblind hmay List.prefix_rfl (hwritten.trans hproceed)
    have hstream : ∃ body : Bytes, body.length = length
        ∧ exchange.connection.stream peer = body ++ connection.stream peer₂ := by
      obtain ⟨body, hlength, hstream⟩ := hbody
      rw [Connection.stream, hunread] at hstream
      exact ⟨body, hlength, hstream⟩
    dsimp only
    refine Attempt.safe_bind (Attempt.safe_context
      ((ends_local upload'.uses_finish (world₃, peer₂)).imp ?_))
    rintro (error | compressed) peer₂ world₄ - rfl
    · exact concludes_error hmethod hblind hmay List.prefix_rfl (hwritten.trans hproceed)
    refine Attempt.safe_bind (Attempt.safe_result
      ((ends_local compressed.uses_verify (world₄, peer₂)).imp ?_))
    rintro (error | verified) peer₂ world₅ - rfl
    · refine concludes_took hmethod hblind hmay hframing (hwritten.trans hproceed) hstream
        (whole_refusalMessage _ _ _) ?_ (ends_refuse (world₅, peer₂))
      rw [keepAlive_refusalMessage, keepAlive_consumed]
    refine Attempt.safe_bind (Attempt.safe_context
      ((ends_local verified.uses_store (world₅, peer₂)).imp ?_))
    rintro (error | entry) peer₂ world₆ - rfl
    · exact concludes_error hmethod hblind hmay List.prefix_rfl (hwritten.trans hproceed)
    refine Attempt.safe_bind ((ends_bump _ _ _ (world₆, peer₂)).imp ?_)
    rintro _ peer₂ world₇ - ⟨rfl, rfl, -⟩
    exact concludes_took hmethod hblind hmay hframing (hwritten.trans hproceed) hstream
      (whole_bareMessage Status.noConfusion _ _) (keepAlive_consumed exchange)
      (ends_answer (world₇, peer₂))
  · exact hworld (concludes_bare Status.noConfusion (hblind _))

/-! ## Publishes -/

/-- What a publish of this body does and how it is answered. -/
def Settles (ingest : Ingest) (env : Env) (body : Bytes) (world world' : World)
    (message : Message) : Prop :=
  match Text.fromUtf8 body with
  | none => message.reply.status ≠ .created ∧ Steady world world'
  | some text =>
    (message.reply.status = .created ∧ ∃ declared entry,
      ingest.Publishable world.index.nar text declared entry
        ∧ Steady { world with index := world.index.publish (ingest.record declared entry) } world')
    ∨ (message.reply.status ≠ .created ∧ Steady world world' ∧ (env = .hostile
        ∨ ∀ declared entry, ¬ingest.Publishable world.index.nar text declared entry))

/-- A publish that ends in a failure after it wrote this: it was waiting for the body, or it had
settled what it read and was answering. -/
def Broken (cache : Cache) (exchange : Exchange) (env : Env) (site : Site) (said : Bytes)
    (message : Message) (world : World) : Prop :=
  ((env = .hostile
      ∨ (exchange.connection.stream site.2).length < exchange.request.bodyLen)
    ∧ said <+: invitation exchange ∧ Steady site.1 world)
  ∨ env = .hostile ∧ ∃ answer body rest, said = invitation exchange ++ answer
    ∧ answer <+: message.bytes ∧ exchange.request.framing = .length body.length
    ∧ exchange.connection.stream site.2 = body ++ rest
    ∧ Settles cache.ingest env body site.1 world message

theorem Broken.isPrefix {said : Bytes} {message : Message} {world : World}
    (h : Broken cache exchange env site said message world) :
    said <+: invitation exchange ++ message.bytes := by
  obtain ⟨-, hsaid, -⟩ | ⟨-, answer, body, rest, rfl, hanswer, -⟩ := h
  · exact hsaid.trans (List.prefix_append _ _)
  · exact (List.prefix_append_right_inj _).mpr hanswer

/-- A publish reads its body, settles it and answers, or fails on the way. -/
theorem ends_publish {length : ℕ} (hmay : cache.admission exchange.request = .admitted)
    (hframing : exchange.request.framing = .length length)
    (hlength : length ≤ Http.metadataBodyMax) (site : Site) :
    Ends env (cache.publish exchange).run (fun result peer world ↦ ∃ message,
      message.Whole .put ∧ message.reply.keepAlive = exchange.request.keepAlive
        ∧ match result with
          | .error _ => ∃ said, peer.written = site.2.written ++ said
            ∧ Broken cache exchange env site said message world
          | .ok (keepAlive, connection) => keepAlive = exchange.request.keepAlive
            ∧ peer.written = site.2.written ++ (invitation exchange ++ message.bytes)
            ∧ ∃ body : Bytes, body.length = length
              ∧ exchange.connection.stream site.2 = body ++ connection.stream peer
              ∧ Settles cache.ingest env body site.1 world message) site := by
  -- How each answer after the body was read turns into the postcondition.
  have hanswer : ∀ {program : Call Handler.Error Http.KeepAlive} {message : Message}
      {connection : Connection} {world : World} {peer : Peer} {body : Bytes},
      message.Whole .put → message.reply.keepAlive = exchange.request.keepAlive →
      peer.written = site.2.written ++ invitation exchange → body.length = length →
      exchange.connection.stream site.2 = body ++ connection.stream peer →
      (∀ world', Steady world world' → Settles cache.ingest env body site.1 world' message) →
      Ends env program.run (Says env (world, peer) message) (world, peer) →
      Ends env (do let keepAlive ← program; pure (keepAlive, connection) :
          Call Handler.Error (Http.KeepAlive × Connection)).run
        (fun result peer world ↦ ∃ message, message.Whole .put
          ∧ message.reply.keepAlive = exchange.request.keepAlive ∧ match result with
            | .error _ => ∃ said, peer.written = site.2.written ++ said
              ∧ Broken cache exchange env site said message world
            | .ok (keepAlive, connection) => keepAlive = exchange.request.keepAlive
              ∧ peer.written = site.2.written ++ (invitation exchange ++ message.bytes)
              ∧ ∃ body : Bytes, body.length = length
                ∧ exchange.connection.stream site.2 = body ++ connection.stream peer
                ∧ Settles cache.ingest env body site.1 world message) (world, peer) := by
    intro program message connection world peer body hwhole hkeep hwritten hbody hstream hsettles h
    refine Attempt.safe_bind (h.imp ?_)
    rintro (error | keepAlive) peer' world' - ⟨hsteady, hunread, hresult⟩
    · obtain ⟨henv, said, hsaid, hwritten'⟩ := hresult
      refine ⟨message, hwhole, hkeep, invitation exchange ++ said, ?_,
        .inr ⟨henv, said, body, _, rfl, hsaid, by rw [hframing, hbody], hstream,
          hsettles _ hsteady⟩⟩
      rw [hwritten', hwritten, List.append_assoc]
    · obtain ⟨rfl, hwritten'⟩ := hresult
      refine ends_done ⟨message, hwhole, hkeep, hkeep, ?_, body, hbody, ?_, hsettles _ hsteady⟩
      · rw [hwritten', hwritten, List.append_assoc]
      · rw [hstream, Connection.stream, Connection.stream, hunread]
  have hfailure : (bareMessage .serverError exchange.request.keepAlive).Whole .put :=
    whole_bareMessage Status.noConfusion .put _
  refine Attempt.safe_bind ((ends_admitRequest exchange site).imp ?_)
  rintro _ _ world₁ - ⟨rfl, rfl, hsteady⟩
  dsimp only
  rw [if_neg (by rw [hmay]; exact Admission.noConfusion), hframing]
  dsimp only
  rw [if_neg (Nat.not_lt.mpr hlength)]
  refine Attempt.safe_bind ((ends_proceed exchange (world₁, site.2)).imp ?_)
  rintro (error | ⟨⟩) peer₁ world₁ - ⟨rfl, hunread, hproceed⟩
  · obtain ⟨henv, said, hsaid, hwritten⟩ := hproceed
    exact ⟨_, hfailure, rfl, said, hwritten, .inl ⟨.inl henv, hsaid, hsteady⟩⟩
  refine Attempt.safe_bind (Attempt.safe_context
    ((Connection.ends_body exchange.connection length (world₁, peer₁)).imp ?_))
  rintro (error | ⟨body, connection⟩) peer₂ world₁ - ⟨rfl, hwritten, hbody⟩
  · refine ⟨_, hfailure, rfl, _, hwritten.trans hproceed, .inl ⟨hbody.imp_right ?_, List.prefix_rfl,
      hsteady⟩⟩
    rintro ⟨-, hshort⟩
    rw [Http.Request.bodyLen, hframing, Connection.stream, ← hunread]
    exact hshort
  obtain ⟨hstream, hlen⟩ := hbody
  have hstream' : exchange.connection.stream site.2 = body ++ connection.stream peer₂ := by
    rw [← hstream, Connection.stream, Connection.stream, hunread]
  dsimp only [Except.mapError]
  cases htext : Text.fromUtf8 body with
  | none =>
    refine hanswer (whole_bareMessage Status.noConfusion _ _) (keepAlive_consumed exchange)
      (hwritten.trans hproceed) hlen hstream' (fun world' hworld' ↦ ?_)
      (ends_answer (world₁, peer₂))
    rw [Settles, htext]
    exact ⟨Status.noConfusion, hsteady.trans hworld'⟩
  | some text =>
    refine Attempt.safe_bind (Attempt.safe_result
      ((cache.ingest.ends_publish text (world₁, peer₂)).imp ?_))
    rintro (error | record) peer₂ world₄ - ⟨rfl, hpublish⟩
    · obtain ⟨rfl, hreason⟩ := hpublish
      refine hanswer (whole_refusalMessage _ _ _) ?_ (hwritten.trans hproceed) hlen hstream'
        (fun world' hworld' ↦ ?_) (ends_refuse _)
      · rw [keepAlive_refusalMessage, keepAlive_consumed]
      · rw [Settles, htext]
        refine .inr ⟨status_refusalMessage _ _ _, hsteady.trans hworld', ?_⟩
        obtain ⟨stats, rfl⟩ := hsteady
        exact hreason
    · obtain ⟨⟨declared, entry, hpublishable, rfl⟩, rfl⟩ := hpublish
      refine hanswer (whole_bareMessage Status.noConfusion _ _) (keepAlive_consumed exchange)
        (hwritten.trans hproceed) hlen hstream' (fun world' hworld' ↦ ?_) (ends_answer _)
      rw [Settles, htext]
      obtain ⟨stats, rfl⟩ := hsteady
      obtain ⟨stats', rfl⟩ := hworld'
      exact .inl ⟨rfl, declared, entry, hpublishable, stats', rfl⟩

theorem concludes_publish (hmethod : exchange.request.method = .put)
    (hblind : ∀ world, ¬Blind exchange.request world) :
    Ends env (cache.publish exchange).run (Concludes cache exchange env site) site := by
  by_cases haccepted : cache.admission exchange.request = .admitted
      ∧ ∃ length, exchange.request.framing = .length length ∧ length ≤ Http.metadataBodyMax
  · obtain ⟨hmay, length, hframing, hlength⟩ := haccepted
    refine (ends_publish hmay hframing hlength site).imp ?_
    rintro (error | ⟨keepAlive, connection⟩) peer world - ⟨message, hwhole, hkeep, hresult⟩
    · obtain ⟨said, hwritten, hbroken⟩ := hresult
      exact ⟨_, message, said, invited_invitation hmethod hmay, hwritten, hwhole.final,
        .inl (hmethod ▸ hwhole), .inr ⟨hmethod, hblind _⟩, hbroken.isPrefix⟩
    · obtain ⟨rfl, hwritten, body, hbody, hstream, -⟩ := hresult
      refine ⟨_, message, _, invited_invitation hmethod hmay, hwritten, hwhole.final,
        .inl (hmethod ▸ hwhole), hkeep.symm, rfl, .inl ⟨⟨hmethod, ⟨length, hframing⟩, body, ?_,
          hstream⟩, rfl, hblind _⟩⟩
      rw [Http.Request.bodyLen, hframing, hbody]
  · refine Attempt.safe_bind ((ends_admitRequest exchange site).imp ?_)
    rintro _ peer world - ⟨rfl, rfl, hsteady⟩
    have hbare : ∀ {status : Status}, status ≠ .continue →
        Ends env ((fun keepAlive ↦ (keepAlive, exchange.connection)) <$>
          answer exchange status .unread).run (Concludes cache exchange env site) (world, site.2) :=
      fun hstatus ↦ (concludes_bare hstatus (hblind _)).imp
        fun _ _ _ _ ↦ Concludes.of_steady hsteady
    dsimp only
    split
    · exact hbare Status.noConfusion
    next hdenied =>
    split
    · next length hframing =>
      split
      · exact hbare Status.noConfusion
      · next hlength =>
        refine absurd ⟨?_, length, hframing, Nat.not_lt.mp hlength⟩ haccepted
        cases h : cache.admission exchange.request with
        | admitted => rfl
        | denied => exact absurd h hdenied
    · exact hbare Status.noConfusion

/-! ## All routes -/

theorem concludes_narinfo (key : StorePath.Hash)
    (hblind : Blind exchange.request site.1 ↔ (site.1.index.narinfo key).isSome) :
    Ends env ((fun keepAlive ↦ (keepAlive, exchange.connection)) <$> cache.narinfo exchange key).run
      (Concludes cache exchange env site) site := by
  have hmessage := @ends_narinfo env exchange site _ cache key
  cases hrow : site.1.index.narinfo key with
  | none =>
    rw [hrow] at hmessage hblind
    exact concludes_bareMessage Status.noConfusion hmessage fun h ↦ absurd (hblind.mp h) (by simp)
  | some record =>
    rw [hrow] at hmessage hblind
    have hplain : Text.Plain NarInfo.contentType := by decide
    exact concludes_page hplain (hblind.mpr rfl) (hmessage.imp fun _ _ _ _ h ↦ ⟨_, h⟩)

/-- `GET` of an artifact concludes: with a span of it, with nothing if it is not there or empty, or
with a refusal of the range. -/
theorem concludes_stream {url : NarUrl} (hframing : exchange.request.framing ≠ .chunked)
    (hget : exchange.request.method = .get)
    (hroute : Route.resolve exchange.request.target = .ok (.nar url))
    (hblind : Blind exchange.request site.1
      ↔ ∃ file, site.1.fs.lookup (Store.path url) = some file ∧ file.size ≠ 0) :
    Ends env ((fun keepAlive ↦ (keepAlive, exchange.connection)) <$> stream exchange url).run
      (Concludes cache exchange env site) site := by
  have hmessage := @ends_stream env exchange site url
  cases hfile : site.1.fs.lookup (Store.path url) with
  | none =>
    rw [hfile] at hmessage hblind
    exact concludes_bareMessage Status.noConfusion hmessage fun h ↦ absurd (hblind.mp h) (by simp)
  | some file =>
    rw [hfile, streamMessage] at hmessage
    split at hmessage
    · next hsize =>
      refine concludes_bareMessage Status.noConfusion hmessage fun h ↦ ?_
      obtain ⟨file', hlookup, hne⟩ := hblind.mp h
      obtain rfl := Option.some.inj (hfile.symm.trans hlookup)
      exact hne hsize
    · next hsize =>
      have hblind' : Blind exchange.request site.1 := hblind.mpr ⟨file, hfile, hsize⟩
      split at hmessage
      · next span hspan =>
        refine concludes_of_message hmessage (final_spanMessage _ _ _) ?_ (.inr ⟨rfl, hblind'⟩)
        -- the length announced is that of the span, which the file may be too short for
        by_cases hshort : file.data.length ≤ span.last
        · exact .inr ⟨file, span, ⟨hframing, hget, url, hroute, hfile, hsize, hspan, hshort⟩, rfl⟩
        · refine .inl ⟨final_spanMessage _ _ _, fun hhead ↦ ?_, fun _ ↦ ?_⟩
          · rw [hget] at hhead
            exact Http.Method.noConfusion hhead
          · have := (wantedSpan_bounds (Nat.pos_of_ne_zero hsize) hspan).1
            rw [spanMessage]
            dsimp only
            rw [List.length_take, List.length_drop, Range.Span.len]
            omega
      · have hwhole := whole_rangeMessage exchange.request file.size exchange.request.method
        exact concludes_of_message hmessage hwhole.final (.inl hwhole) (.inr ⟨rfl, hblind'⟩)

theorem concludes_dispatch {route : Route} (hframing : exchange.request.framing ≠ .chunked)
    (hroute : Route.resolve exchange.request.target = .ok route) :
    Ends env (cache.dispatch exchange route).run (Concludes cache exchange env site) site := by
  have hblind : ∀ world, Blind exchange.request world ↔ BlindOn exchange.request world route := by
    intro world
    rw [Blind, and_iff_right hframing]
    constructor
    · rintro ⟨route', hroute', h⟩
      cases hroute.symm.trans hroute'
      exact h
    · exact fun h ↦ ⟨route, hroute, h⟩
  cases route with
  | cacheInfo =>
    have hplain : Text.Plain cacheInfoType := by decide
    refine concludes_page hplain ((hblind _).mpr trivial) ?_
    exact (ends_send site).imp fun _ _ _ _ h ↦ ⟨_, h⟩
  | metrics =>
    have hplain : Text.Plain metricsType := by decide
    refine concludes_page hplain ((hblind _).mpr trivial) ?_
    exact (ends_metrics site cache).imp fun _ _ _ _ h ↦ ⟨_, h⟩
  | narinfo key =>
    rw [dispatch]
    split
    · next hput => exact concludes_publish hput fun world h ↦ ((hblind world).mp h).1 hput
    · next hput => exact concludes_narinfo key ((hblind _).trans (and_iff_right hput))
  | nar url =>
    rw [dispatch]
    split
    · next hput =>
      refine concludes_receive url hput fun world h ↦ ?_
      have := (hblind world).mp h
      rw [BlindOn, hput] at this
      exact this
    · next hhead =>
      have hwhole := whole_probeMessage exchange (probed site.1 url)
      refine concludes_of_message (ends_probe site url) hwhole.final (.inl (hhead ▸ hwhole)) ?_
      rw [hblind, BlindOn, hhead]
      cases probed site.1 url with
      | none => exact .inl ⟨rfl, by simp⟩
      | some length => exact .inr ⟨rfl, rfl⟩
    · next hget =>
      refine concludes_stream hframing hget hroute ?_
      rw [hblind, BlindOn, hget]

theorem concludes_handle (site : Site) :
    Ends env (cache.handle exchange).run (Concludes cache exchange env site) site := by
  refine Attempt.safe_bind ((ends_bump _ _ _ site).imp ?_)
  rintro _ peer world - ⟨rfl, rfl, hsteady⟩
  have hlater : ∀ {program : Call Handler.Error (Http.KeepAlive × Connection)},
      Ends env program.run (Concludes cache exchange env (world, site.2)) (world, site.2) →
        Ends env program.run (Concludes cache exchange env site) (world, site.2) :=
    fun h ↦ h.imp fun _ _ _ _ ↦ Concludes.of_steady hsteady
  refine hlater ?_
  split
  · next hchunked => exact concludes_bare Status.noConfusion fun h ↦ h.1 hchunked
  · next hframing =>
    cases hroute : Route.resolve exchange.request.target with
    | ok route => exact concludes_dispatch hframing hroute
    | error error =>
      have hblind : ¬Blind exchange.request world := by
        rintro ⟨-, route, hroute', -⟩
        exact absurd (hroute.symm.trans hroute') (by simp)
      cases error <;> exact concludes_bare Status.noConfusion hblind

/-- A request on a route that reads no body is answered with the one message its handler says. -/
theorem ends_handle_of_message {route : Route} {program : Call Handler.Error Http.KeepAlive}
    {message : Message} (hframing : exchange.request.framing ≠ .chunked)
    (hroute : Route.resolve exchange.request.target = .ok route)
    (hdispatch : cache.dispatch exchange route
      = (fun keepAlive ↦ (keepAlive, exchange.connection)) <$> program)
    (h : ∀ world, Steady site.1 world →
      Ends env program.run (Says env (world, site.2) message) (world, site.2)) :
    Ends env (cache.handle exchange).run (fun result peer world ↦
      (∀ value, result = .ok value → value.2 = exchange.connection)
        ∧ Says env site message (result.map Prod.fst) peer world) site := by
  refine Attempt.safe_bind ((ends_bump _ _ _ site).imp ?_)
  rintro _ peer world - ⟨rfl, rfl, hsteady⟩
  dsimp only
  rw [if_neg hframing, hroute]
  dsimp only
  rw [hdispatch]
  refine Attempt.safe_map ((h world hsteady).imp ?_)
  rintro (error | keepAlive) peer world' - hmessage
  · refine ⟨fun _ h ↦ ?_, hmessage.of_steady hsteady⟩
    cases h
  · refine ⟨fun _ h ↦ ?_, hmessage.of_steady hsteady⟩
    cases h
    rfl

end Cache

end Bincache
