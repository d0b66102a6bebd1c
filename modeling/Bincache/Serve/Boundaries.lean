import Bincache.Serve.Exchanges
import Bincache.Specimen

/-!
# Message boundaries

What a client on a kept connection has to be able to count on: the bytes written are whole
responses, and the bytes read are whole requests. Neither holds at every exit. A span that its
artifact does not reach to the end of is announced in full and the connection is kept all the same;
and some exits answer without a look at the body, which is then read as the next request.
-/

namespace Bincache

namespace Cache

open Handler Response

variable {env : Env}

/-! ## Responses -/

/-- The client was invited to send its body, if at all, by a request that may write, and the body
was read. -/
structure Answered [Crates] (cache : Cache) (exchange : Exchange) (site : Site)
    (keepAlive : Http.KeepAlive) (connection : Connection) (peer : Peer) (invited : Bytes)
    (message : Message) : Prop where
  written : peer.written = site.2.written ++ (invited ++ message.bytes)
  admitted : Cache.Invited cache exchange invited
  took : invited ≠ [] → Took exchange site connection peer
  final : message.reply.Final
  header : message.reply.keepAlive = keepAlive
  body_eq_nil : exchange.request.method = .head → message.body = []
  length_body : exchange.request.method ≠ .head → message.body.length = message.reply.length
    ∨ message.body.length < message.reply.length ∧ keepAlive = .close

/-- A kept request for a span that the artifact does not reach to the end of. -/
def Truncates [Crates] (request : Http.Request) (world : World) : Prop :=
  request.keepAlive = .keep ∧ ∃ file span, Overruns request world file span

theorem length_body_spanMessage [Crates] {request : Http.Request} {world : World} {file : File}
    {span : Range.Span} (h : Overruns request world file span) :
    (spanMessage request file span).body.length < (spanMessage request file span).reply.length := by
  obtain ⟨-, -, -, -, -, hsize, hspan, hshort⟩ := h
  have := (wantedSpan_bounds (Nat.pos_of_ne_zero hsize) hspan).1
  rw [spanMessage]
  dsimp only
  rw [List.length_take, List.length_drop, Range.Span.len]
  omega

/-- The answer to such a request is the announcement of the span and what there is of it. -/
theorem ends_handle_of_overruns [Crates] {cache : Cache} {exchange : Exchange} {site : Site}
    {file : File} {span : Range.Span} (h : Overruns exchange.request site.1 file span) :
    Ends env (cache.handle exchange).run (fun result peer world ↦
      (∀ value, result = .ok value → value.2 = exchange.connection)
        ∧ Says env site (spanMessage exchange.request file span) (result.map Prod.fst) peer world)
      site := by
  obtain ⟨hframing, hget, url, hroute, hfile, hsize, hspan, -⟩ := h
  have hdispatch : cache.dispatch exchange (.nar url)
      = (fun keepAlive ↦ (keepAlive, exchange.connection)) <$> stream exchange url := by
    rw [dispatch, hget]
  refine ends_handle_of_message hframing hroute hdispatch fun world hsteady ↦ ?_
  have := @ends_stream env exchange (world, site.2) url
  obtain ⟨stats, rfl⟩ := hsteady
  dsimp only at this
  rwa [hfile, streamMessage, if_neg hsize, hspan] at this

/-- Such a request is answered, and not with one complete response. -/
theorem not_answered_of_truncates [Crates] (env : Env) (cache : Cache) {exchange : Exchange}
    {site : Site} (h : Truncates exchange.request site.1) : ∃ keepAlive connection site',
      (cache.handle exchange).run.Runs (step env) site (.ok (keepAlive, connection)) site'
        ∧ ∀ invited message,
          ¬Answered cache exchange site keepAlive connection site'.2 invited message := by
  obtain ⟨hkeep, file, span, hoverruns⟩ := h
  obtain ⟨result, site', hrun⟩ := exists_runs_fair (cache.handle exchange).run site
  obtain ⟨-, -, -, hmessage⟩ := (ends_handle_of_overruns hoverruns).runs hrun
  cases result with
  | error error => exact Env.noConfusion hmessage.1
  | ok value =>
    obtain ⟨keepAlive, connection⟩ := value
    obtain ⟨rfl, hwritten⟩ := hmessage
    refine ⟨_, connection, site', runs_of_fair hrun, fun invited message hanswered ↦ ?_⟩
    -- A `GET` is not invited, so the bytes written read as one response only.
    have hinvited : invited = [] := hanswered.admitted.resolve_right fun hput ↦
      Http.Method.noConfusion (hput.2.1.symm.trans hoverruns.2.1)
    have hbytes := hanswered.written.symm.trans hwritten
    rw [hinvited, List.nil_append, List.append_right_inj] at hbytes
    obtain ⟨hlength, hbody⟩ :=
      Reply.eq_of_append_eq hanswered.final (final_spanMessage _ _ _) hbytes
    have hshort := length_body_spanMessage hoverruns
    have hmethod : exchange.request.method ≠ .head := by
      rw [hoverruns.2.1]
      exact Http.Method.noConfusion
    obtain hfull | ⟨-, hclose⟩ := hanswered.length_body hmethod
    · rw [hbody, hlength] at hfull
      exact hshort.ne hfull
    · exact Http.KeepAlive.noConfusion (hkeep.symm.trans hclose)

/-- Every exchange that succeeds was answered with one complete response, exactly where no kept
request is for more than its artifact has. -/
theorem answered_iff [Crates] (env : Env) (cache : Cache) (exchange : Exchange) (site : Site) :
    (∀ keepAlive connection site', (cache.handle exchange).run.Runs (step env) site
        (.ok (keepAlive, connection)) site' →
      ∃ invited message, Answered cache exchange site keepAlive connection site'.2 invited message)
    ↔ ¬Truncates exchange.request site.1 := by
  refine ⟨fun h htruncates ↦ ?_, fun h keepAlive connection site' hrun ↦ ?_⟩
  · obtain ⟨_, _, _, hrun, hnot⟩ := not_answered_of_truncates env cache htruncates
    obtain ⟨_, _, hanswered⟩ := h _ _ _ hrun
    exact hnot _ _ hanswered
  · obtain ⟨invited, message, said, hinvited, hwritten, hfinal, hwhole, hkeep, rfl, hread⟩ :=
      (concludes_handle site).runs hrun
    have htook : invited ≠ [] → Took exchange site connection site'.2 := fun hne ↦ by
      obtain ⟨htook, -⟩ | ⟨hnil, -⟩ := hread
      · exact htook
      · exact absurd hnil hne
    refine ⟨invited, message, hwritten, hinvited, htook, hfinal, hkeep.symm, ?_, ?_⟩
    · intro hhead
      obtain hwhole | ⟨file, span, hoverruns, -⟩ := hwhole
      · exact hwhole.body_eq_nil hhead
      · exact Http.Method.noConfusion (hhead.symm.trans hoverruns.2.1)
    · intro hhead
      obtain hwhole | ⟨file, span, hoverruns, rfl⟩ := hwhole
      · exact .inl (hwhole.length_body hhead)
      · refine .inr ⟨length_body_spanMessage hoverruns, ?_⟩
        rw [hkeep]
        cases hrequest : exchange.request.keepAlive with
        | keep => exact absurd ⟨hrequest, file, span, hoverruns⟩ h
        | close => exact hrequest

section

open Specimen

/-- The artifact has lost all of its ten bytes since its size was recorded: ten are announced, none
is sent, and the connection is kept. -/
theorem not_answered_cut_artifact : ∃ keepAlive connection site',
    (cache.handle ⟨0, {}, request .get artifact .empty⟩).run.Runs (step .fair)
        (world uploaded (stored ⟨[], 10⟩), ⟨[], []⟩) (.ok (keepAlive, connection)) site'
      ∧ ¬∃ invited message, Answered cache ⟨0, {}, request .get artifact .empty⟩
        (world uploaded (stored ⟨[], 10⟩), ⟨[], []⟩) keepAlive connection site'.2 invited
        message := by
  let exchange : Exchange := ⟨0, {}, request .get artifact .empty⟩
  let site : Site := (world uploaded (stored ⟨[], 10⟩), ⟨[], []⟩)
  have htruncates : Truncates exchange.request site.1 :=
    ⟨rfl, ⟨[], 10⟩, ⟨0, 9⟩, Http.Framing.noConfusion, rfl, entry.url, resolve_artifact,
      lookup_stored _, by decide, by decide, by decide⟩
  obtain ⟨keepAlive, connection, site', hrun, hnot⟩ :=
    not_answered_of_truncates .fair cache htruncates
  exact ⟨keepAlive, connection, site', hrun, fun ⟨invited, message, h⟩ ↦ hnot invited message h⟩

end

/-! ## Requests -/

/-- The exchange has taken exactly the body of its request off the stream. -/
def Drains (exchange : Exchange) (site : Site) (connection : Connection) (peer : Peer) : Prop :=
  exchange.request.framing ≠ .chunked ∧ ∃ body : Bytes,
    body.length = exchange.request.bodyLen
      ∧ exchange.connection.stream site.2 = body ++ connection.stream peer

/-- A kept request with a body, answered without a look at the body. -/
def Misreads [Crates] (request : Http.Request) (world : World) : Prop :=
  request.keepAlive = .keep ∧ request.carriesBody ∧ Blind request world

theorem drains_of_not_misreads [Crates] {cache : Cache} {exchange : Exchange} {site : Site}
    (h : ¬Misreads exchange.request site.1) :
    Ends env (cache.handle exchange).run (fun result peer _ ↦
      ∀ connection, result = .ok (.keep, connection) →
        Drains exchange site connection peer) site := by
  refine (concludes_handle site).imp ?_
  rintro _ peer world - hconcludes connection rfl
  obtain ⟨_, _, _, -, -, -, -, -, -, ⟨htook, -⟩ | ⟨-, hleft⟩⟩ := hconcludes
  · obtain ⟨length, hframing⟩ := htook.framing
    refine ⟨?_, htook.body⟩
    rw [hframing]
    exact Http.Framing.noConfusion
  · have hcarries : exchange.request.carriesBody = false := by
      rw [← Bool.not_eq_true]
      intro hcarries
      obtain ⟨hkeep, -⟩ | ⟨hkeep, hblind⟩ := hleft.keepAlive
      · rw [keepAlive, if_pos ⟨rfl, hcarries⟩] at hkeep
        exact Http.KeepAlive.noConfusion hkeep
      · exact h ⟨hkeep.symm, hcarries, hblind⟩
    refine ⟨fun hchunked ↦ ?_, [], ?_, ?_⟩
    · rw [Http.Request.carriesBody, hchunked] at hcarries
      exact Bool.noConfusion hcarries
    · exact (Http.Request.bodyLen_eq_zero hcarries).symm
    · rw [hleft.connection, List.nil_append, Connection.stream, Connection.stream, hleft.unread]

/-- A misread request is answered and kept, and its body is still there. -/
theorem not_drains_of_misreads [Crates] (env : Env) (cache : Cache) {exchange : Exchange}
    {site : Site} (h : Misreads exchange.request site.1) : ∃ connection site',
      (cache.handle exchange).run.Runs (step env) site (.ok (.keep, connection)) site'
        ∧ ¬Drains exchange site connection site'.2
        ∧ connection.stream site'.2 = exchange.connection.stream site.2 := by
  obtain ⟨hkeep, hcarries, hblind⟩ := h
  obtain ⟨result, site', hrun⟩ := exists_runs_fair (cache.handle exchange).run site
  obtain ⟨_, _, _, -, -, -, -, hresult⟩ := (concludes_handle site).runs hrun
  cases result with
  | error error =>
    obtain ⟨hhostile | ⟨-, hnot⟩, -⟩ := hresult
    · exact Env.noConfusion hhostile
    · exact absurd hblind hnot
  | ok value =>
    obtain ⟨k, connection⟩ := value
    obtain ⟨-, -, ⟨-, -, hnot⟩ | ⟨-, hleft⟩⟩ := hresult
    · exact absurd hblind hnot
    obtain ⟨-, hnot⟩ | ⟨hk, -⟩ := hleft.keepAlive
    · exact absurd hblind hnot
    obtain rfl : k = .keep := hk.trans hkeep
    -- the answer kept the connection, and not a byte of the stream was taken
    have hstream : connection.stream site'.2 = exchange.connection.stream site.2 := by
      rw [hleft.connection, Connection.stream, Connection.stream, hleft.unread]
    refine ⟨connection, site', runs_of_fair hrun, ?_, hstream⟩
    rintro ⟨hframing, body, hbody, hsame⟩
    rw [hstream, List.self_eq_append_left] at hsame
    have hpos := Http.Request.bodyLen_pos hcarries hframing
    rw [← hbody, hsame] at hpos
    exact Nat.lt_irrefl 0 hpos

/-- What a client sends for one request. -/
structure Sent where
  head : Bytes
  request : Http.Request
  body : Bytes

/-- A complete head, and a body as long as the head says. -/
structure Sent.Framed (sent : Sent) : Prop where
  head : Http.headLen sent.head = some sent.head.length
  parsed : Http.parse sent.head = .ok sent.request
  body : sent.request.framing ≠ .chunked → sent.body.length = sent.request.bodyLen

/-- A run of a session, with the heads it reads and the world each is attended to in. -/
inductive SessionRun [Crates] (env : Env) (cache : Cache) (shard : ℕ) :
    ℕ → Connection → Site → List (Bytes × World) → Except Handler.Error Unit → Site → Prop
  /-- So many turns are over. -/
  | spent (connection : Connection) (site : Site) :
    SessionRun env cache shard 0 connection site [] (.ok ()) site
  /-- No head could be read. -/
  | stuck {turns : ℕ} {connection : Connection} {site site' : Site} {error : Connection.Error}
    (hhead : connection.head.run.Runs (step env) site (.error error) site') :
    SessionRun env cache shard (turns + 1) connection site [] (.error (.connection error)) site'
  /-- The peer closed between requests. -/
  | closed {turns : ℕ} {connection connection' : Connection} {site site' : Site}
    (hhead : connection.head.run.Runs (step env) site (.ok (none, connection')) site') :
    SessionRun env cache shard (turns + 1) connection site [] (.ok ()) site'
  /-- The turn was the last one. -/
  | last {turns : ℕ} {connection connection' : Connection} {site site₁ site' : Site} {head : Bytes}
    {result : Except Handler.Error (Turn × Connection)}
    (hhead : connection.head.run.Runs (step env) site (.ok (some head, connection')) site₁)
    (hattend : (cache.attend shard head connection').run.Runs (step env) site₁ result site')
    (hlast : ∀ connection, result ≠ .ok (.handled head .keep, connection)) :
    SessionRun env cache shard (turns + 1) connection site [(head, site₁.1)]
      (result.map fun _ ↦ ()) site'
  /-- The connection was kept. -/
  | kept {turns : ℕ} {connection connection₁ connection₂ : Connection}
    {site site₁ site₂ site' : Site} {head : Bytes} {log : List (Bytes × World)}
    {result : Except Handler.Error Unit}
    (hhead : connection.head.run.Runs (step env) site (.ok (some head, connection₁)) site₁)
    (hattend : (cache.attend shard head connection₁).run.Runs (step env) site₁
      (.ok (.handled head .keep, connection₂)) site₂)
    (hrest : SessionRun env cache shard turns connection₂ site₂ log result site') :
    SessionRun env cache shard (turns + 1) connection site ((head, site₁.1) :: log) result site'

section Session

variable [Crates] {cache : Cache} {shard turns : ℕ} {connection : Connection} {site site' : Site}
  {log : List (Bytes × World)} {result : Except Handler.Error Unit}

/-- A head that was handled is one that parses, and its request was handled. -/
private theorem handled_of_attend {head head' : Bytes} {keepAlive : Http.KeepAlive}
    {connection' : Connection} (hattend : (cache.attend shard head connection).run.Runs (step env)
      site (.ok (.handled head' keepAlive, connection')) site') :
    head' = head ∧ ∃ request, Http.parse head = .ok request
      ∧ (cache.handle ⟨shard, connection, request⟩).run.Runs (step env) site
        (.ok (keepAlive, connection')) site' := by
  rw [attend] at hattend
  split at hattend
  · rw [Attempt.run_bind, Program.runs_bind] at hattend
    obtain ⟨error | ⟨⟩, _, -, h, -⟩ := hattend <;> cases h
  · next request hparse =>
    rw [Attempt.run_bind, Program.runs_bind] at hattend
    obtain ⟨error | ⟨k, connection₁⟩, _, hhandle, h, rfl⟩ := hattend
    · cases h
    · cases h
      exact ⟨rfl, request, hparse, hhandle⟩

theorem sessionRun_of_runs
    (hrun : (cache.session shard turns connection).run.Runs (step env) site result site') :
    ∃ log, SessionRun env cache shard turns connection site log result site' := by
  induction turns generalizing connection site with
  | zero =>
    obtain ⟨rfl, rfl⟩ := hrun
    exact ⟨[], .spent connection site'⟩
  | succ turns ih =>
    rw [session, Attempt.run_bind, Program.runs_bind] at hrun
    obtain ⟨value, site₂, hturn, hrest⟩ := hrun
    rw [turn, Attempt.run_bind, Program.runs_bind] at hturn
    obtain ⟨_, site₁, hhead, hattend⟩ := hturn
    rw [Attempt.run_context, Program.runs_bind] at hhead
    obtain ⟨head, _, hhead, rfl, rfl⟩ := hhead
    -- a session goes on only from an answer that keeps the connection
    obtain error | ⟨_ | head, connection₁⟩ := head
    · obtain ⟨rfl, rfl⟩ := hattend
      obtain ⟨rfl, rfl⟩ := hrest
      exact ⟨[], .stuck hhead⟩
    · obtain ⟨rfl, rfl⟩ := hattend
      obtain ⟨rfl, rfl⟩ := hrest
      exact ⟨[], .closed hhead⟩
    · replace hattend : (cache.attend shard head connection₁).run.Runs (step env) site₁ value
          site₂ :=
        hattend
      obtain error | ⟨_ | _ | ⟨head', _ | _⟩, connection₂⟩ := value
      · obtain ⟨rfl, rfl⟩ := hrest
        exact ⟨_, .last hhead hattend fun _ h ↦ by cases h⟩
      · obtain ⟨rfl, rfl⟩ := hrest
        exact ⟨_, .last hhead hattend fun _ h ↦ by cases h⟩
      · obtain ⟨rfl, rfl⟩ := hrest
        exact ⟨_, .last hhead hattend fun _ h ↦ by cases h⟩
      · obtain ⟨rfl, -⟩ := handled_of_attend hattend
        obtain ⟨log, hlog⟩ := ih hrest
        exact ⟨_, .kept hhead hattend hlog⟩
      · obtain ⟨rfl, rfl⟩ := hrest
        exact ⟨_, .last hhead hattend fun _ h ↦ by cases h⟩

omit [Crates] in
/-- A head that is read off the requests a client sent is the head of the first one. -/
private theorem head_of_sent {sents : List Sent} (hframed : ∀ sent ∈ sents, sent.Framed)
    {head rest : Bytes} (hstream : sents.flatMap (fun sent ↦ sent.head ++ sent.body) = head ++ rest)
    (hhead : Http.headLen (head ++ rest) = some head.length) :
    ∃ sent sents', sents = sent :: sents' ∧ head = sent.head
      ∧ rest = sent.body ++ sents'.flatMap fun sent ↦ sent.head ++ sent.body := by
  cases sents with
  | nil =>
    rw [← hstream] at hhead
    exact absurd hhead (by simp [Http.headLen])
  | cons sent sents =>
    rw [List.flatMap_cons, List.append_assoc] at hstream
    have hlength := Http.headLen_append_of_some (hframed sent List.mem_cons_self).head
      (sent.body ++ sents.flatMap fun sent ↦ sent.head ++ sent.body)
    rw [hstream, hhead, Option.some.injEq] at hlength
    obtain ⟨rfl, rfl⟩ := List.append_inj hstream hlength.symm
    exact ⟨sent, sents, rfl, rfl, rfl⟩

/-- A session whose requests are not misread reads the heads it was sent, in order. -/
theorem heads_isPrefix (hrun : SessionRun env cache shard turns connection site log result site')
    {sents : List Sent} (hframed : ∀ sent ∈ sents, sent.Framed)
    (hstream : connection.stream site.2 = sents.flatMap fun sent ↦ sent.head ++ sent.body)
    (hread : ∀ entry ∈ log, ∀ request, Http.parse entry.1 = .ok request →
      ¬Misreads request entry.2) :
    log.map Prod.fst <+: sents.map Sent.head := by
  induction hrun generalizing sents with
  | spent => exact List.nil_prefix
  | stuck => exact List.nil_prefix
  | closed => exact List.nil_prefix
  | last hhead hattend hlast =>
    obtain ⟨-, -, hsplit, hlength⟩ := (Connection.ends_head _ _).runs hhead
    rw [hsplit] at hstream hlength
    obtain ⟨sent, sents', rfl, rfl, -⟩ := head_of_sent hframed hstream.symm hlength
    exact (List.prefix_cons_inj _).mpr List.nil_prefix
  | @kept turns connection connection₁ connection₂ site site₁ site₂ site' head log result hhead
      hattend hrest ih =>
    obtain ⟨hworld, -, hsplit, hlength⟩ := (Connection.ends_head _ _).runs hhead
    rw [hsplit] at hstream hlength
    obtain ⟨sent, sents', rfl, rfl, hrest'⟩ := head_of_sent hframed hstream.symm hlength
    have hsent := hframed sent List.mem_cons_self
    have hmisread := hread _ List.mem_cons_self sent.request hsent.parsed
    obtain ⟨-, request, hparse, hhandle⟩ := handled_of_attend hattend
    obtain rfl := Except.ok.inj (hparse.symm.trans hsent.parsed)
    obtain ⟨hframing, body, hbody, hsame⟩ :=
      (drains_of_not_misreads hmisread).runs hhandle connection₂ rfl
    -- What was drained is the body that was sent, so the next head starts after it.
    rw [hrest'] at hsame
    obtain ⟨rfl, hnext⟩ := List.append_inj hsame ((hsent.body hframing).trans hbody.symm)
    exact (List.prefix_cons_inj _).mpr
      (ih (fun sent hmem ↦ hframed sent (List.mem_cons_of_mem _ hmem))
      hnext.symm fun entry hentry ↦ hread entry (List.mem_cons_of_mem _ hentry))

end Session

/-- A kept exchange drains exactly its body, where its request is not misread and only there; and a
session none of whose requests is misread reads the heads its client sent, in order, and no body
byte as a head. -/
theorem drains_iff [Crates] (env : Env) (cache : Cache) :
    (∀ (exchange : Exchange) (site : Site),
      (∀ connection site', (cache.handle exchange).run.Runs (step env) site
          (.ok (.keep, connection)) site' → Drains exchange site connection site'.2)
        ↔ ¬Misreads exchange.request site.1)
    ∧ ∀ (shard turns : ℕ) (connection : Connection) (site site' : Site)
        (result : Except Handler.Error Unit),
      (cache.session shard turns connection).run.Runs (step env) site result site' →
      ∃ log, SessionRun env cache shard turns connection site log result site'
        ∧ ∀ sents : List Sent, (∀ sent ∈ sents, sent.Framed) →
          connection.stream site.2 = sents.flatMap (fun sent ↦ sent.head ++ sent.body) →
          (∀ entry ∈ log, ∀ request, Http.parse entry.1 = .ok request →
            ¬Misreads request entry.2) →
          log.map Prod.fst <+: sents.map Sent.head := by
  refine ⟨fun exchange site ↦ ⟨fun h hmisreads ↦ ?_, fun h connection site' hrun ↦ ?_⟩, ?_⟩
  · obtain ⟨connection, site', hrun, hnot, -⟩ := not_drains_of_misreads env cache hmisreads
    exact hnot (h connection site' hrun)
  · exact (drains_of_not_misreads h).runs hrun connection rfl
  · intro shard turns connection site site' result hrun
    obtain ⟨log, hlog⟩ := sessionRun_of_runs hrun
    exact ⟨log, hlog, fun sents hframed hstream hread ↦ heads_isPrefix hlog hframed hstream hread⟩

section

open Specimen

/-- The cache info is sent and the connection kept, with the one byte of the body still unread. -/
theorem not_drains_cache_info : ∃ connection site',
    (cache.handle ⟨0, {}, request .get "/nix-cache-info".toList (.length 1)⟩).run.Runs (step .fair)
        (world .empty .empty, ⟨[71], []⟩) (.ok (.keep, connection)) site'
      ∧ ¬Drains ⟨0, {}, request .get "/nix-cache-info".toList (.length 1)⟩
        (world .empty .empty, ⟨[71], []⟩) connection site'.2 := by
  let exchange : Exchange := ⟨0, {}, request .get "/nix-cache-info".toList (.length 1)⟩
  let site : Site := (world .empty .empty, ⟨[71], []⟩)
  have hmisreads : Misreads exchange.request site.1 :=
    ⟨rfl, rfl, Http.Framing.noConfusion, .cacheInfo, by decide +kernel, trivial⟩
  obtain ⟨connection, site', hrun, hnot, -⟩ := not_drains_of_misreads .fair cache hmisreads
  exact ⟨connection, site', hrun, hnot⟩

end

end Cache

end Bincache
