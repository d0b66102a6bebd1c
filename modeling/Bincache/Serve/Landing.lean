import Bincache.Serve.Description
import Bincache.Specimen

/-!
# Where a publish lands

The target of `PUT /<key>.narinfo` names a key, and so does the store path in the body. The handler
of the route passes the body on without the key of the target, so the record lands under the key of
the body. `Lands` is what a client that was answered `201` takes for granted, and `Publishes` the
part of the handler that decides.
-/

namespace Bincache

namespace Cache

open Handler Response

variable [Crates] {env : Env} {cache : Cache} {exchange : Exchange} {site : Site}

/-! ## Acknowledgements -/

/-- The peer was answered `201`, after an invitation at most. -/
def Acknowledged (cache : Cache) (exchange : Exchange) (start peer : Peer) : Prop :=
  ∃ invited answer, Invited cache exchange invited
    ∧ peer.written = start.written ++ (invited ++ answer)
    ∧ Text.utf8 (statusLine .created) <+: answer

omit [Crates] in
theorem invitation_eq (exchange : Exchange) :
    invitation exchange = [] ∨ invitation exchange = interim := by
  rw [invitation]
  split
  · exact .inr rfl
  · exact .inl rfl

/-- Only a message of that status can be taken for an acknowledgement. -/
theorem status_of_acknowledged {message : Message} {sent said : Bytes} {start peer : Peer}
    (hfinal : message.reply.Final) (hsent : sent = [] ∨ sent = interim)
    (hsaid : said <+: sent ++ message.bytes) (hwritten : peer.written = start.written ++ said)
    (h : Acknowledged cache exchange start peer) : message.reply.status = .created := by
  obtain ⟨invited, answer, hinvited, hwritten', hcreated⟩ := h
  obtain ⟨rest, hrest⟩ := hsaid
  obtain rfl := List.append_cancel_left (hwritten.symm.trans hwritten')
  have hbegins := hcreated.trans (List.prefix_append answer rest)
  rw [List.append_assoc] at hrest
  obtain rfl | ⟨rfl, -⟩ := hinvited
  · rw [List.nil_append] at hrest
    rw [hrest] at hbegins
    obtain rfl | rfl := hsent
    · exact Reply.created_of_isPrefix hbegins
    · -- the interim response begins in another way
      obtain ⟨tail, htail⟩ := hbegins
      have hstart := congrArg (List.take 12) htail
      rw [List.take_append_of_le_length (by decide),
        List.take_append_of_le_length (by decide)] at hstart
      exact absurd hstart (by decide)
  · obtain rfl | rfl := hsent
    · exact absurd ⟨_, hrest⟩ (Reply.not_interim_isPrefix hfinal message.body)
    · rw [List.append_cancel_left hrest] at hbegins
      exact Reply.created_of_isPrefix hbegins

theorem acknowledged_of_written {message : Message} {start peer : Peer}
    (hinvited : Invited cache exchange (invitation exchange))
    (hstatus : message.reply.status = .created)
    (hwritten : peer.written = start.written ++ (invitation exchange ++ message.bytes)) :
    Acknowledged cache exchange start peer :=
  ⟨_, _, hinvited, hwritten, hstatus ▸ message.reply.statusLine_isPrefix message.body⟩

/-! ## What decides -/

/-- The body is published: it is not too long, it is text that parses, and the NAR it declares was
received. -/
def Publishes (cache : Cache) (nar : Sha256 → Option Entry) (body : Bytes) (declared : NarInfo)
    (entry : Entry) : Prop :=
  body.length ≤ Http.metadataBodyMax ∧ ∃ text, Text.fromUtf8 body = some text
    ∧ cache.ingest.Publishable nar text declared entry

/-- A body is published and acknowledged, or it is neither. -/
def Lodges (cache : Cache) (exchange : Exchange) (env : Env) (site : Site) (body : Bytes)
    (peer : Peer) (world : World) : Prop :=
  (¬Acknowledged cache exchange site.2 peer ∧ Steady site.1 world
    ∧ (env = .hostile ∨ ∀ declared entry, ¬Publishes cache site.1.index.nar body declared entry))
  ∨ ∃ declared entry, Publishes cache site.1.index.nar body declared entry
    ∧ Steady { site.1 with index := site.1.index.publish (cache.ingest.record declared entry) }
      world
    ∧ (env = .hostile ∨ Acknowledged cache exchange site.2 peer)

theorem lodges_of_settles {body : Bytes} {world : World} {peer : Peer} {message : Message}
    {answer : Bytes} (hmay : cache.admission exchange.request = .admitted)
    (hmethod : exchange.request.method = .put) (hlength : body.length ≤ Http.metadataBodyMax)
    (hfinal : message.reply.Final)
    (hwritten : peer.written = site.2.written ++ (invitation exchange ++ answer))
    (hanswer : answer <+: message.bytes) (hwhole : env = .hostile ∨ answer = message.bytes)
    (h : Settles cache.ingest env body site.1 world message) :
    Lodges cache exchange env site body peer world := by
  have hsaid := (List.prefix_append_right_inj (invitation exchange)).mpr hanswer
  rw [Settles] at h
  split at h
  · next htext =>
    refine .inl ⟨fun hack ↦ h.1 ?_, h.2, .inr ?_⟩
    · exact status_of_acknowledged hfinal (invitation_eq exchange) hsaid hwritten hack
    rintro declared entry ⟨-, text, htext', -⟩
    exact absurd (htext.symm.trans htext') (by simp)
  · next text htext =>
    obtain ⟨hstatus, declared, entry, hpublishable, hsteady⟩ | ⟨hstatus, hsteady, hreason⟩ := h
    · refine .inr ⟨declared, entry, ⟨hlength, text, htext, hpublishable⟩, hsteady,
        hwhole.imp_right ?_⟩
      rintro rfl
      exact acknowledged_of_written (invited_invitation hmethod hmay) hstatus hwritten
    · refine .inl ⟨fun hack ↦ hstatus ?_, hsteady, hreason.imp_right ?_⟩
      · exact status_of_acknowledged hfinal (invitation_eq exchange) hsaid hwritten hack
      rintro hrefused declared entry ⟨-, text', htext', hpublishable⟩
      obtain rfl := Option.some.inj (htext.symm.trans htext')
      exact hrefused declared entry hpublishable

theorem Lodges.of_steady {body : Bytes} {world world' : World} {peer : Peer}
    (hsteady : Steady site.1 world)
    (h : Lodges cache exchange env (world, site.2) body peer world') :
    Lodges cache exchange env site body peer world' := by
  obtain ⟨stats, rfl⟩ := hsteady
  obtain ⟨hack, ⟨stats', rfl⟩, hreason⟩ | ⟨declared, entry, hpublishes, ⟨stats', rfl⟩, hack⟩ := h
  · exact .inl ⟨hack, ⟨stats', rfl⟩, hreason⟩
  · exact .inr ⟨declared, entry, hpublishes, ⟨stats', rfl⟩, hack⟩

theorem ends_publish_long {body : Bytes} (hmay : cache.admission exchange.request = .admitted)
    (hframing : exchange.request.framing = .length body.length)
    (hlength : Http.metadataBodyMax < body.length) (site : Site) :
    Ends env (cache.publish exchange).run
      (fun _ peer world ↦ Lodges cache exchange env site body peer world) site := by
  refine Attempt.safe_bind ((ends_admitRequest exchange site).imp ?_)
  rintro _ peer world - ⟨rfl, rfl, hsteady⟩
  dsimp only
  rw [if_neg (by rw [hmay]; exact Admission.noConfusion), hframing]
  dsimp only
  rw [if_pos hlength]
  refine Attempt.safe_map ((ends_answer (world, site.2)).imp ?_)
  rintro result peer world' - ⟨hsteady', -, hresult⟩
  have hwhole : (bareMessage .contentTooLarge (keepAlive exchange .unread)).Whole .put :=
    whole_bareMessage Status.noConfusion .put _
  have hunsaid : ∀ {said : Bytes},
      said <+: (bareMessage .contentTooLarge (keepAlive exchange .unread)).bytes →
      peer.written = site.2.written ++ said → ¬Acknowledged cache exchange site.2 peer := by
    intro said hsaid hwritten hack
    have hstatus := status_of_acknowledged hwhole.final (.inl rfl) hsaid hwritten hack
    exact Status.noConfusion hstatus
  refine .inl ⟨?_, hsteady.trans hsteady', .inr fun declared entry hpublishes ↦ ?_⟩
  · rcases result with error | keepAlive
    · obtain ⟨-, said, hsaid, hwritten⟩ := hresult
      exact hunsaid hsaid hwritten
    · exact hunsaid List.prefix_rfl hresult.2
  · exact absurd hpublishes.1 (Nat.not_le.mpr hlength)

/-- The body of a `PUT` of a narinfo is published and acknowledged, or it is neither. -/
theorem ends_put_narinfo {key : StorePath.Hash} {body rest : Bytes}
    (hmethod : exchange.request.method = .put)
    (hroute : Route.resolve exchange.request.target = .ok (.narinfo key))
    (hmay : cache.admission exchange.request = .admitted)
    (hframing : exchange.request.framing = .length body.length)
    (hstream : exchange.connection.stream site.2 = body ++ rest) :
    Ends env (cache.handle exchange).run
      (fun _ peer world ↦ Lodges cache exchange env site body peer world) site := by
  refine Attempt.safe_bind ((ends_bump _ _ _ site).imp ?_)
  rintro _ peer world - ⟨rfl, rfl, hsteady⟩
  dsimp only
  rw [if_neg (by rw [hframing]; exact Http.Framing.noConfusion), hroute]
  dsimp only
  rw [dispatch, if_pos hmethod]
  by_cases hlength : Http.metadataBodyMax < body.length
  · exact (ends_publish_long hmay hframing hlength (world, site.2)).imp
      fun _ _ _ _ h ↦ h.of_steady hsteady
  rw [Nat.not_lt] at hlength
  have hbody : ∀ {body' rest' : Bytes}, body'.length = body.length →
      exchange.connection.stream site.2 = body' ++ rest' → body' = body := by
    intro body' rest' hlength' hstream'
    exact (List.append_inj (hstream'.symm.trans hstream) hlength').1
  refine (ends_publish hmay hframing hlength (world, site.2)).imp ?_
  rintro (error | ⟨keepAlive, connection⟩) peer world' - ⟨message, hwhole, -, hresult⟩
  · obtain ⟨said, hwritten, hbroken⟩ := hresult
    obtain ⟨henv, hsaid, hsteady'⟩ | ⟨henv, answer, body', rest', rfl, hanswer, hframing', hstream',
      hsettles⟩ := hbroken
    · -- what was written so far may be followed by anything
      have hwhole' : (bareMessage .serverError .keep).Whole .put :=
        whole_bareMessage Status.noConfusion .put _
      have hshort : ¬(exchange.connection.stream site.2).length < exchange.request.bodyLen := by
        rw [hstream, Http.Request.bodyLen, hframing, List.length_append]
        dsimp only
        omega
      refine .inl ⟨fun hack ↦ ?_, hsteady.trans hsteady', .inl (henv.resolve_right hshort)⟩
      have hstatus := status_of_acknowledged hwhole'.final (invitation_eq exchange)
        (hsaid.trans (List.prefix_append _ _)) hwritten hack
      exact Status.noConfusion hstatus
    · obtain rfl := hbody (Http.Framing.length.inj (hframing'.symm.trans hframing)) hstream'
      exact (lodges_of_settles hmay hmethod hlength hwhole.final hwritten hanswer (.inl henv)
        hsettles).of_steady hsteady
  · obtain ⟨-, hwritten, body', hlength', hstream', hsettles⟩ := hresult
    obtain rfl := hbody hlength' hstream'
    exact (lodges_of_settles hmay hmethod hlength hwhole.final hwritten List.prefix_rfl (.inr rfl)
      hsettles).of_steady hsteady

/-! ## Where it was addressed -/

/-- The record has what the body declared. -/
structure Retains (declared record : NarInfo) : Prop where
  storePath : record.storePath = declared.storePath
  narHash : record.narHash = declared.narHash
  narSize : record.narSize = declared.narSize
  references : record.references = declared.references
  deriver : record.deriver = declared.deriver
  ca : record.ca = declared.ca

/-- Whoever asks for the key is answered `200` with this record. -/
def Shows (cache : Cache) (world : World) (key : StorePath.Hash) (record : NarInfo) : Prop :=
  ∀ (asking : Exchange) (peer : Peer) result site', asking.request.method = .get →
    asking.request.framing ≠ .chunked →
    Route.resolve asking.request.target = .ok (.narinfo key) →
    (cache.handle asking).run.Runs (step .fair) (world, peer) result site' →
      ∃ message : Message, message.Whole .get ∧ message.reply.status = .ok
        ∧ message.body = Text.utf8 (record.render cache.ingest.dir)
        ∧ site'.2.written = peer.written ++ message.bytes

theorem shows_of_narinfo {world : World} {key : StorePath.Hash} {record : NarInfo}
    (h : world.index.narinfo key = some record) : Shows cache world key record := by
  intro asking peer result site' hmethod hframing hroute hrun
  have hread : asking.request.method ≠ .put := by
    rw [hmethod]
    exact Http.Method.noConfusion
  obtain ⟨-, -, -, hresult⟩ := (ends_handle_read hread (world, peer)).runs hrun
  have hmessage : readMessage cache asking (world.bump asking.shard .requests 1)
      = pageMessage asking.request NarInfo.contentType
        (Text.utf8 (record.render cache.ingest.dir)) := by
    rw [readMessage, if_neg hframing, hroute]
    dsimp only
    rw [show (world.bump asking.shard .requests 1).index.narinfo key = some record from h]
    rfl
  rw [hmessage] at hresult
  have hwhole := whole_pageMessage asking.request (Text.utf8 (record.render cache.ingest.dir))
    (show Text.Plain NarInfo.contentType by decide)
  refine ⟨_, hmethod ▸ hwhole, rfl, if_neg (by rw [hmethod]; exact Http.Method.noConfusion), ?_⟩
  rcases result with error | value
  · exact absurd hresult.1 (by decide)
  · exact hresult.2

/-- An acknowledged publish is visible where it was addressed, and nowhere else; what is not about
that key is refused. -/
structure Lands (cache : Cache) (exchange : Exchange) (site : Site) (key : StorePath.Hash)
    (body : Bytes) : Prop where
  visible : ∀ env result site', (cache.handle exchange).run.Runs (step env) site result site' →
    Acknowledged cache exchange site.2 site'.2 → ∃ text declared record,
      Text.fromUtf8 body = some text ∧ NarInfo.parse text cache.ingest.dir = .ok declared
        ∧ Shows cache site'.1 key record ∧ record.storePath.hash = key ∧ Retains declared record
        ∧ ∀ key' ≠ key, site'.1.index.narinfo key' = site.1.index.narinfo key'
  refused : ∀ text declared, Text.fromUtf8 body = some text →
    NarInfo.parse text cache.ingest.dir = .ok declared → declared.storePath.hash ≠ key →
    ∀ env result site', (cache.handle exchange).run.Runs (step env) site result site' →
      ¬Acknowledged cache exchange site.2 site'.2 ∧ Steady site.1 site'.1

/-- The request publishes what it is not addressed to. -/
theorem not_lands {key : StorePath.Hash} {body rest : Bytes} {declared : NarInfo} {entry : Entry}
    (hmethod : exchange.request.method = .put)
    (hroute : Route.resolve exchange.request.target = .ok (.narinfo key))
    (hmay : cache.admission exchange.request = .admitted)
    (hframing : exchange.request.framing = .length body.length)
    (hstream : exchange.connection.stream site.2 = body ++ rest)
    (hpublishes : Publishes cache site.1.index.nar body declared entry)
    (hkey : declared.storePath.hash ≠ key) : ¬Lands cache exchange site key body := by
  intro hlands
  obtain ⟨result, site', hrun⟩ := exists_runs_fair (cache.handle exchange).run site
  have ⟨_, text, htext, hpublishable⟩ := hpublishes
  obtain ⟨hunanswered, -⟩ :=
    hlands.refused text declared htext hpublishable.parsed hkey .fair result
    site' hrun
  obtain ⟨-, -, hreason⟩ | ⟨-, -, -, -, hack⟩ :=
    (ends_put_narinfo hmethod hroute hmay hframing hstream).runs hrun
  · exact (hreason.resolve_left (by decide)) declared entry hpublishes
  · exact hunanswered (hack.resolve_left (by decide))

/-- A `PUT` lands where it was addressed, exactly unless the body is accepted and about another
path. -/
theorem lands_iff {key : StorePath.Hash} {body rest : Bytes}
    (hmethod : exchange.request.method = .put)
    (hroute : Route.resolve exchange.request.target = .ok (.narinfo key))
    (hmay : cache.admission exchange.request = .admitted)
    (hframing : exchange.request.framing = .length body.length)
    (hstream : exchange.connection.stream site.2 = body ++ rest) :
    Lands cache exchange site key body ↔ ∀ declared entry,
      Publishes cache site.1.index.nar body declared entry → declared.storePath.hash = key := by
  have hends : ∀ env, Ends env (cache.handle exchange).run
      (fun _ peer world ↦ Lodges cache exchange env site body peer world) site :=
    fun env ↦ ends_put_narinfo hmethod hroute hmay hframing hstream
  constructor
  · intro hlands declared entry hpublishes
    by_contra hkey
    exact not_lands hmethod hroute hmay hframing hstream hpublishes hkey hlands
  · intro hkey
    refine ⟨fun env result site' hrun hack ↦ ?_,
      fun text declared htext hparsed hne env result site'
      hrun ↦ ?_⟩
    · obtain ⟨hunanswered, -⟩ | ⟨declared, entry, hpublishes, ⟨stats, hworld⟩, -⟩ :=
        (hends env).runs hrun
      · exact absurd hack hunanswered
      -- the record is filed under its own hash, which is the key that was asked for
      obtain rfl := hkey declared entry hpublishes
      obtain ⟨-, text, htext, hpublishable⟩ := hpublishes
      have hindex : ∀ key', site'.1.index.narinfo key' = if key' = declared.storePath.hash
          then some (cache.ingest.record declared entry) else site.1.index.narinfo key' := by
        intro key'
        rw [hworld]
        exact Index.narinfo_publish _ _ _
      refine ⟨text, declared, _, htext, hpublishable.parsed,
        shows_of_narinfo ((hindex _).trans (if_pos rfl)), rfl, ⟨rfl, rfl, rfl, rfl, rfl, rfl⟩, ?_⟩
      exact fun key' hne ↦ (hindex key').trans (if_neg hne)
    · obtain ⟨hunanswered, hsteady, -⟩ | ⟨declared', entry, hpublishes, -⟩ := (hends env).runs hrun
      · exact ⟨hunanswered, hsteady⟩
      refine absurd (hkey declared' entry hpublishes) ?_
      obtain ⟨-, text', htext', hpublishable⟩ := hpublishes
      obtain rfl := Option.some.inj (htext.symm.trans htext')
      obtain rfl := Except.ok.inj (hparsed.symm.trans hpublishable.parsed)
      exact hne

end Cache

section Specimen

open Specimen Cache

namespace Specimen

/-- The narinfo of the specimen, put to a target. -/
def put (target : Text) : Exchange where
  shard := 0
  connection := ⟨Text.utf8 body⟩
  request := { request .put target (.length (Text.utf8 body).length) with
    authorization := some ("Bearer ".toList ++ token) }

/-- The targets of the specimen's path, and of another one. -/
def home : Text := '/' :: (stem ++ NarInfo.suffix)

def elsewhere : Text := '/' :: (strangerStem ++ NarInfo.suffix)

def unpublished : Site := (world uploaded .empty, ⟨[], []⟩)

theorem resolve_home : Route.resolve home = .ok (.narinfo path.hash) := by decide +kernel

theorem resolve_elsewhere : Route.resolve elsewhere = .ok (.narinfo stranger) := by decide +kernel

theorem admission_put (target : Text) : cache.admission (put target).request = .admitted := by
  have hhome : cache.admission (put home).request = .admitted := by decide +kernel
  -- the target has no part in it
  exact hhome

theorem publishes_body : Publishes cache uploaded.nar (Text.utf8 body) declared entry :=
  ⟨by decide +kernel, body, Text.fromUtf8_utf8 body, publishable⟩

end Specimen

/-- A narinfo that is put to another key is published all the same, under its own. -/
theorem not_lands_elsewhere :
    ¬Lands cache (put elsewhere) unpublished stranger (Text.utf8 body) :=
  not_lands rfl resolve_elsewhere (admission_put _) rfl rfl publishes_body (by decide +kernel)

/-- A narinfo that is put to its own key lands. -/
theorem lands_home : Lands cache (put home) unpublished path.hash (Text.utf8 body) := by
  refine (lands_iff rfl resolve_home (admission_put _) rfl rfl).mpr
    fun declared' entry' hpublishes ↦ ?_
  obtain ⟨-, text, htext, hpublishable⟩ := hpublishes
  obtain rfl := Option.some.inj ((Text.fromUtf8_utf8 body).symm.trans htext)
  obtain rfl := Except.ok.inj (parse_body.symm.trans hpublishable.parsed)
  rfl

end Specimen

end Bincache
