import Bincache.Serve.Exchanges

/-!
# What HEAD says of GET

`readMessage` is the one message a GET or a HEAD is answered with, over all routes. HEAD and GET of
a page share it but for the body; of an artifact they have a handler each, an existence check and a
stream, and their heads agree as long as the artifact is not empty and its name is one that the
existence check looks for on disk.
-/

namespace Bincache

namespace Cache

open Handler Response

variable [Crates] {env : Env} {cache : Cache} {exchange : Exchange}

/-- What a request that only reads is answered with, in a world that has counted it. -/
def readMessage (cache : Cache) (exchange : Exchange) (world : World) : Message :=
  if exchange.request.framing = .chunked then
    bareMessage .notImplemented (keepAlive exchange .unread)
  else
    match Route.resolve exchange.request.target with
    | .ok .cacheInfo => pageMessage exchange.request cacheInfoType (Text.utf8 cache.info)
    | .ok .metrics => metricsMessage cache exchange world
    | .ok (.narinfo key) => narinfoMessage cache exchange (world.index.narinfo key)
    | .ok (.nar url) =>
      if exchange.request.method = .head then probeMessage exchange (probed world url)
      else streamMessage exchange (world.fs.lookup (Store.path url))
    | .error (.unknown _) => bareMessage .notFound (keepAlive exchange .unread)
    | .error _ => bareMessage .badRequest (keepAlive exchange .unread)

omit [Crates] in
private theorem says_unchanged {program : Call Handler.Error Http.KeepAlive} {message : Message}
    {site : Site} (h : Ends env program.run (Says env site message) site) :
    Ends env ((fun keepAlive ↦ (keepAlive, exchange.connection)) <$> program).run
      (fun result peer world ↦ (∀ value, result = .ok value → value.2 = exchange.connection)
        ∧ Says env site message (result.map Prod.fst) peer world) site := by
  refine Attempt.safe_map (h.imp ?_)
  rintro (error | keepAlive) peer world - hdescribed
  · exact ⟨fun value heq ↦ absurd heq (by simp [Except.map]), hdescribed⟩
  · refine ⟨fun value heq ↦ ?_, hdescribed⟩
    rw [← Except.ok.inj heq]

/-- A request that only reads is answered with its message. -/
theorem ends_handle_read (hmethod : exchange.request.method ≠ .put) (site : Site) :
    Ends env (cache.handle exchange).run (fun result peer world ↦
      (∀ value, result = .ok value → value.2 = exchange.connection)
        ∧ Says env site (readMessage cache exchange (site.1.bump exchange.shard .requests 1))
          (result.map Prod.fst) peer world) site := by
  refine Attempt.safe_bind ((ends_bumped _ _ _ site).imp ?_)
  rintro _ peer world - ⟨rfl, rfl, rfl⟩
  have hsteady : Steady site.1 (site.1.bump exchange.shard .requests 1) := ⟨_, rfl⟩
  -- every route is looked at after the request was counted, which no answer but one shows
  have hlater : ∀ {program : Call Handler.Error (Http.KeepAlive × Connection)} {message : Message},
      Ends env program.run (fun result peer world ↦
        (∀ value, result = .ok value → value.2 = exchange.connection)
          ∧ Says env (site.1.bump exchange.shard .requests 1, site.2) message
            (result.map Prod.fst) peer world) (site.1.bump exchange.shard .requests 1, site.2) →
      Ends env program.run (fun result peer world ↦
        (∀ value, result = .ok value → value.2 = exchange.connection)
          ∧ Says env site message (result.map Prod.fst) peer world)
        (site.1.bump exchange.shard .requests 1, site.2) :=
    fun h ↦ h.imp fun _ _ _ _ h ↦ ⟨h.1, h.2.of_steady hsteady⟩
  refine hlater ?_
  rw [readMessage]
  split
  · exact says_unchanged (ends_answer _)
  cases hroute : Route.resolve exchange.request.target with
  | error error =>
    cases error with
    | unknown target => exact says_unchanged (ends_answer _)
    | relative target => exact says_unchanged (ends_answer _)
    | key source => exact says_unchanged (ends_answer _)
    | nar source => exact says_unchanged (ends_answer _)
  | ok route =>
    cases route with
    | cacheInfo => exact says_unchanged (ends_send _)
    | metrics => exact says_unchanged (ends_metrics _ cache)
    | narinfo key =>
      dsimp only [dispatch]
      rw [if_neg hmethod]
      exact says_unchanged (ends_narinfo _ cache key)
    | nar url =>
      dsimp only [dispatch]
      cases hread : exchange.request.method with
      | put => exact absurd hread hmethod
      | head =>
        rw [if_pos rfl]
        exact says_unchanged (ends_probe _ url)
      | get =>
        rw [if_neg (by decide)]
        exact says_unchanged (ends_stream _ url)

/-! ## HEAD and GET of one target -/

omit [Crates] in
def asked (exchange : Exchange) (method : Http.Method) (range : Option Text) : Exchange :=
  { exchange with request := { exchange.request with method, range } }

omit [Crates] in
/-- An artifact that is answered for is not empty. -/
def Filled (world : World) : Prop :=
  ∀ url file, world.fs.lookup (Store.path url) = some file → file.size ≠ 0

/-- The message of a HEAD has the reply of the one of a GET, and no body. -/
theorem readMessage_head (range : Option Text) {world : World} (hfilled : Filled world)
    (hcompressed : ∀ url, Route.resolve exchange.request.target = .ok (.nar url) →
      url.compression ≠ .none) :
    readMessage cache (asked exchange .head range) world
      = ⟨(readMessage cache (asked exchange .get none) world).reply, []⟩ := by
  have hframing : ∀ method range,
      (asked exchange method range).request.framing = exchange.request.framing := fun _ _ ↦ rfl
  have htarget : ∀ method range,
      (asked exchange method range).request.target = exchange.request.target := fun _ _ ↦ rfl
  rw [readMessage, readMessage, hframing, hframing, htarget, htarget]
  by_cases hchunked : exchange.request.framing = .chunked
  · rw [if_pos hchunked, if_pos hchunked]
    rfl
  rw [if_neg hchunked, if_neg hchunked]
  cases hroute : Route.resolve exchange.request.target with
  | error error => cases error <;> rfl
  | ok route =>
    cases route with
    | cacheInfo => rfl
    | metrics => rfl
    | narinfo key =>
      dsimp only
      cases world.index.narinfo key with
      | none => rfl
      | some record => rfl
    -- the probe asks for the size, and a full GET serves a span of just that size
    | nar url =>
      have hhead : (asked exchange .head range).request.method = .head := rfl
      have hget : (asked exchange .get none).request.method ≠ .head := Http.Method.noConfusion
      dsimp only
      rw [if_pos hhead, if_neg hget, probed, if_neg (hcompressed url hroute)]
      cases hfile : world.fs.lookup (Store.path url) with
      | none => rfl
      | some file =>
        have hsize := hfilled url file hfile
        have hlen : (⟨0, file.size - 1⟩ : Range.Span).len = file.size := by
          rw [Range.Span.len]
          dsimp only
          omega
        have hspan : wantedSpan (asked exchange .get none).request.range file.size
            = some ⟨0, file.size - 1⟩ := rfl
        rw [streamMessage]
        dsimp only [Option.map_some]
        rw [if_neg hsize, hspan]
        dsimp only
        rw [spanMessage, contentRange]
        dsimp only
        rw [hlen, if_neg (by simp), if_neg (by simp), probeMessage, List.append_nil]
        rfl

theorem final_readMessage (world : World) : (readMessage cache exchange world).reply.Final := by
  have hbare : ∀ status : Status, status ≠ .continue →
      (bareMessage status (keepAlive exchange .unread)).reply.Final := fun status hstatus ↦
    (whole_bareMessage hstatus .get (keepAlive exchange .unread)).final
  have hpage : ∀ {contentType : Text} (body : Bytes), Text.Plain contentType →
      (pageMessage exchange.request contentType body).reply.Final := fun body hplain ↦
    (whole_pageMessage exchange.request body hplain).final
  rw [readMessage]
  split
  · exact hbare _ Status.noConfusion
  cases Route.resolve exchange.request.target with
  | error error => cases error <;> exact hbare _ Status.noConfusion
  | ok route =>
    cases route with
    | cacheInfo => exact hpage _ (by decide)
    | metrics => exact hpage _ (by decide)
    | narinfo key =>
      dsimp only
      cases world.index.narinfo key with
      | none => exact hbare _ Status.noConfusion
      | some record => exact hpage _ (by decide)
    | nar url =>
      dsimp only
      split
      · exact (whole_probeMessage exchange _).final
      cases world.fs.lookup (Store.path url) with
      | none => exact hbare _ Status.noConfusion
      | some file =>
        rw [streamMessage]
        split
        · exact hbare _ Status.noConfusion
        · split
          · exact final_spanMessage _ _ _
          · exact (whole_rangeMessage exchange.request file.size .get).final

/-- What a HEAD and a GET without a range come to in one state, their requests being otherwise the
same: the GET is answered with a head and what follows it, the HEAD with that head and nothing else;
they agree on what becomes of the connection; and neither changes the index or the store. -/
structure Describes (cache : Cache) (exchange : Exchange) (site : Site) : Prop where
  heads : ∀ range getResult getSite headResult headSite,
    (cache.handle (asked exchange .get none)).run.Runs (step .fair) site getResult getSite →
    (cache.handle (asked exchange .head range)).run.Runs (step .fair) site headResult headSite →
      ∃ head body, Http.EndsHead (head ++ body) head
        ∧ getSite.2.written = site.2.written ++ (head ++ body)
        ∧ headSite.2.written = site.2.written ++ head
  keepAlive : ∀ range getResult getSite headResult headSite,
    (cache.handle (asked exchange .get none)).run.Runs (step .fair) site getResult getSite →
    (cache.handle (asked exchange .head range)).run.Runs (step .fair) site headResult headSite →
      ∃ keepAlive, getResult = .ok (keepAlive, exchange.connection)
        ∧ headResult = .ok (keepAlive, exchange.connection)
  unchanged : ∀ method range result site', method ≠ .put →
    (cache.handle (asked exchange method range)).run.Runs (step .fair) site result site' →
      site'.1.index = site.1.index ∧ site'.1.fs = site.1.fs

theorem read_of_runs {method : Http.Method} {range : Option Text} {site site' : Site}
    {result : Except Handler.Error (Http.KeepAlive × Connection)} (hmethod : method ≠ .put)
    (hrun : (cache.handle (asked exchange method range)).run.Runs (step .fair) site result site') :
    result = .ok ((readMessage cache (asked exchange method range)
        (site.1.bump exchange.shard .requests 1)).reply.keepAlive, exchange.connection)
      ∧ site'.2.written = site.2.written ++ (readMessage cache (asked exchange method range)
        (site.1.bump exchange.shard .requests 1)).bytes
      ∧ Steady site.1 site'.1 := by
  have hends := @ends_handle_read _ .fair cache (asked exchange method range) hmethod site
  obtain ⟨hconnection, hsteady, -, hresult⟩ := hends.runs hrun
  rcases result with error | ⟨keepAlive, connection⟩
  · exact absurd hresult.1 (by decide)
  · obtain ⟨hkeep, hwritten⟩ := hresult
    exact ⟨congrArg Except.ok (Prod.ext hkeep (hconnection _ rfl)), hwritten, hsteady⟩

/-- Where no artifact is empty, HEAD describes GET. -/
theorem describes_of_filled {site : Site} (hfilled : Filled site.1)
    (hcompressed : ∀ url, Route.resolve exchange.request.target = .ok (.nar url) →
      url.compression ≠ .none) : Describes cache exchange site := by
  have hcounted : Filled (site.1.bump exchange.shard .requests 1) := hfilled
  refine ⟨fun range getResult getSite headResult headSite hget hhead ↦ ?_,
    fun range getResult getSite headResult headSite hget hhead ↦ ?_,
    fun method range result site' hmethod hrun ↦ ?_⟩
  · obtain ⟨-, hgetWritten, -⟩ := read_of_runs Http.Method.noConfusion hget
    obtain ⟨-, hheadWritten, -⟩ := read_of_runs Http.Method.noConfusion hhead
    rw [readMessage_head range hcounted hcompressed] at hheadWritten
    refine ⟨_, _, Http.endsHead_iff.mpr ⟨List.prefix_append _ _, ?_⟩, hgetWritten, ?_⟩
    · exact Reply.headLen_head (final_readMessage _) _
    · rw [hheadWritten, Message.bytes, List.append_nil]
  · obtain ⟨hgetResult, -, -⟩ := read_of_runs Http.Method.noConfusion hget
    obtain ⟨hheadResult, -, -⟩ := read_of_runs Http.Method.noConfusion hhead
    rw [readMessage_head range hcounted hcompressed] at hheadResult
    exact ⟨_, hgetResult, hheadResult⟩
  · obtain ⟨-, -, stats, hworld⟩ := read_of_runs hmethod hrun
    rw [hworld]
    exact ⟨rfl, rfl⟩

end Cache

end Bincache
