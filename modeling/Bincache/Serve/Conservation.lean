import Bincache.Serve.Exchanges

/-!
# Nothing is lost on a connection

Four operations drain one buffer, each with a rule of its own for when to stop, while every read
from the socket overshoots by as much as happened to arrive. `Conserved` follows a stream through
any mix of them: each call takes its piece off the front of what is left, and what nobody took is
in the buffer or still unread.

`eachChunk` is the loop that takes a streamed body, with whatever is done to each chunk in between.
-/

namespace Bincache

namespace Connection

variable {env : Env}

/-- A call that takes bytes off a connection. -/
inductive Read
  | head
  | body (len : ℕ)
  | chunk (remaining : ℕ)
  | discard (remaining : ℕ)

/-- Performs a call. Nothing is handed out where the peer had closed, nor by a discard. -/
def perform : Read → Connection → Call Error (Option Bytes × Connection)
  | .head, connection => connection.head
  | .body len, connection => do
    let (bytes, connection) ← connection.body len
    pure (some bytes, connection)
  | .chunk remaining, connection => do
    let (bytes, connection) ← connection.chunk remaining
    pure (some bytes, connection)
  | .discard remaining, connection => do
    let connection ← connection.discard remaining
    pure (none, connection)

def performAll : List Read → Connection → Call Error (List (Option Bytes) × Connection)
  | [], connection => pure ([], connection)
  | read :: reads, connection => do
    let (handed, connection) ← perform read connection
    let (rest, connection) ← performAll reads connection
    pure (handed :: rest, connection)

/-- What a call hands out when it takes `piece` off a stream: a head ends with the first blank line
of the stream, a body is as long as asked for, a chunk is not empty, no longer than what remains and
than a read, and a discard takes all that remains. -/
def Takes : Read → Option Bytes → Bytes → Bytes → Prop
  | .head, none, piece, stream => piece = [] ∧ stream = []
  | .head, some handed, piece, stream => handed = piece ∧ Http.EndsHead stream piece
  | .body len, handed, piece, _ => handed = some piece ∧ piece.length = len
  | .chunk remaining, handed, piece, _ => handed = some piece ∧ piece.length ≤ remaining
    ∧ piece.length ≤ readChunk ∧ (0 < remaining → piece ≠ [])
  | .discard remaining, handed, piece, _ => handed = none ∧ piece.length = remaining

/-- Calls with what they handed out, from the stream they began with to the one they left. -/
inductive Conserved : Bytes → List (Read × Option Bytes) → Bytes → Prop
  | nil (stream : Bytes) : Conserved stream [] stream
  | cons {read : Read} {handed : Option Bytes} {piece rest stream : Bytes}
      {calls : List (Read × Option Bytes)} (htakes : Takes read handed piece (piece ++ rest))
      (hrest : Conserved rest calls stream) :
      Conserved (piece ++ rest) ((read, handed) :: calls) stream

/-- The pieces that were taken, followed by what is left, are the stream. -/
theorem Conserved.exists_pieces {stream stream' : Bytes} {calls : List (Read × Option Bytes)}
    (h : Conserved stream calls stream') : ∃ pieces : List Bytes, stream = pieces.flatten ++ stream'
      ∧ List.Forall₂ (fun call piece ↦ ∀ bytes, call.2 = some bytes → bytes = piece) calls
        pieces := by
  induction h with
  | nil stream => exact ⟨[], rfl, .nil⟩
  | @cons read handed piece rest stream calls htakes hrest ih =>
    obtain ⟨pieces, rfl, hpieces⟩ := ih
    refine ⟨piece :: pieces, by rw [List.flatten_cons, List.append_assoc], .cons ?_ hpieces⟩
    rintro bytes rfl
    cases read with
    | head => exact htakes.1
    | body len => exact Option.some.inj htakes.1
    | chunk remaining => exact Option.some.inj htakes.1
    | discard remaining => exact absurd htakes.1 (by simp)

/-- One call: its piece comes off the front of the stream. -/
theorem ends_perform (read : Read) (connection : Connection) (site : Site) :
    Ends env (connection.perform read).run (fun result peer _ ↦ ∀ handed connection',
      result = .ok (handed, connection') → ∃ piece,
        connection.stream site.2 = piece ++ connection'.stream peer
          ∧ Takes read handed piece (connection.stream site.2)) site := by
  cases read with
  | head =>
    refine (ends_head connection site).imp ?_
    rintro (error | ⟨_ | head, connection₁⟩) peer world - ⟨-, -, hhead⟩ handed connection' h
    · exact absurd h (by simp)
    · obtain ⟨rfl, rfl⟩ := Prod.mk.inj (Except.ok.inj h)
      exact ⟨[], by rw [hhead.1, hhead.2, List.append_nil], rfl, hhead.1⟩
    · obtain ⟨rfl, rfl⟩ := Prod.mk.inj (Except.ok.inj h)
      obtain ⟨hstream, hlen⟩ := hhead
      have hfront : head <+: connection.stream site.2 := hstream ▸ List.prefix_append _ _
      exact ⟨head, hstream, rfl, Http.endsHead_iff.mpr ⟨hfront, hlen⟩⟩
  | body len =>
    refine Attempt.safe_bind ((ends_body connection len site).imp ?_)
    rintro (error | ⟨bytes, connection₁⟩) peer world - ⟨-, -, hbody⟩
    · exact fun handed connection' h ↦ absurd h (by simp)
    · refine ends_done fun handed connection' h ↦ ?_
      obtain ⟨rfl, rfl⟩ := Prod.mk.inj (Except.ok.inj h)
      exact ⟨bytes, hbody.1, rfl, hbody.2⟩
  | chunk remaining =>
    -- asked for nothing, a chunk reads nothing and is empty
    by_cases hzero : remaining = 0
    · refine Attempt.safe_bind ?_
      rw [chunk, if_pos hzero]
      refine ends_done (ends_done fun handed connection' h ↦ ?_)
      obtain ⟨rfl, rfl⟩ := Prod.mk.inj (Except.ok.inj h)
      exact ⟨[], rfl, rfl, Nat.zero_le _, Nat.zero_le _, fun hpos ↦ absurd hzero hpos.ne'⟩
    · refine Attempt.safe_bind ((ends_chunk connection (Nat.pos_of_ne_zero hzero) site).imp ?_)
      rintro (error | ⟨bytes, connection₁⟩) peer world - ⟨-, -, hchunk⟩
      · exact fun handed connection' h ↦ absurd h (by simp)
      · refine ends_done fun handed connection' h ↦ ?_
        obtain ⟨rfl, rfl⟩ := Prod.mk.inj (Except.ok.inj h)
        obtain ⟨hstream, hnil, hlen, hmost⟩ := hchunk
        exact ⟨bytes, hstream, rfl, hlen, hmost, fun _ ↦ hnil⟩
  | discard remaining =>
    refine Attempt.safe_bind ((ends_discard connection remaining site).imp ?_)
    rintro (error | connection₁) peer world - ⟨-, -, hdiscard⟩
    · exact fun handed connection' h ↦ absurd h (by simp)
    · refine ends_done fun handed connection' h ↦ ?_
      obtain ⟨rfl, rfl⟩ := Prod.mk.inj (Except.ok.inj h)
      obtain ⟨body, hlen, hstream⟩ := hdiscard
      exact ⟨body, hstream, rfl, hlen⟩

theorem ends_performAll (reads : List Read) (connection : Connection) (site : Site) :
    Ends env (connection.performAll reads).run (fun result peer _ ↦ ∀ outs connection',
      result = .ok (outs, connection') → outs.length = reads.length
        ∧ Conserved (connection.stream site.2) (reads.zip outs) (connection'.stream peer))
      site := by
  induction reads generalizing connection site with
  | nil =>
    refine ends_done fun outs connection' h ↦ ?_
    obtain ⟨rfl, rfl⟩ := Prod.mk.inj (Except.ok.inj h)
    exact ⟨rfl, .nil _⟩
  | cons read reads ih =>
    refine Attempt.safe_bind ((ends_perform read connection site).imp ?_)
    rintro (error | ⟨handed, connection₁⟩) peer₁ world₁ - hperform
    · exact fun outs connection' h ↦ absurd h (by simp)
    obtain ⟨piece, hstream, htakes⟩ := hperform handed connection₁ rfl
    refine Attempt.safe_bind ((ih connection₁ (world₁, peer₁)).imp ?_)
    rintro (error | ⟨rest, connection₂⟩) peer₂ world₂ - hrest
    · exact fun outs connection' h ↦ absurd h (by simp)
    obtain ⟨hlength, hconserved⟩ := hrest rest connection₂ rfl
    refine ends_done fun outs connection' h ↦ ?_
    obtain ⟨rfl, rfl⟩ := Prod.mk.inj (Except.ok.inj h)
    refine ⟨congrArg (· + 1) hlength, ?_⟩
    rw [hstream] at htakes ⊢
    exact .cons htakes hconserved

/-! ## The loop over a streamed body -/

/-- The loop over a streamed body: every chunk goes through `f` before the next one is read. With
the result come the chunks, what remained when the loop ended, and the connection. -/
def eachChunk {α ε : Type} (wrap : Error → ε) (f : α → Bytes → Call ε α) (connection : Connection)
    (a : α) (remaining : ℕ) : Call ε (α × List Bytes × ℕ × Connection) :=
  if 0 < remaining then do
    let (chunk, connection) ← (connection.chunk remaining).context wrap
    if _h : chunk = [] then pure (a, [], remaining, connection)
    else do
      let a ← f a chunk
      let (a, chunks, left, connection) ←
        eachChunk wrap f connection a (remaining - chunk.length)
      pure (a, chunk :: chunks, left, connection)
  else pure (a, [], remaining, connection)
termination_by remaining
decreasing_by
  have := List.length_pos_of_ne_nil _h
  omega

/-- The loop of an upload is one. -/
theorem absorbBody_eq [Crates] (upload : Upload Upload.Receiving) (connection : Connection)
    (remaining : ℕ) : Cache.absorbBody upload connection remaining
      = (fun out ↦ (out.1, out.2.2.2)) <$> eachChunk .connection
        (fun (upload : Upload Upload.Receiving) chunk ↦ (upload.write chunk).context .upload)
        connection upload remaining := by
  induction remaining using Nat.strong_induction_on generalizing upload connection with
  | _ remaining ih =>
    rw [Cache.absorbBody, eachChunk]
    by_cases hpos : 0 < remaining
    · rw [if_pos hpos, if_pos hpos, map_bind]
      refine congrArg _ (funext fun out ↦ ?_)
      obtain ⟨chunk, connection'⟩ := out
      by_cases hnil : chunk = []
      · simp only [dif_pos hnil, map_pure]
      · have hlt : remaining - chunk.length < remaining := by
          have := List.length_pos_of_ne_nil hnil
          omega
        simp only [dif_neg hnil, map_bind, map_pure]
        refine congrArg _ (funext fun upload' ↦ ?_)
        rw [ih _ hlt, map_eq_pure_bind]
    · rw [if_neg hpos, if_neg hpos, map_pure]

/-- The chunks of a loop that ends are the next bytes of the stream, as many as there were to read,
and a loop that fails found the stream too short, unless the system or `f` failed. -/
theorem ends_eachChunk {α ε : Type} {wrap : Error → ε} {f : α → Bytes → Call ε α}
    (hf : ∀ a chunk, (f a chunk).run.Uses Op.Local) (a : α) (connection : Connection)
    (remaining : ℕ) (site : Site) :
    Ends env (connection.eachChunk wrap f a remaining).run (fun result peer _ ↦ match result with
      | .ok (_, chunks, left, connection') => left = 0 ∧ chunks.flatten.length = remaining
        ∧ (∀ chunk ∈ chunks, chunk ≠ [] ∧ chunk.length ≤ readChunk)
        ∧ connection.stream site.2 = chunks.flatten ++ connection'.stream peer
      | .error error => env = .hostile
        ∨ error = wrap .truncated ∧ (connection.stream site.2).length < remaining
        ∨ ∃ a chunk site site', (f a chunk).run.Runs (step env) site (.error error) site')
      site := by
  induction remaining using Nat.strong_induction_on generalizing a connection site with
  | _ remaining ih =>
    rw [eachChunk]
    by_cases hpos : 0 < remaining
    · rw [if_pos hpos]
      refine Attempt.safe_bind (Attempt.safe_context
        ((ends_chunk connection hpos site).imp ?_))
      rintro (error | ⟨chunk, connection₁⟩) peer₁ world₁ - ⟨-, -, hchunk⟩
      · refine hchunk.imp_right fun htruncated ↦ .inl ⟨congrArg wrap htruncated.1, ?_⟩
        rwa [htruncated.2]
      obtain ⟨hstream, hnil, hlen, hmost⟩ := hchunk
      have hlength := List.length_pos_of_ne_nil hnil
      dsimp only [Except.mapError]
      rw [dif_neg hnil]
      -- What is done to the chunk leaves the socket alone.
      have hdone : Ends env (f a chunk).run (fun result peer _ ↦ peer = peer₁ ∧ ∀ error,
          result = .error error → ∃ a chunk site site',
            (f a chunk).run.Runs (step env) site (.error error) site') (world₁, peer₁) := by
        refine ends_of_runs fun result site₂ hrun ↦ ⟨?_, ?_⟩
        · exact (ends_local (hf a chunk) (world₁, peer₁)).runs hrun
        · rintro error rfl
          exact ⟨a, chunk, _, site₂, hrun⟩
      refine Attempt.safe_bind (hdone.imp ?_)
      rintro (error | a') peer₂ world₂ - ⟨rfl, hfailed⟩
      · exact .inr (.inr (hfailed error rfl))
      refine Attempt.safe_bind ((ih _ (by omega) a' connection₁ (world₂, peer₂)).imp ?_)
      rintro (error | ⟨a'', chunks, left, connection₂⟩) peer₃ world₃ - hrest
      · refine hrest.imp_right (Or.imp_left fun htruncated ↦ ⟨htruncated.1, ?_⟩)
        have hshort : (connection₁.stream peer₂).length < remaining - chunk.length :=
          htruncated.2
        rw [hstream, List.length_append]
        omega
      · obtain ⟨hleft, htotal, hchunks, hstream'⟩ := hrest
        refine ends_done ⟨hleft, ?_, ?_, ?_⟩
        · rw [List.flatten_cons, List.length_append, htotal]
          omega
        · exact List.forall_mem_cons.mpr ⟨⟨hnil, hmost⟩, hchunks⟩
        · rw [hstream, hstream', List.flatten_cons, List.append_assoc]
    · rw [if_neg hpos]
      exact ends_done ⟨Nat.eq_zero_of_not_pos hpos, (Nat.eq_zero_of_not_pos hpos).symm,
        fun chunk h ↦ absurd h List.not_mem_nil, rfl⟩

theorem ends_absorbBody_stream [Crates] (upload : Upload Upload.Receiving) (connection : Connection)
    (remaining : ℕ) (site : Site) :
    Ends env (Cache.absorbBody upload connection remaining).run (fun result peer _ ↦
      ∀ upload' connection', result = .ok (upload', connection') → ∃ body : Bytes,
        body.length = remaining
          ∧ connection.stream site.2 = body ++ connection'.stream peer) site := by
  have hlocal : ∀ (upload : Upload Upload.Receiving) chunk,
      ((upload.write chunk).context Handler.Error.upload).run.Uses Op.Local :=
    fun upload chunk ↦ Attempt.uses_context (upload.uses_write chunk)
  rw [absorbBody_eq]
  refine Attempt.safe_map ((ends_eachChunk hlocal upload connection remaining site).imp ?_)
  rintro (error | ⟨last, chunks, left, connection₁⟩) peer world - hloop upload' connection' h
  · exact absurd h (by simp [Except.map])
  · obtain ⟨rfl, rfl⟩ := Prod.mk.inj (Except.ok.inj h)
    exact ⟨chunks.flatten, hloop.2.1, hloop.2.2.2⟩

/-! ## Conservation -/

/-- What holds of a connection and of the stream its peer sends, however the stream arrives. -/
structure Conserves (env : Env) (connection : Connection) (site : Site) : Prop where
  /-- Each of any number of calls takes the piece it should off the front of what is left. -/
  calls : ∀ reads outs connection' site',
    (connection.performAll reads).run.Runs (step env) site (.ok (outs, connection')) site' →
      outs.length = reads.length
        ∧ Conserved (connection.stream site.2) (reads.zip outs) (connection'.stream site'.2)
  /-- What was handed out or discarded, then the buffer, then what is unread, is the stream. -/
  whole : ∀ reads outs connection' site',
    (connection.performAll reads).run.Runs (step env) site (.ok (outs, connection')) site' →
      ∃ pieces : List Bytes,
        connection.stream site.2 = pieces.flatten ++ connection'.buffer ++ site'.2.unread
          ∧ List.Forall₂ (fun out piece ↦ ∀ bytes, out = some bytes → bytes = piece) outs pieces
  /-- A loop over a body that ends has taken all of it, in chunks that are not too long. -/
  loop : ∀ {α ε : Type} (wrap : Error → ε) (f : α → Bytes → Call ε α) a remaining a' chunks left
    connection' site', (∀ a chunk, (f a chunk).run.Uses Op.Local) →
    (connection.eachChunk wrap f a remaining).run.Runs (step env) site
      (.ok (a', chunks, left, connection')) site' →
        left = 0 ∧ chunks.flatten.length = remaining
          ∧ (∀ chunk ∈ chunks, chunk ≠ [] ∧ chunk.length ≤ readChunk)
          ∧ connection.stream site.2 = chunks.flatten ++ connection'.stream site'.2
  /-- A loop over a body that fails, where nothing else does, found the stream too short. -/
  truncated : ∀ {α ε : Type} (wrap : Error → ε) (f : α → Bytes → Call ε α) a remaining error site',
    (∀ a chunk, (f a chunk).run.Uses Op.Local) →
    (connection.eachChunk wrap f a remaining).run.Runs (step env) site (.error error) site' →
      env = .hostile
        ∨ error = wrap .truncated ∧ (connection.stream site.2).length < remaining
        ∨ ∃ a chunk site site', (f a chunk).run.Runs (step env) site (.error error) site'
  /-- The loop of an upload that ends has taken its body off the front, and nothing behind it. -/
  upload : ∀ [Crates] (upload : Upload Upload.Receiving) remaining upload' connection' site',
    (Cache.absorbBody upload connection remaining).run.Runs (step env) site
      (.ok (upload', connection')) site' →
        ∃ body : Bytes, body.length = remaining
          ∧ connection.stream site.2 = body ++ connection'.stream site'.2

/-- Nothing a peer sends is lost, handed out twice or moved. -/
theorem conserves (env : Env) (connection : Connection) (site : Site) :
    Conserves env connection site where
  calls reads outs connection' site' hrun :=
    (ends_performAll reads connection site).runs hrun outs connection' rfl
  whole reads outs connection' site' hrun := by
    obtain ⟨hlength, hconserved⟩ :=
      (ends_performAll reads connection site).runs hrun outs connection' rfl
    obtain ⟨pieces, hstream, hpieces⟩ := hconserved.exists_pieces
    refine ⟨pieces, by rw [hstream, stream, List.append_assoc], ?_⟩
    have hsnd : (reads.zip outs).map Prod.snd = outs := List.map_snd_zip hlength.le
    rw [← hsnd, List.forall₂_map_left_iff]
    exact hpieces
  loop wrap f a remaining a' chunks left connection' site' hf hrun :=
    (ends_eachChunk hf a connection remaining site).runs hrun
  truncated wrap f a remaining error site' hf hrun :=
    (ends_eachChunk hf a connection remaining site).runs hrun
  upload upload remaining upload' connection' site' hrun :=
    (ends_absorbBody_stream upload connection remaining site).runs hrun upload' connection' rfl

end Connection

end Bincache
