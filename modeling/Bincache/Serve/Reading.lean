import Bincache.Serve.Connection

/-!
# What a connection reads and writes

The stream of a connection is what it has buffered followed by what the peer has sent and nobody
read. Every read takes its bytes off the front of the stream and leaves the rest in order, however
the bytes arrive; nothing here touches the world.
-/

namespace Bincache

variable {env : Env}

namespace Http

theorem headLen_bounds {buffer : Bytes} {len : ℕ} (h : headLen buffer = some len) :
    headEnd.length ≤ len ∧ len ≤ buffer.length := by
  induction buffer generalizing len with
  | nil => exact absurd h (by simp [headLen])
  | cons byte buffer ih =>
    rw [headLen] at h
    split at h
    · next hbegins =>
      obtain rfl := Option.some.inj h
      exact ⟨le_rfl, hbegins.length_le⟩
    · obtain ⟨n, hn, rfl⟩ := Option.map_eq_some_iff.mp h
      have := ih hn
      rw [List.length_cons]
      omega

/-- A blank line that is there stays the first one, whatever arrives after it. -/
theorem headLen_append_of_some {buffer : Bytes} {len : ℕ} (h : headLen buffer = some len)
    (more : Bytes) : headLen (buffer ++ more) = some len := by
  induction buffer generalizing len with
  | nil => exact absurd h (by simp [headLen])
  | cons byte buffer ih =>
    rw [headLen] at h
    rw [List.cons_append, headLen]
    split at h
    · next hbegins =>
      have hlonger : headEnd <+: byte :: (buffer ++ more) :=
        hbegins.trans (List.prefix_append (byte :: buffer) more)
      rw [if_pos hlonger]
      exact h
    · next hbegins =>
      obtain ⟨n, hn, rfl⟩ := Option.map_eq_some_iff.mp h
      rw [if_neg, ih hn]
      · rfl
      · intro hlonger
        refine hbegins (List.prefix_of_prefix_length_le hlonger
          (List.prefix_append (byte :: buffer) more) ?_)
        have := headLen_bounds hn
        rw [List.length_cons]
        omega

theorem headLen_of_append {buffer more : Bytes} {len : ℕ} (h : headLen (buffer ++ more) = some len)
    (hlen : len ≤ buffer.length) : headLen buffer = some len := by
  induction buffer generalizing len with
  | nil =>
    have := (headLen_bounds h).1
    rw [List.length_nil] at hlen
    exact absurd (this.trans hlen) (by decide)
  | cons byte buffer ih =>
    rw [List.cons_append, headLen] at h
    rw [headLen]
    by_cases hbegins : headEnd <+: byte :: (buffer ++ more)
    · rw [if_pos hbegins] at h
      have hshort : headEnd.length ≤ (byte :: buffer).length := Option.some.inj h ▸ hlen
      rw [if_pos]
      · exact h
      · exact List.prefix_of_prefix_length_le hbegins
          (List.prefix_append (byte :: buffer) more) hshort
    · rw [if_neg hbegins] at h
      obtain ⟨n, hn, rfl⟩ := Option.map_eq_some_iff.mp h
      rw [if_neg, ih hn (by rw [List.length_cons] at hlen; omega)]
      · rfl
      · exact fun hstart ↦ hbegins (hstart.trans (List.prefix_append (byte :: buffer) more))

/-- `head` is the front of a stream up to and including its first blank line. -/
structure EndsHead (stream head : Bytes) : Prop where
  front : head <+: stream
  blank : headEnd <:+ head
  first : ∀ shorter, shorter <+: stream → headEnd <:+ shorter → head.length ≤ shorter.length

theorem EndsHead.unique {stream head head' : Bytes} (h : EndsHead stream head)
    (h' : EndsHead stream head') : head = head' := by
  have hlength := Nat.le_antisymm (h.first head' h'.front h'.blank) (h'.first head h.front h.blank)
  exact (List.prefix_of_prefix_length_le h.front h'.front hlength.le).eq_of_length hlength

theorem endsHead_of_headLen {stream : Bytes} {len : ℕ} (h : headLen stream = some len) :
    EndsHead stream (stream.take len) := by
  induction stream generalizing len with
  | nil => exact absurd h (by simp [headLen])
  | cons byte stream ih =>
    rw [headLen] at h
    by_cases hbegins : headEnd <+: byte :: stream
    · rw [if_pos hbegins] at h
      obtain rfl := Option.some.inj h
      rw [← List.prefix_iff_eq_take.mp hbegins]
      exact ⟨hbegins, List.suffix_refl _, fun _ _ hblank ↦ hblank.length_le⟩
    · rw [if_neg hbegins] at h
      obtain ⟨n, hn, rfl⟩ := Option.map_eq_some_iff.mp h
      obtain ⟨hfront, hblank, hfirst⟩ := ih hn
      rw [List.take_succ_cons]
      refine ⟨(List.prefix_cons_inj byte).mpr hfront, hblank.trans (List.suffix_cons _ _),
        fun shorter hshorter hend ↦ ?_⟩
      rcases shorter with _ | ⟨byte', shorter⟩
      · exact absurd (List.suffix_nil.mp hend) (by decide)
      obtain ⟨rfl, htail⟩ := List.cons_prefix_cons.mp hshorter
      -- The blank line ends after the first byte, because none begins there.
      obtain heq | hend := List.suffix_cons_iff.mp hend
      · refine absurd ?_ hbegins
        rwa [heq]
      · rw [List.length_cons, List.length_cons]
        exact Nat.succ_le_succ (hfirst shorter htail hend)

theorem headLen_of_endsHead {stream head : Bytes} (h : EndsHead stream head) :
    headLen stream = some head.length := by
  cases hlen : headLen stream with
  | some len =>
    rw [h.unique (endsHead_of_headLen hlen), List.length_take,
      min_eq_left (headLen_bounds hlen).2]
  | none =>
    obtain ⟨rest, rfl⟩ := h.front
    obtain ⟨line, rfl⟩ := h.blank
    exfalso
    clear h
    induction line with
    | nil =>
      rw [List.nil_append] at hlen
      exact absurd hlen (by simp [headLen, headEnd])
    | cons byte line ih =>
      rw [List.cons_append, List.cons_append, headLen] at hlen
      split at hlen
      · exact absurd hlen (by simp)
      · exact ih (Option.map_eq_none_iff.mp hlen)

theorem endsHead_iff {stream head : Bytes} :
    EndsHead stream head ↔ head <+: stream ∧ headLen stream = some head.length := by
  constructor
  · exact fun h ↦ ⟨h.front, headLen_of_endsHead h⟩
  · rintro ⟨hfront, hlen⟩
    rw [List.prefix_iff_eq_take.mp hfront]
    exact endsHead_of_headLen hlen

end Http

namespace Connection

/-- What a request has yet to read: the buffered bytes, then the unread ones. -/
def stream (connection : Connection) (peer : Peer) : Bytes := connection.buffer ++ peer.unread

theorem ends_recv (site : Site) : Ends env recv.run (fun result peer world ↦
    world = site.1 ∧ peer.written = site.2.written ∧ match result with
    | .ok bytes => site.2.unread = bytes ++ peer.unread ∧ (bytes = [] → site.2.unread = [])
    | .error _ => env = .hostile) site := by
  refine Attempt.safe_context (ends_call fun answer site' hop ↦ ends_done ?_)
  obtain ⟨henv, rfl, rfl⟩ | ⟨count, rfl, rfl⟩ := of_step_recv hop
  · exact ⟨rfl, rfl, henv⟩
  · refine ⟨rfl, rfl, (List.take_append_drop _ _).symm, fun h ↦ ?_⟩
    rw [List.take_eq_nil_iff] at h
    exact h.resolve_left (Nat.succ_ne_zero count)

theorem ends_send (bytes : Bytes) (site : Site) : Ends env (send bytes).run (fun result peer world ↦
    world = site.1 ∧ peer.unread = site.2.unread ∧ match result with
    | .ok _ => peer.written = site.2.written ++ bytes
    | .error _ => env = .hostile ∧ ∃ count, peer.written = site.2.written ++ bytes.take count)
    site := by
  refine Attempt.safe_context (ends_call fun answer site' hop ↦ ends_done ?_)
  obtain ⟨henv, rfl, count, rfl⟩ | ⟨rfl, rfl⟩ := of_step_send hop
  · exact ⟨rfl, rfl, henv, count, rfl⟩
  · exact ⟨rfl, rfl, rfl⟩

/-- A head is the stream up to its first blank line. -/
theorem ends_head (connection : Connection) (site : Site) :
    Ends env connection.head.run (fun result peer world ↦
      world = site.1 ∧ peer.written = site.2.written ∧ match result with
      | .ok (some head, connection') =>
        connection.stream site.2 = head ++ connection'.stream peer
          ∧ Http.headLen (connection.stream site.2) = some head.length
      | .ok (none, connection') => connection.stream site.2 = [] ∧ connection'.stream peer = []
      | .error error => env = .hostile
        ∨ error = .truncated ∧ connection.stream site.2 ≠ []
          ∧ (connection.stream site.2).length ≤ Http.headLenMax
          ∧ Http.headLen (connection.stream site.2) = none
        ∨ error = .headTooLong ∧ Http.headLenMax < (connection.stream site.2).length
          ∧ ∀ len, Http.headLen (connection.stream site.2) = some len →
            Http.headLenMax < len) site := by
  -- each round reads at least one byte, and the buffer is at most one byte over the limit
  induction hn : Http.headLenMax + 1 - connection.buffer.length using Nat.strong_induction_on
    generalizing connection site with
  | _ n ih =>
    rw [head]
    split
    · next len hlen =>
      refine ends_done ⟨rfl, rfl, ?_, ?_⟩
      · rw [stream, stream, ← List.append_assoc, List.take_append_drop]
      · rw [stream, Http.headLen_append_of_some hlen, List.length_take,
          min_eq_left (Http.headLen_bounds hlen).2]
    · next hnone =>
      split
      · next hlong =>
        refine Attempt.safe_bind ((ends_recv site).imp ?_)
        rintro (error | read) peer world - ⟨rfl, hwritten, hread⟩
        · exact ⟨rfl, hwritten, .inl hread⟩
        dsimp only
        split
        · next hnil =>
          have hstream : connection.stream site.2 = connection.buffer := by
            rw [stream, hread.2 hnil, List.append_nil]
          split
          · next hbuffer =>
            have hleft : peer.unread = [] := (List.append_eq_nil_iff.mp
              (hread.1.symm.trans (hread.2 hnil))).2
            refine ends_done ⟨rfl, hwritten, hstream.trans hbuffer, ?_⟩
            rw [stream, hbuffer, hleft, List.append_nil]
          · next hbuffer =>
            refine ends_done ⟨rfl, hwritten, .inr (.inl ?_)⟩
            rw [hstream]
            exact ⟨rfl, hbuffer, hlong, hnone⟩
        · next hnil =>
          have hpos := List.length_pos_of_ne_nil hnil
          have hstream : stream ⟨connection.buffer ++ read⟩ peer = connection.stream site.2 := by
            rw [stream, stream, hread.1, List.append_assoc]
          have hlt : Http.headLenMax + 1 - (connection.buffer ++ read).length < n := by
            rw [← hn, List.length_append]
            omega
          refine (ih _ hlt ⟨connection.buffer ++ read⟩ (site.1, peer) rfl).imp ?_
          rintro result peer' world - ⟨rfl, hwritten', hresult⟩
          rw [hstream] at hresult
          exact ⟨rfl, hwritten'.trans hwritten, hresult⟩
      · next hshort =>
        refine ends_done ⟨rfl, rfl, .inr (.inr ⟨rfl, ?_, fun len hlen ↦ ?_⟩)⟩
        · rw [stream, List.length_append]
          omega
        · -- a head within the limit would be in the buffer already
          by_contra hle
          have hbuffer := Http.headLen_of_append hlen (by omega)
          exact absurd (hnone.symm.trans hbuffer) (by simp)

theorem ends_body (connection : Connection) (len : ℕ) (site : Site) :
    Ends env (connection.body len).run (fun result peer world ↦
      world = site.1 ∧ peer.written = site.2.written ∧ match result with
      | .ok (bytes, connection') =>
        connection.stream site.2 = bytes ++ connection'.stream peer ∧ bytes.length = len
      | .error error => env = .hostile
        ∨ error = .truncated ∧ (connection.stream site.2).length < len) site := by
  induction hn : len - connection.buffer.length using Nat.strong_induction_on
    generalizing connection site with
  | _ n ih =>
    rw [body]
    split
    · next hshort =>
      refine Attempt.safe_bind ((ends_recv site).imp ?_)
      rintro (error | read) peer world - ⟨rfl, hwritten, hread⟩
      · exact ⟨rfl, hwritten, .inl hread⟩
      dsimp only
      split
      · next hnil =>
        refine ends_done ⟨rfl, hwritten, .inr ⟨rfl, ?_⟩⟩
        rwa [stream, hread.2 hnil, List.append_nil]
      · next hnil =>
        have hpos := List.length_pos_of_ne_nil hnil
        have hstream : stream ⟨connection.buffer ++ read⟩ peer = connection.stream site.2 := by
          rw [stream, stream, hread.1, List.append_assoc]
        have hlt : len - (connection.buffer ++ read).length < n := by
          rw [← hn, List.length_append]
          omega
        refine (ih _ hlt ⟨connection.buffer ++ read⟩ (site.1, peer) rfl).imp ?_
        rintro result peer' world - ⟨rfl, hwritten', hresult⟩
        rw [hstream] at hresult
        exact ⟨rfl, hwritten'.trans hwritten, hresult⟩
    · next hlong =>
      refine ends_done ⟨rfl, rfl, ?_, ?_⟩
      · rw [stream, stream, ← List.append_assoc, List.take_append_drop]
      · rw [List.length_take, min_eq_left (Nat.le_of_not_lt hlong)]

theorem ends_fill (connection : Connection) (site : Site) :
    Ends env connection.fill.run (fun result peer world ↦
      world = site.1 ∧ peer.written = site.2.written ∧ match result with
      | .ok connection' => connection.stream site.2 = connection'.stream peer
        ∧ connection'.buffer ≠ []
      | .error error => env = .hostile
        ∨ error = .truncated ∧ connection.stream site.2 = []) site := by
  rw [fill]
  split
  · next hnil =>
    have hstream : connection.stream site.2 = site.2.unread := by
      rw [stream, hnil, List.nil_append]
    refine Attempt.safe_bind ((ends_recv site).imp ?_)
    rintro (error | read) peer world - ⟨rfl, hwritten, hread⟩
    · exact ⟨rfl, hwritten, .inl hread⟩
    dsimp only
    split
    · next hread' =>
      refine ends_done ⟨rfl, hwritten, .inr ⟨rfl, ?_⟩⟩
      rw [hstream, hread.2 hread']
    · next hread' =>
      refine ends_done ⟨rfl, hwritten, ?_, hread'⟩
      rw [hstream, stream, hread.1]
  · next hnil => exact ends_done ⟨rfl, rfl, rfl, hnil⟩

/-- A chunk is a nonempty piece of what remains of a body. -/
theorem ends_chunk (connection : Connection) {remaining : ℕ} (hremaining : 0 < remaining)
    (site : Site) : Ends env (connection.chunk remaining).run (fun result peer world ↦
      world = site.1 ∧ peer.written = site.2.written ∧ match result with
      | .ok (bytes, connection') => connection.stream site.2 = bytes ++ connection'.stream peer
        ∧ bytes ≠ [] ∧ bytes.length ≤ remaining ∧ bytes.length ≤ readChunk
      | .error error => env = .hostile
        ∨ error = .truncated ∧ connection.stream site.2 = []) site := by
  rw [chunk, if_neg (Nat.pos_iff_ne_zero.mp hremaining)]
  refine Attempt.safe_bind ((ends_fill connection site).imp ?_)
  rintro (error | connection') peer world - ⟨rfl, hwritten, hfill⟩
  · exact ⟨rfl, hwritten, hfill⟩
  obtain ⟨hstream, hnil⟩ := hfill
  have hpos := List.length_pos_of_ne_nil hnil
  have hchunk : 0 < readChunk := by decide
  refine ends_done ⟨rfl, hwritten, ?_, ?_, ?_, ?_⟩
  · rw [hstream, stream, stream, ← List.append_assoc, List.take_append_drop]
  · rw [Ne, List.take_eq_nil_iff, not_or]
    exact ⟨by omega, hnil⟩
  · rw [List.length_take]
    omega
  · rw [List.length_take]
    omega

theorem ends_discard (connection : Connection) (remaining : ℕ) (site : Site) :
    Ends env (connection.discard remaining).run (fun result peer world ↦
      world = site.1 ∧ peer.written = site.2.written ∧ match result with
      | .ok connection' => ∃ body : Bytes, body.length = remaining
        ∧ connection.stream site.2 = body ++ connection'.stream peer
      | .error error => env = .hostile
        ∨ error = .truncated ∧ (connection.stream site.2).length < remaining) site := by
  induction remaining using Nat.strong_induction_on generalizing connection site with
  | _ remaining ih =>
    rw [discard]
    split
    · next hpos =>
      refine Attempt.safe_bind ((ends_chunk connection hpos site).imp ?_)
      rintro (error | ⟨bytes, connection'⟩) peer world - ⟨rfl, hwritten, hchunk⟩
      · refine ⟨rfl, hwritten, hchunk.imp_right fun htruncated ↦ ⟨htruncated.1, ?_⟩⟩
        rwa [htruncated.2]
      obtain ⟨hstream, hnil, hlen, -⟩ := hchunk
      have hlength := List.length_pos_of_ne_nil hnil
      dsimp only
      rw [dif_neg hnil]
      refine (ih _ (by omega) connection' (site.1, peer)).imp ?_
      rintro (error | connection'') peer' world - ⟨rfl, hwritten', hrest⟩
      · refine ⟨rfl, hwritten'.trans hwritten, hrest.imp_right fun htruncated ↦ ?_⟩
        have hshort : (connection'.stream peer).length < remaining - bytes.length := htruncated.2
        refine ⟨htruncated.1, ?_⟩
        rw [hstream, List.length_append]
        omega
      · obtain ⟨body, hbody, hstream'⟩ := hrest
        refine ⟨rfl, hwritten'.trans hwritten, bytes ++ body, ?_, ?_⟩
        · rw [List.length_append, hbody]
          omega
        · rw [hstream, hstream', List.append_assoc]
    · next hzero => exact ends_done ⟨rfl, rfl, [], (Nat.eq_zero_of_not_pos hzero).symm, rfl⟩

end Connection

end Bincache
