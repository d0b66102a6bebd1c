import Bincache.Pull
import Bincache.Reads
import Bincache.Recovery
import Bincache.Serve.Heads
import Bincache.Serve.Spans

/-!
# Downloads that are interrupted

A client that lost its connection asks for what it does not have yet, with `bytes=k-`. Nothing says
that the answer comes from the connection, the server or the life of the cache the first bytes came
from, and uploads of the same NAR come and go in between. What the client has is still the beginning
of the one artifact that the URL is the digest of, whatever becomes of its attempts; and an attempt
that is answered to the end completes it.
-/

namespace Bincache

/-! ## What reaches the client -/

/-- What was said is not taken back. -/
theorem written_of_step {env : Env} {op : Op} {world : World} {peer : Peer} {site : Site}
    {answer : Ans op} (h : step env op (world, peer) answer site) :
    peer.written <+: site.2.written := by
  by_cases hlocal : op.Local
  · rw [peer_of_local hlocal h]
  cases op with
  | recv =>
    obtain ⟨-, -, rfl⟩ | ⟨count, -, rfl⟩ := of_step_recv h
    · exact List.prefix_refl _
    · exact List.prefix_refl _
  | send bytes =>
    obtain ⟨-, -, count, rfl⟩ | ⟨-, rfl⟩ := of_step_send h
    · exact List.prefix_append _ _
    · exact List.prefix_append _ _
  | _ => exact absurd trivial hlocal

namespace Response

/-- What follows the first blank line. -/
def bodyOf (said : Bytes) : Bytes :=
  match Http.headLen said with
  | none => []
  | some len => said.drop len

theorem bodyOf_isPrefix {message : Message} (hfinal : message.reply.Final) {said : Bytes}
    (h : said <+: message.bytes) : bodyOf said <+: message.body := by
  obtain ⟨more, hmore⟩ := h
  rw [bodyOf]
  split
  · exact List.nil_prefix
  · next len hlen =>
    have hhead : some len = some message.reply.head.length := by
      rw [← Http.headLen_append_of_some hlen more, hmore, Message.bytes]
      exact Reply.headLen_head hfinal _
    refine ⟨more, ?_⟩
    rw [← List.drop_append_of_le_length (Http.headLen_bounds hlen).2, hmore,
      Option.some.inj hhead, Message.bytes, List.drop_left]

theorem bodyOf_head {reply : Reply} (hfinal : reply.Final) (part : Bytes) :
    bodyOf (reply.head ++ part) = part := by
  rw [bodyOf, Reply.headLen_head hfinal]
  exact List.drop_left

end Response

/-! ## Asking for the rest -/

def Range.onward (k : ℕ) : Option Text :=
  if k = 0 then none else some ("bytes=".toList ++ Text.decimal k ++ ['-'])

theorem Range.plain_onward (k : ℕ) : ∀ c ∈ "bytes=".toList ++ Text.decimal k ++ ['-'],
    Text.isWhiteSpace c = false := by
  simp only [List.mem_append, List.mem_singleton]
  rintro c ((hc | hc) | rfl)
  · have hletters : ∀ c ∈ "bytes=".toList, Text.isWhiteSpace c = false :=
      List.all_iff_forall_prop.mp (by decide)
    exact hletters c hc
  · exact Text.isWhiteSpace_of_isDigit (Text.isDigit_of_mem_decimal hc)
  · decide

theorem Range.means_onward {k : ℕ} (hk : k < 2 ^ 64) :
    Means ("bytes=".toList ++ Text.decimal k ++ ['-']) (.onward k) := by
  refine ⟨Text.decimal k ++ ['-'], ?_, .onward (Text.digits_decimal hk)⟩
  rw [Text.trim_eq_self (Text.trimmed_of_forall (plain_onward k)), List.append_assoc]

def Http.Request.onward (url : NarUrl) (k : ℕ) : Http.Request :=
  ⟨.get, '/' :: url.url, .empty, .keep, .none, Range.onward k, none⟩

theorem Http.Request.sayable_onward (url : NarUrl) (k : ℕ) : (onward url k).Sayable := by
  have halphabet : ∀ d < 32, Base32.alphabet.getD d '0' ≠ ' '
      ∧ Base32.alphabet.getD d '0' ≠ '\r' := by decide
  have hplain : ∀ c ∈ '/' :: url.url, c ≠ ' ' ∧ c ≠ '\r' := by
    have hopening : ∀ c ∈ '/' :: NarUrl.pathPrefix, c ≠ ' ' ∧ c ≠ '\r' :=
      List.all_iff_forall_prop.mp (by decide)
    have hextension : ∀ c ∈ url.compression.extension, c ≠ ' ' ∧ c ≠ '\r' := by
      exact List.all_iff_forall_prop.mp (by cases url.compression <;> decide)
    refine List.forall_mem_append.mpr ⟨hopening, ?_⟩
    refine List.forall_mem_append.mpr ⟨List.forall_mem_append.mpr ⟨fun c hc ↦ ?_, ?_⟩, hextension⟩
    · obtain ⟨d, hd, rfl⟩ := Base32.encode_mem hc
      exact halphabet d hd
    · exact List.all_iff_forall_prop.mp (by decide)
  refine ⟨⟨fun hspace ↦ (hplain _ hspace).1 rfl, fun hbreak ↦ ?_⟩,
    fun n hn ↦ absurd hn Http.Framing.noConfusion, fun value hvalue ↦ ?_⟩
  · exact (hplain _ (hbreak.subset List.mem_cons_self)).2 rfl
  · have hrange : Range.onward k = some value := hvalue.resolve_right fun h ↦ nomatch h
    rw [Range.onward] at hrange
    split at hrange
    · cases hrange
    obtain rfl := Option.some.inj hrange
    have hplain := Range.plain_onward k
    refine ⟨Text.trimmed_of_forall hplain, fun hbreak ↦ ?_⟩
    exact absurd (hplain _ (hbreak.subset List.mem_cons_self)) (by decide)

namespace Cache

open Handler Response

variable {exchange : Exchange} {url : NarUrl} {k : ℕ}

/-- A client asks for an artifact from its byte `k` on. -/
structure AsksRest (exchange : Exchange) (url : NarUrl) (k : ℕ) : Prop where
  method : exchange.request.method = .get
  framing : exchange.request.framing ≠ .chunked
  target : exchange.request.target = '/' :: url.url
  range : exchange.request.range = Range.onward k

theorem asksRest_onward (shard : ℕ) (connection : Connection) (url : NarUrl) (k : ℕ) :
    AsksRest ⟨shard, connection, .onward url k⟩ url k :=
  ⟨rfl, Http.Framing.noConfusion, rfl, rfl⟩

/-- It is answered with what follows, also where nothing does. -/
theorem body_streamMessage {data : Bytes} (hk : k ≤ data.length) (hlt : data.length < 2 ^ 64)
    (hrange : exchange.request.range = Range.onward k) :
    (streamMessage exchange (some (.of data))).body = data.drop k := by
  have hsize : (File.of data).size = data.length := rfl
  rw [streamMessage, hsize]
  split
  · next hempty =>
    rw [List.drop_of_length_le (by omega)]
    rfl
  next hpos =>
  have hspan : ∀ n, n ≤ data.length →
      (data.drop n).take (⟨n, data.length - 1⟩ : Range.Span).len = data.drop n := by
    intro n hn
    refine List.take_of_length_le ?_
    rw [List.length_drop, Range.Span.len]
    dsimp only
    omega
  rw [hrange, Range.onward]
  by_cases hzero : k = 0
  · subst hzero
    exact hspan 0 (Nat.zero_le _)
  rw [if_neg hzero, wantedSpan, Range.resolve_of_means (by omega) (Range.means_onward (by omega)),
    Range.Spec.select]
  by_cases hend : data.length ≤ k
  · rw [if_pos hend, List.drop_of_length_le hend]
    rfl
  · rw [if_neg hend]
    exact hspan k hk

/-- The message has what follows the first `k` bytes of a file, and nothing if there is no file. -/
structure Resumes (file : Option File) (k : ℕ) (message : Message) : Prop where
  final : message.reply.Final
  missing : file = none → message.body = []
  rest : ∀ data : Bytes, file = some (.of data) → k ≤ data.length → data.length < 2 ^ 64 →
    message.body = data.drop k

theorem AsksRest.resumes [Crates] (h : AsksRest exchange url k) (cache : Cache) (world : World) :
    Resumes (world.fs.lookup (Store.path url)) k (readMessage cache exchange world) := by
  have hmessage : readMessage cache exchange world
      = streamMessage exchange (world.fs.lookup (Store.path url)) := by
    rw [readMessage, if_neg h.framing, h.target, Route.resolve_url]
    refine if_neg ?_
    rw [h.method]
    exact Http.Method.noConfusion
  refine ⟨final_readMessage world, fun hnone ↦ ?_, fun data hfile hk hlt ↦ ?_⟩
  · rw [hmessage, hnone]
    rfl
  · rw [hmessage, hfile]
    exact body_streamMessage hk hlt h.range

end Cache

namespace Shared

open Cache Response

variable {ι : Type} [DecidableEq ι] [Crates] {contents : Set Bytes} {dir : Dir} {i : ι}
  {key : SecretKey} {α : Type}

omit [DecidableEq ι] [Crates] in
/-- A program that renames nothing can run to its end from anywhere, without a failure. -/
theorem exists_runs_of_commits {allowed : Op → Prop} {program : Program Ans α}
    (h : program.Uses allowed) (hcommits : ∀ op, allowed op → ∀ fs, Commits contents fs op)
    (s : Shared ι) (peer : Peer) : ∃ value s' peer',
      program.Runs (step .fair contents key i) (s, peer) value (s', peer') := by
  have htotal : ∀ op : Op, allowed op → ∀ site : Shared ι × Peer, ∃ answer site',
      step .fair contents key i op site answer site' := by
    intro op hop site
    obtain ⟨answer, ⟨world, peer⟩, hstep⟩ := exists_step_fair op (site.1.1, site.2)
    exact ⟨answer, ((world, site.1.2.track key i op answer), peer), hstep, rfl, hcommits op hop _⟩
  obtain ⟨value, ⟨s', peer'⟩, hrun⟩ := h.exists_runs htotal (s, peer)
  exact ⟨value, s', peer', hrun⟩

omit [DecidableEq ι] [Crates] in
theorem commits_of_quiet {op : Op} (h : op.Quiet) (fs : FileSystem) : Commits contents fs op := by
  cases op with
  | file op =>
    cases op with
    | rename path target => exact h.elim
    | _ => trivial
  | _ => trivial

omit [DecidableEq ι] [Crates] in
theorem commits_of_starting {op : Op} (h : op.Starting) (fs : FileSystem) :
    Commits contents fs op := by
  cases op with
  | file op =>
    cases op with
    | rename path target => exact h.elim
    | _ => trivial
  | _ => trivial

omit [DecidableEq ι] [Crates] in
theorem runs_hostile_of_fair {program : Program Ans α} {s s' : Shared ι} {peer peer' : Peer}
    {value : α} (h : program.Runs (step .fair contents key i) (s, peer) value (s', peer')) :
    program.Runs (step .hostile contents key i) (s, peer) value (s', peer') :=
  h.mono fun _ _ _ _ hop ↦ ⟨step_hostile_of_fair hop.1, hop.2⟩

omit [DecidableEq ι] [Crates] in
theorem runs_of_shared {env : Env} {program : Program Ans α} {s s' : Shared ι}
    {peer peer' : Peer} {value : α}
    (h : program.Runs (step env contents key i) (s, peer) value (s', peer')) :
    program.Runs (Bincache.step env) (s.1, peer) value (s'.1, peer') :=
  Program.Runs.map (f := fun site : Shared ι × Peer ↦ (site.1.1, site.2))
    (fun _ _ _ _ hop ↦ hop.1) h

omit [DecidableEq ι] [Crates] in
/-- A program that changes nothing leaves the state, and takes nothing back. -/
theorem same_of_runs {program : Program Ans α} (h : program.Uses Op.Quiet) {s s' : Shared ι}
    {peer peer' : Peer} {value : α}
    (hrun : program.Runs (step .hostile contents key i) (s, peer) value (s', peer')) :
    Same s s' ∧ peer.written <+: peer'.written := by
  let inv : Shared ι × Peer → Prop := fun site ↦ Same s site.1 ∧ peer.written <+: site.2.written
  have hinv : ∀ op site answer site', op.Quiet → inv site →
      step .hostile contents key i op site answer site' → inv site' := by
    rintro op site answer site' hquiet ⟨hsame, hopening⟩ hop
    exact ⟨hsame.trans (same_of_quiet hquiet hop), hopening.trans (written_of_step hop.1)⟩
  have hend : inv (s', peer') := h.runs hinv ⟨same_refl s, List.prefix_refl _⟩ hrun
  exact hend

/-! ## One attempt -/

variable {start system : System ι (Shared ι)} {url : NarUrl} {k : ℕ} {answer : Bytes}
  {rest : Program Ans (Except Handler.Error (Http.KeepAlive × Connection))}

/-- Since it was asked for what follows the first `k` bytes of an artifact, a server has said
`answer`, and this much is left to do. -/
def Answering (contents : Set Bytes) (url : NarUrl) (k : ℕ) (start : System ι (Shared ι))
    (rest : Program Ans (Except Handler.Error (Http.KeepAlive × Connection)))
    (system : System ι (Shared ι)) (answer : Bytes) : Prop :=
  ∃ i server peer exchange g past, start.server = some server ∧ AsksRest exchange url k
    ∧ server.threads i = (peer, (server.cache.handle exchange).run >>= g)
    ∧ System.Handles (machine contents) i g (server.cache.handle exchange).run start past rest
      system
    ∧ ∃ server' peer', system.server = some server' ∧ server'.threads i = (peer', rest >>= g)
      ∧ peer'.written = peer.written ++ answer

theorem Answering.steps (h : Answering contents url k start rest system answer) (dir : Dir) :
    System.Steps (machine contents) dir start system := by
  obtain ⟨i, server, peer, exchange, g, past, -, -, -, hhandles, -⟩ := h
  exact System.steps_of_amid dir hhandles.amid

/-- A client that asks for the rest of an artifact is answered out of a file that was there at some
point, and that stays from then on. -/
theorem Answering.resumes (hfree : Crates.CollisionFree contents)
    (hsteps : System.Steps (machine contents) dir ⟨blank, none⟩ start)
    (h : Answering contents url k start rest system answer) : ∃ file message,
      Resumes file k message ∧ answer <+: message.bytes
        ∧ (∀ value, rest = .done (.ok value) → answer = message.bytes)
        ∧ ((start.shared.view.artifact url).isSome → file = start.shared.view.artifact url)
        ∧ (file.isSome → file = system.shared.view.artifact url) := by
  obtain ⟨i, server, peer, exchange, g, past, hserver, hasks, hthread, hhandles, server', peer',
    hserver', hthread', hwritten⟩ := h
  obtain ⟨s, _⟩ := start
  obtain ⟨s', _⟩ := system
  dsimp only at hserver hserver' ⊢
  subst hserver hserver'
  -- let the server come to the end of the answer, which changes nothing
  have hquiet : rest.Uses Op.Quiet := hhandles.uses <| quiet_handle _ fun hput ↦ by
    rw [hasks.method] at hput
    exact absurd hput Http.Method.noConfusion
  obtain ⟨result, s'', peer'', hfair⟩ :=
    exists_runs_of_commits hquiet (fun _ ↦ commits_of_quiet) s' peer'
  have hrun := runs_hostile_of_fair hfair
  obtain ⟨hsame, hopening⟩ := same_of_runs hquiet hrun
  obtain ⟨more, hdone⟩ := hhandles.runs hthread' hrun
  obtain ⟨server'', _, hserver'', hthread'', mid, hmoment, hhears⟩ :=
    hears_of_handles hsteps (by rw [hasks.method]; exact Http.Method.noConfusion)
      (by rw [hasks.target, Route.resolve_url]; exact fun h ↦ Route.noConfusion (Except.ok.inj h))
      hthread hdone
  obtain rfl := Option.some.inj hserver''
  dsimp only at hthread''
  rw [Function.update_self] at hthread''
  obtain ⟨rfl, -⟩ := Prod.mk.inj hthread''
  obtain ⟨hmid, hlater⟩ := hdone.course.between hmoment
  have hreached := hsteps.trans (System.steps_of_amid dir hmid)
  have hgrows := grows_of_steps hfree hsteps (System.steps_of_amid dir hmid)
  have hgrows' := grows_of_steps hfree hreached (System.steps_of_amid dir hlater)
  have hmessage : Resumes (mid.shared.view.artifact url) k
      (readMessage server.cache exchange (mid.shared.1.bump exchange.shard .requests 1)) := by
    rw [artifact_view]
    exact hasks.resumes server.cache (mid.shared.1.bump exchange.shard .requests 1)
  refine ⟨_, _, hmessage, ?_, ?_, fun hsome ↦ ?_, fun hsome ↦ ?_⟩
  · rw [← List.prefix_append_right_inj peer.written, ← hwritten]
    refine hopening.trans ?_
    obtain ⟨-, hresult⟩ := hhears
    rcases result with error | ⟨keepAlive, connection⟩
    · obtain ⟨said, hsaid, hpeer⟩ := hresult
      rw [hpeer]
      exact (List.prefix_append_right_inj _).mpr hsaid
    · rw [hresult.2.2]
  · rintro value rfl
    obtain ⟨rfl, hsite⟩ := hrun
    obtain ⟨-, rfl⟩ := Prod.mk.inj hsite
    exact List.append_cancel_left (hwritten.symm.trans hhears.2.2.2)
  · obtain ⟨file, hfile⟩ := Option.isSome_iff_exists.mp hsome
    rw [hfile]
    exact hgrows _ _ hfile
  · obtain ⟨file, hfile⟩ := Option.isSome_iff_exists.mp hsome
    have hlast := hgrows' _ _ hfile
    rw [hsame.view] at hlast
    rw [hfile]
    exact hlast.symm

/-! ## Any number of attempts -/

variable {got said : Bytes}

/-- A client has downloaded this much of what is under a URL. -/
inductive Downloads (contents : Set Bytes) (dir : Dir) (url : NarUrl) :
    System ι (Shared ι) → Bytes → Prop
  /-- It has nothing yet. -/
  | nothing {system : System ι (Shared ι)}
      (hsteps : System.Steps (machine contents) dir ⟨blank, none⟩ system) :
      Downloads contents dir url system []
  /-- Anything happens to the cache. -/
  | wait {system system' : System ι (Shared ι)} {got : Bytes}
      (h : Downloads contents dir url system got)
      (hlater : System.Steps (machine contents) dir system system') :
      Downloads contents dir url system' got
  /-- It asks for what it does not have, and some of the answer reaches it. -/
  | attempt {system system' : System ι (Shared ι)} {got answer said : Bytes}
      {rest : Program Ans (Except Handler.Error (Http.KeepAlive × Connection))}
      (h : Downloads contents dir url system got)
      (hanswering : Answering contents url got.length system rest system' answer)
      (hsaid : said <+: answer) : Downloads contents dir url system' (got ++ bodyOf said)

theorem Downloads.steps (h : Downloads contents dir url system got) :
    System.Steps (machine contents) dir ⟨blank, none⟩ system := by
  induction h with
  | nothing hsteps => exact hsteps
  | wait h hlater ih => exact ih.trans hlater
  | attempt h hanswering hsaid ih => exact ih.trans (hanswering.steps dir)

/-- What the client has is the beginning of an artifact that is there. -/
def Begun (contents : Set Bytes) (url : NarUrl) (view : View) (got : Bytes) : Prop :=
  ∃ artifact ∈ contents, url = ⟨.digest artifact, storedAs⟩
    ∧ view.artifact url = some (.of artifact) ∧ got <+: artifact

theorem Begun.grows {view view' : View} (h : Begun contents url view got)
    (hgrows : view.Grows view') : Begun contents url view' got := by
  obtain ⟨artifact, hmem, hurl, hpresent, hopening⟩ := h
  exact ⟨artifact, hmem, hurl, hgrows _ _ hpresent, hopening⟩

theorem begun_of_attempt (hfree : Crates.CollisionFree contents)
    (hsmall : ∀ data ∈ contents, data.length < 2 ^ 64)
    (hsteps : System.Steps (machine contents) dir ⟨blank, none⟩ start)
    (hgot : got = [] ∨ Begun contents url start.shared.view got)
    (hanswering : Answering contents url got.length start rest system answer)
    (hsaid : said <+: answer) :
    got ++ bodyOf said = [] ∨ Begun contents url system.shared.view (got ++ bodyOf said) := by
  have hgrows := grows_of_steps hfree hsteps (hanswering.steps dir)
  obtain ⟨file, message, hresumes, hanswer, -, hbefore, hafter⟩ := hanswering.resumes hfree hsteps
  have hbody := bodyOf_isPrefix hresumes.final (hsaid.trans hanswer)
  rcases file with - | file
  · rw [hresumes.missing rfl, List.prefix_nil] at hbody
    rw [hbody, List.append_nil]
    exact hgot.imp_right fun h ↦ h.grows hgrows
  obtain ⟨-, -, artifact, hmem, -, hurl, rfl⟩ :=
    encoded_of_steps (hsteps.trans (hanswering.steps dir)) url file (hafter rfl).symm
  have hopening : got <+: artifact := by
    obtain rfl | ⟨artifact', -, -, hpresent, hopening⟩ := hgot
    · exact List.nil_prefix
    · have hsame := (hbefore (by rw [hpresent]; rfl)).trans hpresent
      obtain rfl : artifact = artifact' := congrArg File.data (Option.some.inj hsame)
      exact hopening
  rw [hresumes.rest artifact rfl hopening.length_le (hsmall artifact hmem)] at hbody
  refine .inr ⟨artifact, hmem, hurl, (hafter rfl).symm, ?_⟩
  rw [← List.prefix_append_right_inj got] at hbody
  rwa [← List.prefix_iff_eq_append.mp hopening]

theorem Downloads.begun (hfree : Crates.CollisionFree contents)
    (hsmall : ∀ data ∈ contents, data.length < 2 ^ 64)
    (h : Downloads contents dir url system got) :
    got = [] ∨ Begun contents url system.shared.view got := by
  induction h with
  | nothing hsteps => exact .inl rfl
  | wait h hlater ih =>
    exact ih.imp_right fun hbegun ↦ hbegun.grows (grows_of_steps hfree h.steps hlater)
  | attempt h hanswering hsaid ih =>
    exact begun_of_attempt hfree hsmall h.steps ih hanswering hsaid

/-- An attempt on an artifact that is there, and that is answered to the end, brings the rest. -/
theorem Downloads.complete (hfree : Crates.CollisionFree contents)
    (hsmall : ∀ data ∈ contents, data.length < 2 ^ 64)
    (h : Downloads contents dir url start got) {artifact : Bytes}
    (hpresent : start.shared.view.artifact url = some (.of artifact))
    {value : Http.KeepAlive × Connection}
    (hanswering : Answering contents url got.length start (.done (.ok value)) system answer) :
    got ++ bodyOf answer = artifact := by
  obtain ⟨-, -, artifact', hmem, -, -, hfile⟩ := encoded_of_steps h.steps url _ hpresent
  obtain rfl : artifact = artifact' := congrArg File.data hfile
  have hopening : got <+: artifact := by
    obtain rfl | ⟨artifact', -, -, hpresent', hopening⟩ := h.begun hfree hsmall
    · exact List.nil_prefix
    · obtain rfl : artifact = artifact' :=
        congrArg File.data (Option.some.inj (hpresent.symm.trans hpresent'))
      exact hopening
  obtain ⟨file, message, hresumes, -, hall, hbefore, -⟩ := hanswering.resumes hfree h.steps
  obtain rfl : file = some (.of artifact) :=
    (hbefore (by rw [hpresent]; rfl)).trans hpresent
  rw [hall value rfl, Message.bytes, bodyOf_head hresumes.final,
    hresumes.rest artifact rfl hopening.length_le (hsmall artifact hmem)]
  exact List.prefix_iff_eq_append.mp hopening

/-- **Interrupted downloads.** Whatever becomes of its attempts, a client that got anything has the
beginning of the artifact that the URL is the digest of, and one attempt that is answered to the end
brings the rest. -/
theorem downloads_of_steps (hfree : Crates.CollisionFree contents)
    (hsmall : ∀ data ∈ contents, data.length < 2 ^ 64)
    (h : Downloads contents dir url system got) :
    (got = [] ∨ Begun contents url system.shared.view got)
      ∧ ∀ artifact value system' answer, system.shared.view.artifact url = some (.of artifact) →
        Answering contents url got.length system (.done (.ok value)) system' answer →
        got ++ bodyOf answer = artifact :=
  ⟨h.begun hfree hsmall, fun _ _ _ _ hpresent hanswering ↦
    h.complete hfree hsmall hpresent hanswering⟩

/-! ## The last attempt -/

theorem exists_serving
    (hsteps : System.Steps (machine contents) dir ⟨(blank : Shared ι), none⟩ system)
    {cache : Cache} (hdir : cache.ingest.dir = dir) (i : ι) : ∃ s,
      System.Steps (machine contents) dir system ⟨s, some ⟨cache, System.idle⟩⟩ := by
  obtain ⟨s, server⟩ := system
  have hdown : System.Steps (machine contents) dir ⟨s, server⟩ ⟨s, none⟩ := by
    rcases server with - | server
    · exact .refl
    · exact .single .kill
  obtain ⟨result, s', peer', hrun⟩ := @exists_runs_of_commits ι contents i cache.ingest.key _ _ _
    starting_serve (fun _ ↦ commits_of_starting) (restart 0 s) ⟨[], []⟩
  have hlaid : Laid (restart 0 s).1.fs := laid_of_steps (hsteps.trans hdown)
  obtain ⟨rfl, -, -⟩ := (Boot.ends_serve hlaid).runs (runs_of_shared hrun)
  exact ⟨s', hdown.tail (.boot cache 0 i hdir (runs_hostile_of_fair hrun))⟩

/-- A client can connect to a server that is started again, ask for what follows the first `k`
bytes and be answered to the end. -/
theorem exists_answering
    (hsteps : System.Steps (machine contents) dir ⟨(blank : Shared ι), none⟩ system)
    (cache : Cache) (hdir : cache.ingest.dir = dir) (i : ι) (url : NarUrl) (k : ℕ) :
    ∃ start system' value, ∃ message : Message, System.Steps (machine contents) dir system start
      ∧ message.reply.Final
      ∧ Answering contents url k start (.done (.ok value)) system' message.bytes := by
  obtain ⟨s, hserving⟩ := exists_serving hsteps hdir i
  -- the client connects and sends its request at once
  let sent := Text.utf8 (Http.Request.onward url k).render
  have hlen := Http.headLen_render (Http.Request.sayable_onward url k) []
  have hparse := Http.parse_utf8_render (Http.Request.sayable_onward url k)
  rw [List.append_nil] at hlen
  have hparse' : Http.parse (sent.take sent.length) = .ok (.onward url k) := by
    rwa [List.take_length]
  let exchange : Exchange := ⟨0, ⟨sent.drop sent.length⟩, .onward url k⟩
  obtain ⟨g, hconnected⟩ : ∃ g, System.Steps (machine contents) dir ⟨s, some ⟨cache, System.idle⟩⟩
      ⟨s, some ⟨cache, Function.update System.idle i
        (⟨[], []⟩, (cache.handle exchange).run >>= g)⟩⟩ :=
    steps_of_request rfl hlen hparse' 0
  let server : Server ι := ⟨cache, Function.update System.idle i
    (⟨[], []⟩, (cache.handle exchange).run >>= g)⟩
  have hthread : server.threads i = (⟨[], []⟩, (cache.handle exchange).run >>= g) :=
    Function.update_self ..
  -- nothing fails, so the answer comes to its end
  have hget : exchange.request.method ≠ .put := Http.Method.noConfusion
  obtain ⟨result, s', peer', hrun⟩ := @exists_runs_of_commits ι contents i cache.ingest.key _ _ _
    (quiet_handle cache fun hput ↦ absurd hput hget) (fun _ ↦ commits_of_quiet) s ⟨[], []⟩
  obtain ⟨-, -, -, hresult⟩ :=
    (ends_handle_read hget (s.1, (⟨[], []⟩ : Peer))).runs (runs_of_shared hrun)
  rcases result with error | value
  · exact absurd hresult.1 (by decide)
  have hstart : System.Handles (machine contents) i g (cache.handle exchange).run
    ⟨s, some server⟩ [⟨s, some server⟩] (cache.handle exchange).run ⟨s, some server⟩ := .start
  obtain ⟨more, hhandled⟩ := hstart.runs hthread (runs_hostile_of_fair hrun)
  have hanswering : Answering contents url k ⟨s, some server⟩ (.done (.ok value)) _
      (readMessage cache exchange (s.1.bump exchange.shard .requests 1)).bytes :=
    ⟨i, server, ⟨[], []⟩, exchange, g, _, rfl, asksRest_onward .., hthread, hhandled, _, peer', rfl,
      Function.update_self .., hresult.2⟩
  exact ⟨_, _, value, _, hserving.trans hconnected, final_readMessage _, hanswering⟩

/-- **A download can be finished.** From every state, whatever was interrupted before and whatever
runs now, a client can still ask for what it does not have, and the answer brings the rest. -/
theorem finishes_of_downloads (hfree : Crates.CollisionFree contents)
    (hsmall : ∀ data ∈ contents, data.length < 2 ^ 64)
    (h : Downloads contents dir url system got) {artifact : Bytes}
    (hpresent : system.shared.view.artifact url = some (.of artifact)) (cache : Cache)
    (hdir : cache.ingest.dir = dir) (i : ι) : ∃ start system' value answer,
      System.Steps (machine contents) dir system start
        ∧ Answering contents url got.length start (.done (.ok value)) system' answer
        ∧ got ++ bodyOf answer = artifact := by
  obtain ⟨start, system', value, message, hsteps, -, hanswering⟩ :=
    exists_answering h.steps cache hdir i url got.length
  have hpresent' := grows_of_steps hfree h.steps hsteps _ _ hpresent
  exact ⟨start, system', value, message.bytes, hsteps, hanswering,
    (h.wait hsteps).complete hfree hsmall hpresent' hanswering⟩

end Shared

section Specimen

open Specimen Shared Response

theorem artifact_first : first.bind (·.view.artifact entry.url) = some (.of (frame nar)) := by
  simp only [first, serveAll, serveEach, Cache.session, Cache.turn, Cache.attend,
    Http.parse, Text.fromUtf8_eq_decode]
  decide +kernel

private theorem small_frame : ∀ data ∈ ({frame nar} : Set Bytes), data.length < 2 ^ 64 := by
  rintro _ rfl
  decide

/-- After the first upload a client gets two bytes of the artifact. -/
private theorem exists_halfway : ∃ system : System ℕ (Shared ℕ),
    Downloads {frame nar} dir entry.url system ((frame nar).take 2)
      ∧ system.shared.view.artifact entry.url = some (.of (frame nar)) := by
  obtain ⟨s, hs, hpresent⟩ := Option.bind_eq_some_iff.mp artifact_first
  obtain ⟨threads, hsteps⟩ := steps_of_serveAll mem_frame hs
  obtain ⟨start, system, value, message, hserving, hfinal, hanswering⟩ :=
    exists_answering hsteps cache rfl 0 entry.url 0
  have hdownload : Downloads {frame nar} dir entry.url start [] := .nothing (hsteps.trans hserving)
  have hpresent' := grows_of_steps collisionFree_frame hsteps hserving _ _ hpresent
  have hbody : message.body = frame nar := by
    have hcomplete := hdownload.complete collisionFree_frame small_frame hpresent' hanswering
    rwa [Message.bytes, bodyOf_head hfinal] at hcomplete
  refine ⟨system, ?_, grows_of_steps collisionFree_frame (hsteps.trans hserving)
    (hanswering.steps dir) _ _ hpresent'⟩
  have hattempt := hdownload.attempt hanswering
    ((List.prefix_append_right_inj message.reply.head).mpr (List.take_prefix 2 message.body))
  rwa [bodyOf_head hfinal, hbody] at hattempt

/-- A second attempt, after the first was cut off. -/
theorem downloads_halfway : ∃ (start system : System ℕ (Shared ℕ)) (answer : Bytes),
    Begun {frame nar} entry.url start.shared.view ((frame nar).take 2)
      ∧ System.Steps (machine {frame nar}) dir start system
      ∧ (frame nar).take 2 ++ bodyOf answer = frame nar := by
  obtain ⟨system, hdownload, hpresent⟩ := exists_halfway
  obtain ⟨start, system', value, message, hserving, -, hanswering⟩ :=
    exists_answering hdownload.steps cache rfl 1 entry.url ((frame nar).take 2).length
  have hpresent' := grows_of_steps collisionFree_frame hdownload.steps hserving _ _ hpresent
  obtain ⟨hbegun, hcomplete⟩ :=
    downloads_of_steps collisionFree_frame small_frame (hdownload.wait hserving)
  exact ⟨start, system', message.bytes, hbegun.resolve_left (by decide), hanswering.steps dir,
    hcomplete _ value system' _ hpresent' hanswering⟩

/-- The first attempt was cut off, and the download is finished with what follows the two bytes. -/
theorem finishes_halfway : ∃ (system start system' : System ℕ (Shared ℕ))
    (value : Http.KeepAlive × Connection) (answer : Bytes),
    Downloads {frame nar} dir entry.url system ((frame nar).take 2)
      ∧ System.Steps (machine {frame nar}) dir system start
      ∧ Answering {frame nar} entry.url 2 start (.done (.ok value)) system' answer
      ∧ (frame nar).take 2 ++ bodyOf answer = frame nar := by
  obtain ⟨system, hdownload, hpresent⟩ := exists_halfway
  obtain ⟨start, system', value, answer, hsteps, hanswering, hrest⟩ :=
    finishes_of_downloads collisionFree_frame small_frame hdownload hpresent cache rfl 1
  exact ⟨system, start, system', value, answer, hdownload, hsteps, hanswering, hrest⟩

end Specimen

end Bincache
