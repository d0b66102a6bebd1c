import Bincache.Lib.Mirror
import Bincache.Lifetime
import Bincache.Naming
import Bincache.Serve.Landing
import Bincache.Serve.Quiet

/-!
# What a delete does to the other paths

Paths with one content share a NAR row and an artifact. A delete leaves the artifact but takes the
row, so a path that shares it goes on being served, while nobody can publish it again before the NAR
is uploaded once more.

`Observes` are the requests that ask about one record: its metadata, its artifact, whether its NAR
is there, and its narinfo once more. An exchange is followed from the two states, before the delete
and after, at once.
-/

namespace Bincache

/-! ## One exchange on two indices -/

/-- Two sites that differ in the index. -/
structure Twins (a b : Index) (s t : Site) : Prop where
  index : s.1.index = a
  twin : t = ({ s.1 with index := b }, s.2)

variable {env : Env} {a b a' b' : Index} {s t : Site}

theorem twins_of_index (world : World) (b : Index) (peer : Peer) :
    Twins world.index b (world, peer) ({ world with index := b }, peer) := ⟨rfl, rfl⟩

/-- Only a transaction sees the index. -/
theorem step_twin {op : Op} {answer : Ans op} {s' : Site} (hop : ∀ op', op ≠ .index op')
    (hst : Twins a b s t) (h : step env op s answer s') :
    ∃ t', step env op t answer t' ∧ Twins a b s' t' := by
  obtain ⟨rfl, rfl⟩ := hst
  obtain ⟨world, peer⟩ := s
  obtain ⟨choice, hallows, heffect⟩ := h
  -- the same choice is taken on the twin, and of the world only the index differs
  suffices hboth : effect choice op ({ world with index := b }, peer)
      = some (answer, { s'.1 with index := b }, s'.2) ∧ s'.1.index = world.index from
    ⟨_, ⟨choice, hallows, hboth.1⟩, hboth.2, rfl⟩
  cases op with
  | index op => exact absurd rfl (hop op)
  | file op =>
    rw [effect] at heffect ⊢
    dsimp only at heffect ⊢
    split at heffect
    · next hfails =>
      obtain ⟨rfl, rfl⟩ := Prod.mk.inj (Option.some.inj heffect)
      exact ⟨if_pos hfails, rfl⟩
    · next hfails =>
      obtain ⟨⟨result, fs⟩, hrun, heq⟩ := Option.map_eq_some_iff.mp heffect
      obtain ⟨rfl, rfl⟩ := Prod.mk.inj heq
      rw [if_neg hfails, hrun]
      exact ⟨rfl, rfl⟩
  | recv =>
    rw [effect] at heffect ⊢
    dsimp only at heffect ⊢
    split at heffect
    · next hfails =>
      obtain ⟨rfl, rfl⟩ := Prod.mk.inj (Option.some.inj heffect)
      exact ⟨if_pos hfails, rfl⟩
    · next hfails =>
      obtain ⟨rfl, rfl⟩ := Prod.mk.inj (Option.some.inj heffect)
      exact ⟨if_neg hfails, rfl⟩
  | send bytes =>
    rw [effect] at heffect ⊢
    dsimp only at heffect ⊢
    split at heffect
    · next hfails =>
      obtain ⟨rfl, rfl⟩ := Prod.mk.inj (Option.some.inj heffect)
      exact ⟨if_pos hfails, rfl⟩
    · next hfails =>
      obtain ⟨rfl, rfl⟩ := Prod.mk.inj (Option.some.inj heffect)
      exact ⟨if_neg hfails, rfl⟩
  | processId =>
    obtain ⟨rfl, rfl⟩ := Prod.mk.inj (Option.some.inj heffect)
    exact ⟨rfl, rfl⟩
  | nextOrdinal =>
    obtain ⟨rfl, rfl⟩ := Prod.mk.inj (Option.some.inj heffect)
    exact ⟨rfl, rfl⟩
  | bump shard counter amount =>
    obtain ⟨rfl, rfl⟩ := Prod.mk.inj (Option.some.inj heffect)
    exact ⟨rfl, rfl⟩
  | totals shards =>
    obtain ⟨rfl, rfl⟩ := Prod.mk.inj (Option.some.inj heffect)
    exact ⟨rfl, rfl⟩

theorem step_twin_index {op : IndexOp} {value : op.Value} {answer : Ans (.index op)} {s' : Site}
    (ha : op.run a = (value, a')) (hb : op.run b = (value, b')) (hst : Twins a b s t)
    (h : step env (.index op) s answer s') :
    ∃ t', step env (.index op) t answer t' ∧ (answer = .error .failed ∧ Twins a b s' t'
      ∨ answer = .ok value ∧ Twins a' b' s' t') := by
  obtain ⟨rfl, rfl⟩ := hst
  obtain ⟨world, peer⟩ := s
  obtain ⟨choice, hallows, heffect⟩ := h
  rw [effect] at heffect
  dsimp only at heffect ha
  split at heffect
  · next hfails =>
    obtain ⟨rfl, rfl⟩ := Prod.mk.inj (Option.some.inj heffect)
    exact ⟨_, ⟨choice, hallows, if_pos hfails⟩, .inl ⟨rfl, rfl, rfl⟩⟩
  · next hfails =>
    rw [ha] at heffect
    obtain ⟨rfl, rfl⟩ := Prod.mk.inj (Option.some.inj heffect)
    refine ⟨({ world with index := b' }, peer), ⟨choice, hallows, ?_⟩, .inr ⟨rfl, rfl, rfl⟩⟩
    rw [effect]
    dsimp only
    rw [if_neg hfails, hb]

/-- A transaction that only looks, and sees the same in both. -/
def Agrees (a b : Index) (op : IndexOp) : Prop :=
  ∃ value, op.run a = (value, a) ∧ op.run b = (value, b)

theorem mirrors_reads {α : Type} {program : Program Ans α}
    (h : program.Uses (Op.Reads (Agrees a b))) (hst : Twins a b s t) :
    program.Mirrors (step env) (step env) (fun _ ↦ Twins a b) s t := by
  refine h.mirrors (fun op s t answer s' hreads hst hop ↦ ?_) hst
  by_cases hindex : ∃ op', op = .index op'
  · obtain ⟨op', rfl⟩ := hindex
    obtain ⟨value, ha, hb⟩ := hreads
    obtain ⟨t', hop', ⟨-, htwins⟩ | ⟨-, htwins⟩⟩ := step_twin_index ha hb hst hop
    · exact ⟨t', hop', htwins⟩
    · exact ⟨t', hop', htwins⟩
  · exact step_twin (not_exists.mp hindex) hst hop

theorem mirrors_indexCall {op : IndexOp} {value : op.Value} (ha : op.run a = (value, a'))
    (hb : op.run b = (value, b')) (hst : Twins a b s t) :
    (indexCall op).run.Mirrors (step env) (step env) (fun result s' t' ↦ match result with
      | .ok value' => value' = value ∧ Twins a' b' s' t'
      | .error _ => Twins a b s' t') s t := by
  intro answer s₁ hop
  obtain ⟨t₁, hop', ⟨rfl, htwins⟩ | ⟨rfl, htwins⟩⟩ := step_twin_index ha hb hst hop
  · exact ⟨t₁, hop', htwins⟩
  · exact ⟨t₁, hop', rfl, htwins⟩

section Publish

open Attempt Cache Handler Response

variable [Crates] {cache : Cache} {exchange : Exchange} {declared : NarInfo}

/-- The same sites, whatever their indices. -/
def Alike (s t : Site) : Prop := ∃ a b, Twins a b s t

/-- A publish looks up one NAR, and only that. -/
theorem mirrors_publish (ingest : Ingest) {text : Text}
    (hparse : NarInfo.parse text ingest.dir = .ok declared)
    (hnar : a.nar declared.narHash = b.nar declared.narHash) (hst : Twins a b s t) :
    (ingest.publish text).run.Mirrors (step env) (step env) (fun _ ↦ Alike) s t := by
  have hfirst : (IndexOp.nar declared.narHash).run a = (a.nar declared.narHash, a) := rfl
  have hsecond : (IndexOp.nar declared.narHash).run b = (a.nar declared.narHash, b) := by
    rw [IndexOp.run, hnar]
  rw [ingest.publish_of_ok hparse]
  refine mirrors_bind (mirrors_context ((mirrors_indexCall hfirst hsecond hst).imp ?_))
  rintro (error | entry) s₁ t₁ hlooked
  · exact ⟨a, b, hlooked⟩
  obtain ⟨rfl, htwins⟩ := hlooked
  change (ingest.publishEntry declared (a.nar declared.narHash)).run.Mirrors _ _ _ _ _
  rcases a.nar declared.narHash with _ | entry
  · exact ⟨a, b, htwins⟩
  rw [Ingest.publishEntry]
  have hcommit : ∀ index : Index, (IndexOp.publish (ingest.record declared entry)).run index
      = ((), index.publish (ingest.record declared entry)) := fun _ ↦ rfl
  split
  · refine mirrors_bind (mirrors_context ?_)
    refine (mirrors_indexCall (hcommit a) (hcommit b) htwins).imp ?_
    rintro (error | value) s₂ t₂ hpublished
    · exact ⟨a, b, hpublished⟩
    · exact ⟨_, _, hpublished.2⟩
  · exact ⟨a, b, htwins⟩

omit [Crates] in
theorem mirrors_alike {α : Type} {program : Program Ans α}
    (h : ∀ lookups, program.Uses (Op.Reads lookups)) (hst : Alike s t) :
    program.Mirrors (step env) (step env) (fun _ ↦ Alike) s t := by
  obtain ⟨a, b, htwins⟩ := hst
  exact (mirrors_reads (h _) htwins).imp fun _ _ _ h ↦ ⟨a, b, h⟩

theorem mirrors_put {body rest : Bytes} {text : Text}
    (hframing : exchange.request.framing = .length body.length)
    (hstream : exchange.connection.stream s.2 = body ++ rest)
    (htext : Text.fromUtf8 body = some text)
    (hparse : NarInfo.parse text cache.ingest.dir = .ok declared)
    (hnar : a.nar declared.narHash = b.nar declared.narHash) (hst : Twins a b s t) :
    (cache.publish exchange).run.Mirrors (step env) (step env) (fun _ ↦ Alike) s t := by
  have hanswer : ∀ {s t : Site} status drained, Alike s t →
      ((fun keepAlive ↦ (keepAlive, exchange.connection)) <$>
        answer exchange status drained).run.Mirrors (step env) (step env) (fun _ ↦ Alike) s t := by
    intro s t status drained h
    exact mirrors_alike (fun _ ↦ uses_map (reads_answer exchange status drained)) h
  -- up to the body the twins are told apart by nothing, so they read the same one
  have hasked : (cache.admitRequest exchange).run.Mirrors (step env) (step env)
      (fun _ s' t' ↦ s'.2 = s.2 ∧ Twins a b s' t') s t := by
    refine (mirrors_reads (reads_admitRequest cache) hst).recorded fun result s' hrun ↦ ?_
    obtain ⟨-, hpeer, -⟩ := (ends_admitRequest exchange s).runs hrun
    exact hpeer
  refine mirrors_bind (hasked.imp ?_)
  rintro (error | admission) s₁ t₁ ⟨hpeer, htwins⟩
  · exact ⟨a, b, htwins⟩
  dsimp only
  split
  · exact hanswer _ _ ⟨a, b, htwins⟩
  rw [hframing]
  dsimp only
  split
  · exact hanswer _ _ ⟨a, b, htwins⟩
  have hproceed : (proceed exchange).run.Mirrors (step env) (step env)
      (fun _ s' t' ↦ s'.2.unread = s₁.2.unread ∧ Twins a b s' t') s₁ t₁ := by
    refine (mirrors_reads (reads_proceed exchange) htwins).recorded fun result s' hrun ↦ ?_
    obtain ⟨-, hunread, -⟩ := (ends_proceed exchange s₁).runs hrun
    exact hunread
  refine mirrors_bind (hproceed.imp ?_)
  rintro (error | ⟨⟩) s₂ t₂ ⟨hunread, htwins₂⟩
  · exact ⟨a, b, htwins₂⟩
  have hread : (exchange.connection.body body.length).run.Mirrors (step env) (step env)
      (fun result s' t' ↦ (∀ read, result = .ok read → read.1 = body) ∧ Twins a b s' t') s₂ t₂ := by
    refine (mirrors_reads (Connection.reads_body _ _) htwins₂).recorded fun result s' hrun ↦ ?_
    obtain ⟨-, -, hbody⟩ := (Connection.ends_body _ _ s₂).runs hrun
    rintro read rfl
    have hwhole : exchange.connection.stream s₂.2 = body ++ rest := by
      rw [Connection.stream, hunread, hpeer, ← Connection.stream, hstream]
    exact (List.append_inj (hbody.1.symm.trans hwhole) hbody.2).1
  refine mirrors_bind (mirrors_context (hread.imp ?_))
  rintro (error | ⟨read, connection⟩) s₃ t₃ ⟨hbody, htwins₃⟩
  · exact ⟨a, b, htwins₃⟩
  obtain rfl := hbody _ rfl
  dsimp only [Except.mapError]
  rw [htext]
  dsimp only
  -- the index is asked about one row only, which both have
  refine mirrors_bind (mirrors_result ((mirrors_publish cache.ingest hparse hnar htwins₃).imp ?_))
  rintro (error | record) s₄ t₄ halike
  · exact mirrors_alike (fun _ ↦ uses_bind (reads_refuse exchange _ _) fun _ ↦ trivial) halike
  · exact mirrors_alike (fun _ ↦ uses_bind (reads_answer exchange _ _) fun _ ↦ trivial) halike

/-! ## Requests about one record -/

/-- The request may be answered in the same ways in both worlds. -/
def SameAnswers (cache : Cache) (exchange : Exchange) (peer : Peer) (world world' : World) : Prop :=
  ∀ env result peer',
    (∃ after, (cache.handle exchange).run.Runs (step env) (world, peer) result (after, peer'))
      ↔ ∃ after, (cache.handle exchange).run.Runs (step env) (world', peer) result (after, peer')

/-- The requests that ask about the record of a key: for its metadata, for its artifact, whether its
NAR is there, and its narinfo put once more. -/
inductive Observes (cache : Cache) (key : StorePath.Hash) (record : NarInfo) (exchange : Exchange)
    (peer : Peer) : Prop
  | metadata (hmethod : exchange.request.method ≠ .put)
      (hroute : Route.resolve exchange.request.target = .ok (.narinfo key))
  | artifact (hmethod : exchange.request.method = .get)
      (hroute : Route.resolve exchange.request.target = .ok (.nar record.nar))
  | probe (hmethod : exchange.request.method = .head)
      (hroute : Route.resolve exchange.request.target = .ok (.nar ⟨record.narHash, .none⟩))
  | republish {text : Text} {body rest : Bytes} {declared : NarInfo}
      (hmethod : exchange.request.method = .put)
      (hroute : Route.resolve exchange.request.target = .ok (.narinfo key))
      (hmay : cache.admission exchange.request = .admitted)
      (hframing : exchange.request.framing = .length body.length)
      (hstream : exchange.connection.stream peer = body ++ rest)
      (htext : Text.fromUtf8 body = some text)
      (hparse : NarInfo.parse text cache.ingest.dir = .ok declared)
      (hretains : Retains declared record)

/-- Two indices with the same rows for one record give the same answers about it. -/
theorem Observes.mirrors {key : StorePath.Hash} {record : NarInfo} {peer : Peer}
    (h : Observes cache key record exchange peer) (hnarinfo : a.narinfo key = b.narinfo key)
    (hnar : a.nar record.narHash = b.nar record.narHash) (hpeer : s.2 = peer)
    (hst : Twins a b s t) :
    (cache.handle exchange).run.Mirrors (step env) (step env) (fun _ ↦ Alike) s t := by
  have hreads : exchange.request.method ≠ .put →
      (∀ route op, Route.resolve exchange.request.target = .ok route →
        Asks exchange.request route op → Agrees a b op) →
      (cache.handle exchange).run.Mirrors (step env) (step env) (fun _ ↦ Alike) s t := by
    intro hmethod hasks
    exact (mirrors_reads (reads_handle cache (fun hput ↦ absurd hput hmethod) hasks) hst).imp
      fun _ _ _ htwins ↦ ⟨a, b, htwins⟩
  rcases h with ⟨hmethod, hroute⟩ | ⟨hmethod, hroute⟩ | ⟨hmethod, hroute⟩
    | @⟨text, body, rest, declared, hmethod, hroute, hmay, hframing, hstream, htext, hparse,
      hretains⟩
  · refine hreads hmethod fun route op hroute' hasks ↦ ?_
    obtain rfl := Except.ok.inj (hroute.symm.trans hroute')
    obtain rfl := hasks
    exact ⟨_, rfl, by rw [IndexOp.run, hnarinfo]⟩
  · refine hreads (by rw [hmethod]; exact Http.Method.noConfusion) fun route op hroute' hasks ↦ ?_
    obtain rfl := Except.ok.inj (hroute.symm.trans hroute')
    -- a stream looks nothing up
    exact absurd (hmethod.symm.trans hasks.2.1) Http.Method.noConfusion
  · refine hreads (by rw [hmethod]; exact Http.Method.noConfusion) fun route op hroute' hasks ↦ ?_
    obtain rfl := Except.ok.inj (hroute.symm.trans hroute')
    obtain ⟨rfl, -⟩ := hasks
    exact ⟨_, rfl, by rw [IndexOp.run, hnar]⟩
  · have hbump : (bump exchange.shard .requests 1 : Call Handler.Error Unit).run.Mirrors (step env)
        (step env) (fun _ s' t' ↦ s'.2 = s.2 ∧ Twins a b s' t') s t := by
      refine (mirrors_reads (reads_bump _ _ _) hst).recorded fun result s' hrun ↦ ?_
      obtain ⟨-, hsame, -⟩ := (ends_bump _ _ _ s).runs hrun
      exact hsame
    refine mirrors_bind (hbump.imp ?_)
    rintro (error | ⟨⟩) s₁ t₁ ⟨hsame, htwins⟩
    · exact ⟨a, b, htwins⟩
    dsimp only
    rw [if_neg (by rw [hframing]; exact Http.Framing.noConfusion), hroute]
    dsimp only
    rw [dispatch, if_pos hmethod]
    have hstream' : exchange.connection.stream s₁.2 = body ++ rest := by
      rw [hsame, hpeer]
      exact hstream
    refine mirrors_put hframing hstream' htext hparse ?_ htwins
    rw [← hretains.narHash]
    exact hnar

theorem Observes.sameAnswers {key : StorePath.Hash} {record : NarInfo} {peer : Peer} {world : World}
    (h : Observes cache key record exchange peer)
    (hnarinfo : world.index.narinfo key = b.narinfo key)
    (hnar : world.index.nar record.narHash = b.nar record.narHash) :
    SameAnswers cache exchange peer world { world with index := b } := by
  intro env result peer'
  constructor
  · rintro ⟨after, hrun⟩
    obtain ⟨t, hrun', a', b', -, rfl⟩ :=
      (h.mirrors hnarinfo hnar rfl (twins_of_index world b peer)).runs hrun
    exact ⟨_, hrun'⟩
  · rintro ⟨after, hrun⟩
    obtain ⟨t, hrun', a', b', -, rfl⟩ := (h.mirrors hnarinfo.symm hnar.symm rfl
      (twins_of_index { world with index := b } world.index peer)).runs hrun
    exact ⟨_, hrun'⟩

/-! ## Deletes -/

/-- Deleting the key is seen by no request about another record, and a key that is not there changes
nothing. -/
structure Invisible (cache : Cache) (key : StorePath.Hash) (world world' : World) : Prop where
  siblings : ∀ key' ≠ key, ∀ record', world.index.narinfo key' = some record' →
    ∀ exchange peer, Observes cache key' record' exchange peer →
      SameAnswers cache exchange peer world world'
  absent : world.index.narinfo key = none → world' = world

/-- The NAR row of the record of a key, if it is still there, goes with no other record. -/
def Unshared (index : Index) (key : StorePath.Hash) : Prop :=
  ∀ record, index.narinfo key = some record → index.nar record.narHash = none
    ∨ ∀ key' ≠ key, ∀ record', index.narinfo key' = some record' → record'.narHash ≠ record.narHash

omit [Crates] in
/-- A delete that goes through changes the index and nothing else. -/
theorem ends_delete (key : StorePath.Hash) (site : Site) :
    Ends env (Maintain.delete key).run (fun result _ world ↦ match result with
      | .ok _ => world = { site.1 with index := (site.1.index.unpublish key).2 }
      | .error _ => env = .hostile) site := by
  refine safe_bind (safe_context ((ends_indexCall (.unpublish key) site).imp ?_))
  rintro (error | removed) peer world - ⟨rfl, hresult⟩
  · exact hresult.2
  · rcases removed with _ | record
    · exact ends_done hresult.2
    · exact ends_done hresult.2

omit [Crates] in
theorem world_of_delete {key : StorePath.Hash} {site site' : Site} {deleted : Maintain.Deleted}
    (h : (Maintain.delete key).run.Runs (step env) site (.ok deleted) site') :
    site'.1 = { site.1 with index := (site.1.index.unpublish key).2 } :=
  (ends_delete key site).runs h

omit [Crates] in
theorem exists_delete (key : StorePath.Hash) (site : Site) : ∃ deleted site',
    (Maintain.delete key).run.Runs (step .fair) site (.ok deleted) site' := by
  obtain ⟨result, site', hrun⟩ := exists_runs_fair (Maintain.delete key).run site
  rcases result with error | deleted
  · exact absurd ((ends_delete key site).runs hrun) Env.noConfusion
  · exact ⟨deleted, site', hrun⟩

/-- The existence check that tells whether a NAR has a row. -/
def check (narHash : Sha256) : Exchange where
  shard := 0
  connection := {}
  request := ⟨.head, '/' :: NarUrl.url ⟨narHash, .none⟩, .empty, .keep, .none, none, none⟩

theorem readMessage_check (cache : Cache) (narHash : Sha256) (world : World) :
    readMessage cache (check narHash) world
      = probeMessage (check narHash) ((world.index.nar narHash).map fun entry ↦ entry.narSize) := by
  rw [readMessage, if_neg Http.Framing.noConfusion,
    show Route.resolve (check narHash).request.target = .ok (.nar ⟨narHash, .none⟩) from
      Route.resolve_url _]
  exact (if_pos rfl).trans (congrArg _ (if_pos rfl))

/-- Without the row the answer is another one. -/
theorem not_sameAnswers_check (cache : Cache) {narHash : Sha256} {world world' : World}
    {entry : Entry} (hrow : world.index.nar narHash = some entry)
    (hgone : world'.index.nar narHash = none) :
    ¬SameAnswers cache (check narHash) ⟨[], []⟩ world world' := by
  intro hsame
  have hsaid : ∀ {world : World} {result peer} {after : World},
      (cache.handle (check narHash)).run.Runs (step .fair) (world, ⟨[], []⟩) result (after, peer) →
        peer.written = (probeMessage (check narHash)
          ((world.index.nar narHash).map fun entry ↦ entry.narSize)).bytes := by
    intro world result peer after hrun
    obtain ⟨-, -, -, hresult⟩ := (ends_handle_read Http.Method.noConfusion _).runs hrun
    rw [readMessage_check] at hresult
    rcases result with error | value
    · exact absurd hresult.1 Env.noConfusion
    · exact hresult.2
  obtain ⟨result, ⟨after, peer⟩, hrun⟩ := exists_runs_fair (cache.handle (check narHash)).run
    (world, ⟨[], []⟩)
  obtain ⟨after', hrun'⟩ := (hsame .fair result peer).mp ⟨after, hrun⟩
  have hfound := hsaid hrun
  have hmissing := hsaid hrun'
  rw [hrow] at hfound
  rw [hgone] at hmissing
  -- the two differ within the status line
  have hbytes := congrArg (List.take 12) (hfound.symm.trans hmissing)
  rw [Message.bytes, Message.bytes, Reply.take_append, Reply.take_append] at hbytes
  have hdiffer : (Text.utf8 (statusLine .ok)).take 12
      ≠ (Text.utf8 (statusLine .notFound)).take 12 := by decide
  exact hdiffer hbytes

/-- A path that shares the NAR row sees the delete. -/
theorem not_invisible {key key' : StorePath.Hash} {record record' : NarInfo} {entry : Entry}
    {site site' : Site} {deleted : Maintain.Deleted}
    (hrecord : site.1.index.narinfo key = some record) (hkey : key' ≠ key)
    (hrecord' : site.1.index.narinfo key' = some record')
    (hshared : record'.narHash = record.narHash)
    (hrow : site.1.index.nar record.narHash = some entry)
    (h : (Maintain.delete key).run.Runs (step env) site (.ok deleted) site') :
    ¬Invisible cache key site.1 site'.1 := by
  rw [world_of_delete h]
  intro hinvisible
  refine not_sameAnswers_check cache hrow ?_ (hinvisible.siblings key' hkey record' hrecord'
    (check record.narHash) _ (.probe rfl ?_))
  · exact (Index.nar_unpublish hrecord _).trans (if_pos rfl)
  · rw [hshared]
    exact Route.resolve_url _

/-- A delete that went through is invisible to the other paths, exactly if none of them has its NAR
row. -/
theorem invisible_iff {key : StorePath.Hash} {site site' : Site} {deleted : Maintain.Deleted}
    (h : (Maintain.delete key).run.Runs (step env) site (.ok deleted) site') :
    Invisible cache key site.1 site'.1 ↔ Unshared site.1.index key := by
  constructor
  · rintro hinvisible record hrecord
    by_contra! hshared
    obtain ⟨hrow, key', hkey, record', hrecord', hnarHash⟩ := hshared
    obtain ⟨entry, hentry⟩ := Option.ne_none_iff_exists'.mp hrow
    exact not_invisible hrecord hkey hrecord' hnarHash hentry h hinvisible
  · intro hunshared
    rw [world_of_delete h]
    refine ⟨fun key' hkey record' hrecord' exchange peer hobserves ↦ ?_, fun hnone ↦ ?_⟩
    · refine hobserves.sameAnswers ?_ ?_
      · rw [Index.narinfo_unpublish, if_neg hkey]
      · cases hrecord : site.1.index.narinfo key with
        | none => rw [Index.unpublish_of_none hrecord]
        | some record =>
          rw [Index.nar_unpublish hrecord]
          split
          · next hnarHash =>
            obtain hgone | hother := hunshared record hrecord
            · rw [hnarHash, hgone]
            · exact absurd hnarHash (hother key' hkey record' hrecord')
          · rfl
    · rw [Index.unpublish_of_none hnone]

end Publish

section Specimen

open Specimen Shared

namespace Specimen

/-- The body for another path with the same content: only its first line differs. -/
def siblingBody : Text :=
  "StorePath: /nix/store/".toList ++ strangerStem ++ "-a".toList ++ body.dropWhile (· ≠ '\n')

/-- The cache after one upload, with two paths published for it. -/
def siblings : Option (Shared ℕ) := serveAll [frame nar] plain cache 7
  [upload, publication stem body, publication strangerStem siblingBody] blank

theorem rows_siblings : siblings.map (fun s ↦ (s.1.index.nar ⟨narDigest⟩,
      (s.1.index.narinfo path.hash).map NarInfo.narHash,
      (s.1.index.narinfo stranger).map NarInfo.narHash))
    = some (some entry, some ⟨narDigest⟩, some ⟨narDigest⟩) := by
  simp only [siblings, serveAll, serveEach, Cache.session, Cache.turn, Cache.attend, Cache.handle,
    Cache.dispatch, Cache.publish, Http.parse, Text.fromUtf8_eq_decode]
  decide +kernel

end Specimen

/-- Two paths with one content are published, and one is deleted: the other is no longer found by
the existence check. -/
theorem not_invisible_siblings : ∃ (system : System ℕ (Shared ℕ)) (site' : Site)
    (deleted : Maintain.Deleted),
    System.Steps (Shared.machine {frame nar}) dir ⟨Shared.blank, none⟩ system
      ∧ (Maintain.delete path.hash).run.Runs (step .fair) (system.shared.1, ⟨[], []⟩)
        (.ok deleted) site'
      ∧ ¬Invisible cache path.hash system.shared.1 site'.1 := by
  obtain ⟨s, hs, hrows⟩ := Option.map_eq_some_iff.mp rows_siblings
  obtain ⟨hrow, hrest⟩ := Prod.mk.inj hrows
  obtain ⟨hdeleted, hkept⟩ := Prod.mk.inj hrest
  obtain ⟨record, hrecord, hnarHash⟩ := Option.map_eq_some_iff.mp hdeleted
  obtain ⟨record', hrecord', hnarHash'⟩ := Option.map_eq_some_iff.mp hkept
  obtain ⟨threads, hsteps⟩ := steps_of_serveAll mem_frame hs
  obtain ⟨deleted, site', hrun⟩ := exists_delete path.hash (s.1, ⟨[], []⟩)
  have hentry : s.1.index.nar record.narHash = some entry := by
    rw [hnarHash]
    exact hrow
  exact ⟨_, site', deleted, hsteps, hrun, not_invisible hrecord (by decide +kernel) hrecord'
    (hnarHash'.trans hnarHash.symm) hentry hrun⟩

/-- Of two paths with different contents, one can be deleted: the other, and its NAR, are there as
before. -/
theorem invisible_neighbours : ∃ (system : System ℕ (Shared ℕ)) (record other : NarInfo)
    (site' : Site) (deleted : Maintain.Deleted),
    System.Steps (Shared.machine frames) dir ⟨Shared.blank, none⟩ system
      ∧ system.shared.1.index.narinfo path.hash = some record
      ∧ system.shared.1.index.nar record.narHash = some entry
      ∧ system.shared.1.index.narinfo stranger = some other ∧ other.narHash ≠ record.narHash
      ∧ (Maintain.delete path.hash).run.Runs (step .fair) (system.shared.1, ⟨[], []⟩)
        (.ok deleted) site'
      ∧ site'.1.index.narinfo path.hash = none ∧ site'.1.index.narinfo stranger = some other
      ∧ Invisible cache path.hash system.shared.1 site'.1 := by
  obtain ⟨s, hs, hrows⟩ := Option.map_eq_some_iff.mp rows_neighbours
  obtain ⟨hkeys, hrest⟩ := Prod.mk.inj hrows
  obtain ⟨hrow, hrest⟩ := Prod.mk.inj hrest
  obtain ⟨hdeleted, hkept⟩ := Prod.mk.inj hrest
  obtain ⟨record, hrecord, hnarHash⟩ := Option.map_eq_some_iff.mp hdeleted
  obtain ⟨other, hother, hnarHash'⟩ := Option.map_eq_some_iff.mp hkept
  obtain ⟨threads, hsteps⟩ := steps_of_serveAll mem_frames hs
  obtain ⟨deleted, site', hrun⟩ := exists_delete path.hash (s.1, ⟨[], []⟩)
  have hdiffer : other.narHash ≠ record.narHash := by
    rw [hnarHash, hnarHash']
    decide
  have hentry : s.1.index.nar record.narHash = some entry := by
    rw [hnarHash]
    exact hrow
  have hgone : site'.1.index.narinfo path.hash = none := by
    rw [world_of_delete hrun]
    exact (Index.narinfo_unpublish _ _).trans (if_pos rfl)
  have hstays : site'.1.index.narinfo stranger = some other := by
    rw [world_of_delete hrun]
    exact (Index.narinfo_unpublish _ _).trans ((if_neg (by decide +kernel)).trans hother)
  refine ⟨_, record, other, site', deleted, hsteps, hrecord, hentry, hother, hdiffer, hrun, hgone,
    hstays, (invisible_iff hrun).mpr fun record' hrecord' ↦ .inr fun key' hkey other' hother' ↦ ?_⟩
  obtain rfl := Option.some.inj (hrecord.symm.trans hrecord')
  -- there is no third path
  have hlisted : key' ∈ s.1.index.narinfos.keys :=
    Finmap.mem_keys.mpr (Finmap.mem_of_lookup_eq_some hother')
  rw [hkeys, Finset.mem_insert, Finset.mem_singleton] at hlisted
  obtain rfl := hlisted.resolve_left hkey
  obtain rfl := Option.some.inj (hother.symm.trans hother')
  exact hdiffer

end Specimen

end Bincache
