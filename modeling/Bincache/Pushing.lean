import Bincache.Pull
import Bincache.Reads

/-!
# What comes of a push

A client pushes a NAR and then the record that describes it. Both are answered with success, however
the connection interleaves with others, if none of the operations made on its behalf fails; what
fails for the others does not matter. From then on the NAR is known, and at one moment before the
answer the record was what its path was listed with.
-/

namespace Bincache

/-! ## A connection for which nothing fails -/

/-- The machine, but that no operation of participant `i` fails. -/
def Machine.granting {ι S : Type} (machine : Machine ι S) (i : ι) : Machine ι S where
  perform key j op site answer site' :=
    machine.perform key j op site answer site' ∧ (j = i → op.Granted answer)
  restart := machine.restart

theorem System.Amid.of_granting {ι S : Type} [DecidableEq ι] [Crates] {machine : Machine ι S}
    {i : ι} {system system' : System ι S} (h : Amid (machine.granting i) i system system') :
    Amid machine i system system' := by
  cases h with
  | accept j hj peer' shard turns hdone => exact .accept j hj peer' shard turns hdone
  | turn hstep =>
    cases hstep with
    | turn j hthread hop => exact .turn (.turn j hthread hop.1)

theorem System.serves_of_granting {ι S : Type} [DecidableEq ι] [Crates] {machine : Machine ι S}
    (dir : Dir) {i : ι} {system system' : System ι S}
    (h : Relation.ReflTransGen (Amid (machine.granting i) i) system system') :
    Relation.ReflTransGen (Serves machine dir) system system' :=
  Relation.ReflTransGen.mono (fun _ _ h ↦ h.of_granting.serves) _ _ h

section

variable [Crates] {contents : Set Bytes} {dir : Dir} {ι : Type} [DecidableEq ι] {i : ι}
  {s : Shared ι} {server : Server ι} {system : System ι (Shared ι)} {peer : Peer}
  {exchange : Exchange} {past : List (System ι (Shared ι))}
  {g : Except Handler.Error (Http.KeepAlive × Connection) →
    Program Ans (Except Handler.Error Unit)}

namespace Cache

/-- The bytes that the peer is about to send are a NAR, which the target announces by its hash. -/
structure Sends (cache : Cache) (exchange : Exchange) (peer : Peer) (nar : Bytes) : Prop where
  method : exchange.request.method = .put
  route : Route.resolve exchange.request.target = .ok (.nar ⟨.digest nar, .none⟩)
  admitted : cache.admission exchange.request = .admitted
  nonempty : nar ≠ []
  body : ∃ rest, exchange.request.framing = .length nar.length
    ∧ exchange.connection.stream peer = nar ++ rest

theorem Sends.goes {cache : Cache} {nar : Bytes} (h : Sends cache exchange peer nar)
    (hencoder : Crates.EncoderSucceeds) (t : History) :
    Goes (cache.handle exchange).run (fun result peer' t' ↦ Welcomed exchange peer peer' result
      ∧ ∃ entry, t'.1.index.nar (.digest nar) = some entry ∧ (entry.narSize : ℕ) = nar.length)
      peer t := by
  obtain ⟨rest, hframing, hstream⟩ := h.body
  refine goes_handle hframing h.route fun t' _ ↦ ?_
  rw [dispatch, h.method]
  exact goes_receive hencoder h.admitted hframing rfl rfl h.nonempty hstream

theorem Offers.goes {cache : Cache} {declared : NarInfo} {entry : Entry}
    (h : Offers cache exchange peer declared) {t : History}
    (hrow : t.1.index.nar declared.narHash = some entry)
    (hsize : entry.narSize = declared.narSize) :
    Goes (cache.handle exchange).run (fun result peer' t' ↦ Welcomed exchange peer peer' result
      ∧ ∃ moment ∈ t'.2, moment.2.written = peer.written ++ invitation exchange
        ∧ ∃ entry, moment.1.index.narinfo declared.storePath.hash
          = some (cache.ingest.record declared entry)) peer t := by
  obtain ⟨key, hroute⟩ := h.route
  obtain ⟨text, rest, hframing, hstream, hlength, hparse⟩ := h.body
  refine goes_handle hframing hroute fun t' hlater ↦ ?_
  obtain ⟨entry', hrow', hsize'⟩ := hlater.1.nar declared.narHash entry hrow
  rw [dispatch, if_pos h.method]
  exact goes_publish h.admitted hframing hlength hstream hparse hrow' (hsize'.trans hsize)

end Cache

namespace Shared

open Cache

/-- At this moment the push is not answered yet, but what it declares is listed; and from now on
something is, as long as the server runs. -/
structure Enlisted (contents : Set Bytes) (dir : Dir) (i : ι) (exchange : Exchange) (peer : Peer)
    (declared : NarInfo) (moment : System ι (Shared ι)) : Prop where
  unanswered : ∃ server, moment.server = some server
    ∧ (server.threads i).1.written = peer.written ++ invitation exchange
  listed : ∃ record, moment.shared.view.narinfo declared.storePath.hash = some record
    ∧ Retains declared record
  stays : ∀ system, Relation.ReflTransGen (System.Serves (machine contents) dir) moment system →
    (system.shared.view.narinfo declared.storePath.hash).isSome

/-- What a program comes to for which nothing fails, it comes to in a server. -/
theorem finishes_of_goes {α : Type} {f : α → Program Ans (Except Handler.Error Unit)}
    {program : Program Ans α} {post : α → Peer → History → Prop}
    (hround : Crates.EncoderRoundTrips) (hverify : Crates.SignaturesVerify)
    (hfree : Crates.CollisionFree contents)
    (hnars : Crates.CollisionFree {nar | ∃ data ∈ contents, Crates.zstdDecode data = some nar})
    (hsteps : System.Steps (machine contents) dir ⟨blank, none⟩ ⟨s, some server⟩)
    (hthread : server.threads i = (peer, program >>= f))
    (hgoes : Goes program post peer (s.1, System.seen Prod.fst i [⟨s, some server⟩]))
    (hcourse : System.Course ((machine contents).granting i) i ⟨s, some server⟩ past system) :
    System.Finishes ((machine contents).granting i) i f program ⟨s, some server⟩
      (fun value peer' before mid ↦ post value peer'
        (mid.shared.1, System.seen Prod.fst i before)) past system := by
  refine System.finishes_of_course rfl hthread (fun value before mid hdone ↦ ?_) hcourse
  refine System.post_of_handles (fun hmid hnext ↦ ?_) (fun hop ↦ ⟨hop.1.1, hop.2 rfl⟩) rfl hthread
    hgoes hdone
  exact standing_of_serves hround hverify hfree hnars
    (hsteps.trans (steps_of_serves (System.serves_of_granting dir hmid)))
    (.single hnext.of_granting.serves)

variable (hround : Crates.EncoderRoundTrips) (hverify : Crates.SignaturesVerify)
  (hfree : Crates.CollisionFree contents)
  (hsteps : System.Steps (machine contents) dir ⟨blank, none⟩ ⟨s, some server⟩)
  (hthread : server.threads i = (peer, (server.cache.handle exchange).run >>= g))
  (hcourse : System.Course ((machine contents).granting i) i ⟨s, some server⟩ past system)

include hround hverify hfree hsteps hthread hcourse

/-- **A NAR that is pushed is received.** Whatever the other connections do meanwhile and whatever
fails for them, a push of a NAR for which nothing fails is answered with success, and the NAR is
known then. -/
theorem receives_of_steps (hencoder : Crates.EncoderSucceeds) {nar : Bytes}
    (hnars : Crates.CollisionFree
      (insert nar {nar | ∃ data ∈ contents, Crates.zstdDecode data = some nar}))
    (hsends : Sends server.cache exchange peer nar) :
    System.Finishes ((machine contents).granting i) i g (server.cache.handle exchange).run
      ⟨s, some server⟩ (fun result peer' _ mid ↦ Welcomed exchange peer peer' result
        ∧ mid.shared.view.known (.digest nar) = some nar) past system := by
  refine (finishes_of_goes hround hverify hfree (hnars.mono (Set.subset_insert _ _)) hsteps hthread
    (hsends.goes hencoder _) hcourse).imp ?_
  rintro result peer' before mid hmid ⟨hwelcomed, entry, hrow, hsize⟩
  have hreached := hsteps.trans (steps_of_serves (System.serves_of_granting dir hmid.amid))
  obtain ⟨data, nar', hnames⟩ := (order_of_steps hround hverify hfree hreached).consistent.entries
    (.digest nar) entry hrow
  obtain rfl : nar' = nar := Sha256.eq_of_digest_eq hnars
    (Set.mem_insert_of_mem _ (hnames.mem_nars (encoded_of_steps hreached))) (Set.mem_insert _ _)
    hnames.narHash
  exact ⟨hwelcomed, View.known_eq_some.mpr ⟨entry, hrow, hnames.decoded⟩⟩

omit hthread hcourse in
private theorem row_of_known {narHash : Sha256} {nar : Bytes}
    (hknown : s.view.known narHash = some nar) :
    ∃ entry, s.1.index.nar narHash = some entry ∧ (entry.narSize : ℕ) = nar.length := by
  obtain ⟨entry, hrow, hdecoded⟩ := View.known_eq_some.mp hknown
  obtain ⟨data, nar', hnames⟩ :=
    (order_of_steps hround hverify hfree hsteps).consistent.entries narHash entry hrow
  obtain rfl : nar' = nar := Option.some.inj (hnames.decoded.symm.trans hdecoded)
  exact ⟨entry, hrow, hnames.narSize.symm⟩

/-- **A record that is pushed is published.** Of a NAR that is known, a push of a record for which
nothing fails is answered with success. At one moment of this run, before the answer, what it
declares is what its path is listed with, and something is listed from that moment on. -/
theorem publishes_of_steps
    (hnars : Crates.CollisionFree {nar | ∃ data ∈ contents, Crates.zstdDecode data = some nar})
    {declared : NarInfo} {nar : Bytes} (hoffers : Offers server.cache exchange peer declared)
    (hknown : s.view.known declared.narHash = some nar) (hsize : nar.length = declared.narSize) :
    System.Finishes ((machine contents).granting i) i g (server.cache.handle exchange).run
      ⟨s, some server⟩ (fun result peer' before _ ↦ Welcomed exchange peer peer' result
        ∧ ∃ moment ∈ before, Enlisted contents dir i exchange peer declared moment)
      past system := by
  obtain ⟨entry, hrow, hentry⟩ := row_of_known hround hverify hfree hsteps hknown
  refine (finishes_of_goes hround hverify hfree hnars hsteps hthread
    (hoffers.goes hrow (PNat.coe_injective (hentry.trans hsize))) hcourse).imp ?_
  rintro result peer' before mid hmid ⟨hwelcomed, _, ⟨moment, hmoment, server', hserver, rfl⟩,
    hwritten, entry', hrecord⟩
  refine ⟨hwelcomed, moment, hmoment, ⟨server', hserver, hwritten⟩,
    ⟨_, hrecord, rfl, rfl, rfl, rfl, rfl, rfl⟩, fun system hserves ↦ ?_⟩
  have hreached := hsteps.trans
    (steps_of_serves (System.serves_of_granting dir (hmid.between hmoment).1))
  exact (standing_of_serves hround hverify hfree hnars hreached hserves).narinfo _
    (Option.isSome_iff_exists.mpr ⟨_, hrecord⟩)

end Shared

end

section Specimen

open Specimen Shared Cache

namespace Specimen

/-- Performs an operation the way `plain` says, if it does not fail. -/
def grant {ι : Type} (i : ι) (op : Op) (site : Shared ι × Peer) :
    Option (Ans op × Shared ι × Peer) :=
  (attempt [frame nar] plain key i op site).filter fun after ↦ op.Granted after.1

theorem runs_of_grant {ι α : Type} {program : Program Ans α} {i : ι}
    {site site' : Shared ι × Peer} {value : α}
    (h : program.evaluate (grant i) site = some (value, site')) :
    program.Runs (((machine {frame nar}).granting i).perform key i) site value site' := by
  refine Program.runs_of_evaluate (fun op site answer site' hop ↦ ?_) h
  obtain ⟨hattempt, hgranted⟩ := Option.filter_eq_some_iff.mp hop
  exact ⟨step_of_attempt mem_frame trivial hattempt, fun _ ↦ of_decide_eq_true hgranted⟩

/-- A push to the cache, whose connection has nothing more to send than this body. -/
def push (target : Text) (body : Bytes) : Exchange :=
  ⟨0, ⟨body⟩, { request .put target (.length body.length) with
    authorization := some "Bearer t".toList }⟩

/-- Where the NAR is pushed to. -/
def narTarget : Text := "/nar/".toList ++ digits ++ ".nar".toList

/-- How a server that has served `unread` begins to answer when this is pushed. -/
def pushed (unread : List Bytes) (target : Text) (body : Bytes) : Option Bytes :=
  (serveAll [frame nar] plain cache 7 unread blank).bind fun s ↦
    ((cache.handle (push target body)).run.evaluate (grant 0) (s, ⟨[], []⟩)).map
      fun (_, _, peer) ↦ peer.written.take 12

theorem exists_pushed {unread : List Bytes} {bytes : Bytes} {len : ℕ} {target : Text}
    {body : Bytes} {line : Bytes} (hlen : Http.headLen bytes = some len)
    (hparse : Http.parse (bytes.take len) = .ok (push target body).request)
    (hbody : bytes.drop len = body) (hline : pushed unread target body = some line) :
    ∃ s server g past system, serveAll [frame nar] plain cache 7 unread blank = some s
      ∧ System.Steps (machine {frame nar}) dir ⟨blank, none⟩ ⟨s, some server⟩
      ∧ server.cache = cache
      ∧ server.threads 0 = (⟨[], []⟩, (server.cache.handle (push target body)).run >>= g)
      ∧ System.Course ((machine {frame nar}).granting 0) 0 ⟨s, some server⟩ past system
      ∧ ∃ server' peer result, system.server = some server' ∧ server'.threads 0 = (peer, g result)
        ∧ peer.written.take 12 = line := by
  obtain ⟨s, hserve, hrest⟩ := Option.bind_eq_some_iff.mp hline
  obtain ⟨⟨result, s', peer⟩, hrun, hwritten⟩ := Option.map_eq_some_iff.mp hrest
  obtain ⟨booted, threads, hsteps, -, hdone, hserves⟩ := serves_of_serveAll mem_frame hserve
  obtain ⟨before, previous, hprevious⟩ := hdone 0
  have hserved : System.Steps (machine {frame nar}) dir booted ⟨s, some ⟨cache, threads⟩⟩ :=
    Relation.ReflTransGen.mono (fun _ _ h ↦ h.2.2) _ _ hserves
  obtain ⟨g, hrequest⟩ : ∃ g, System.Steps (machine {frame nar}) dir ⟨s, some ⟨cache, threads⟩⟩
      ⟨s, some ⟨cache, Function.update threads 0 (⟨[], []⟩,
        (cache.handle ⟨0, ⟨bytes.drop len⟩, (push target body).request⟩).run >>= g)⟩⟩ :=
    steps_of_request hprevious hlen hparse 0
  rw [hbody] at hrequest
  let server : Server ℕ := ⟨cache, Function.update threads 0
    (⟨[], []⟩, (cache.handle (push target body)).run >>= g)⟩
  have hthread : server.threads 0 = (⟨[], []⟩, (cache.handle (push target body)).run >>= g) := by
    dsimp only [server]
    rw [Function.update_self]
  have hstart : System.Handles ((machine {frame nar}).granting 0) 0 g
      (cache.handle (push target body)).run ⟨s, some server⟩ [⟨s, some server⟩]
      (cache.handle (push target body)).run ⟨s, some server⟩ := .start
  obtain ⟨more, hhandled⟩ := hstart.runs hthread (runs_of_grant hrun)
  refine ⟨s, server, g, _, _, hserve, (hsteps.trans hserved).trans hrequest, rfl, hthread,
    hhandled.course, _, peer, result, rfl, ?_, hwritten⟩
  dsimp only
  rw [Function.update_self]

theorem pushed_nar : pushed [] narTarget nar = some (Text.utf8 "HTTP/1.1 201".toList) := by
  decide +kernel

theorem pushed_record : pushed [upload] home (Text.utf8 body)
    = some (Text.utf8 "HTTP/1.1 201".toList) := by
  simp only [pushed, serveAll, serveEach, Cache.session, Cache.turn, Cache.attend, Cache.handle,
    Cache.dispatch, Cache.publish, Http.parse, Text.fromUtf8_eq_decode]
  decide +kernel

theorem headLen_upload : Http.headLen upload = some 122 := by decide +kernel

theorem parse_upload : Http.parse (upload.take 122) = .ok (push narTarget nar).request := by
  rw [Http.parse, Text.fromUtf8_eq_decode]
  decide +kernel

def publishing : Bytes := publication stem body

theorem headLen_publishing : Http.headLen publishing = some 104 := by decide +kernel

theorem parse_publishing : Http.parse (publishing.take 104)
    = .ok (push home (Text.utf8 body)).request := by
  rw [Http.parse, Text.fromUtf8_eq_decode]
  decide +kernel

theorem sends_nar (peer : Peer) : Sends cache (push narTarget nar) peer nar where
  method := rfl
  route := by decide +kernel
  admitted := by decide +kernel
  nonempty := by decide
  body := ⟨peer.unread, rfl, rfl⟩

theorem offers_record (peer : Peer) :
    Offers cache (push home (Text.utf8 body)) peer declared where
  method := rfl
  route := ⟨path.hash, by decide +kernel⟩
  admitted := by decide +kernel
  body := ⟨body, peer.unread, rfl, rfl, by decide +kernel, parse_body⟩

end Specimen

/-- The NAR is pushed to a server that has just started. -/
theorem receives_first : ∃ (s : Shared ℕ) (server : Server ℕ)
    (past : List (System ℕ (Shared ℕ))) (system : System ℕ (Shared ℕ))
    (g : Except Handler.Error (Http.KeepAlive × Connection) →
      Program Ans (Except Handler.Error Unit)),
    (∃ server' peer result, system.server = some server' ∧ server'.threads 0 = (peer, g result)
      ∧ peer.written.take 12 = Text.utf8 "HTTP/1.1 201".toList)
    ∧ System.Finishes ((machine {frame nar}).granting 0) 0 g
      (server.cache.handle (push narTarget nar)).run ⟨s, some server⟩ (fun result peer' _ mid ↦
        Welcomed (push narTarget nar) ⟨[], []⟩ peer' result
          ∧ mid.shared.view.known (.digest nar) = some nar) past system := by
  obtain ⟨s, server, g, past, system, -, hsteps, hcache, hthread, hcourse, hanswered⟩ :=
    exists_pushed headLen_upload parse_upload (by decide) pushed_nar
  exact ⟨s, server, past, system, g, hanswered, receives_of_steps encoderRoundTrips signaturesVerify
    collisionFree_frame hsteps hthread hcourse encoderSucceeds collisionFree_nars
    (hcache ▸ sends_nar _)⟩

/-- Then its record is. -/
theorem publishes_first : ∃ (s : Shared ℕ) (server : Server ℕ)
    (past : List (System ℕ (Shared ℕ))) (system : System ℕ (Shared ℕ))
    (g : Except Handler.Error (Http.KeepAlive × Connection) →
      Program Ans (Except Handler.Error Unit)),
    (∃ server' peer result, system.server = some server' ∧ server'.threads 0 = (peer, g result)
      ∧ peer.written.take 12 = Text.utf8 "HTTP/1.1 201".toList)
    ∧ System.Finishes ((machine {frame nar}).granting 0) 0 g
      (server.cache.handle (push home (Text.utf8 body))).run ⟨s, some server⟩
      (fun result peer' before _ ↦
        Welcomed (push home (Text.utf8 body)) ⟨[], []⟩ peer' result
          ∧ ∃ moment ∈ before, Enlisted {frame nar} dir 0 (push home (Text.utf8 body))
            ⟨[], []⟩ declared moment) past system := by
  obtain ⟨s, server, g, past, system, hfirst, hsteps, hcache, hthread, hcourse, hanswered⟩ :=
    exists_pushed headLen_publishing parse_publishing (by decide +kernel) pushed_record
  obtain ⟨s', hs', hknown⟩ := Option.bind_eq_some_iff.mp known_first
  obtain rfl : s' = s := Option.some.inj (hs'.symm.trans hfirst)
  exact ⟨s', server, past, system, g, hanswered, publishes_of_steps encoderRoundTrips
    signaturesVerify collisionFree_frame hsteps hthread hcourse
    (collisionFree_nars.mono (Set.subset_insert _ _)) (hcache ▸ offers_record _) hknown rfl⟩

end Specimen

end Bincache
