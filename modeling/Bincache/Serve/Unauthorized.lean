import Bincache.Serve.Exchanges
import Bincache.Serve.Quiet
import Bincache.Specimen

/-!
# Clients that may not write

Requests in a row, none of which carries a configured token. Each is answered with operations that
leave the index and the files alone, no body is invited, and every `PUT` that found a route is
turned away before its body is looked at.
-/

namespace Bincache

namespace Cache

open Handler Response

section Denied

variable [Crates] {env : Env} {cache : Cache} {exchange : Exchange} {site : Site}

/-! ## Who may write -/

/-- The credential of a request, if it carries one. -/
def presented (request : Http.Request) : Option Text :=
  request.authorization.bind credential

theorem admission_eq_denied {tokens : List Text} (htokens : cache.tokens = .new tokens)
    {request : Http.Request}
    (h : ∀ credential, presented request = some credential → ∀ token ∈ tokens,
      Sha256.digest (Text.utf8 credential) ≠ Sha256.digest (Text.utf8 token)) :
    cache.admission request = .denied := by
  rw [admission]
  split
  · next credential hcredential =>
    cases hadmits : cache.tokens.admits credential with
    | denied => rfl
    | admitted =>
      rw [Tokens.admits_eq_admitted, htokens, Tokens.new, List.mem_map] at hadmits
      obtain ⟨token, htoken, hdigest⟩ := hadmits
      exact absurd hdigest.symm (h credential hcredential token htoken)
  · rfl

/-! ## Requests that are turned away -/

/-- A `PUT` that the router takes for a NAR or a narinfo. -/
def Pushes (request : Http.Request) : Prop :=
  request.method = .put ∧ ∃ route, Route.resolve request.target = .ok route
    ∧ route ≠ .cacheInfo ∧ route ≠ .metrics

omit [Crates] in
/-- How a push is turned away. -/
def turnedAway (framing : Http.Framing) : Status :=
  if framing = .chunked then .notImplemented else .unauthorized

theorem ends_handle_of_denied (hdenied : cache.admission exchange.request = .denied)
    (hpushes : Pushes exchange.request) (site : Site) :
    Ends env (cache.handle exchange).run (fun result peer world ↦
      Says env site (bareMessage (turnedAway exchange.request.framing) (keepAlive exchange .unread))
        (result.map Prod.fst) peer world) site := by
  obtain ⟨hput, route, hroute, hinfo, hmetrics⟩ := hpushes
  have hanswer : ∀ status world, Steady site.1 world →
      Ends env ((fun keepAlive ↦ (keepAlive, exchange.connection)) <$>
        answer exchange status .unread).run (fun result peer world ↦
          Says env site (bareMessage status (keepAlive exchange .unread)) (result.map Prod.fst) peer
            world) (world, site.2) := by
    intro status world hsteady
    refine Attempt.safe_map ((ends_answer (world, site.2)).imp ?_)
    rintro (error | keepAlive) peer world' - hmessage <;> exact hmessage.of_steady hsteady
  refine Attempt.safe_bind ((ends_bump _ _ _ site).imp ?_)
  rintro _ peer world - ⟨rfl, rfl, hsteady⟩
  dsimp only
  rw [turnedAway]
  split
  · exact hanswer _ world hsteady
  · -- Both handlers that take a push turn it away in the same words.
    have hrefused : cache.dispatch exchange route = (do
        bump exchange.shard .rejections 1
        (fun keepAlive ↦ (keepAlive, exchange.connection)) <$>
          answer exchange .unauthorized .unread) := by
      cases route with
      | cacheInfo => exact absurd rfl hinfo
      | metrics => exact absurd rfl hmetrics
      | narinfo key => rw [dispatch, if_pos hput, publish_of_denied cache hdenied]
      | nar url =>
        rw [dispatch, hput]
        exact receive_of_denied cache hdenied url
    rw [hroute]
    dsimp only
    rw [hrefused]
    refine Attempt.safe_bind ((ends_bump _ _ _ (world, site.2)).imp ?_)
    rintro _ peer world₂ - ⟨rfl, rfl, hsteady₂⟩
    exact hanswer _ world₂ (hsteady.trans hsteady₂)

/-! ## Requests in a row -/

/-- A request that was handed to the cache, with its socket before and after. -/
structure Service where
  exchange : Exchange
  before : Peer
  result : Except Handler.Error (Http.KeepAlive × Connection)
  after : Peer

/-- The cache handles these requests one after another. -/
inductive Serves (env : Env) (cache : Cache) : World → List Service → World → Prop
  | nil (world : World) : Serves env cache world [] world
  | cons {service : Service} {services : List Service} {world world₁ world' : World}
    (hrun : (cache.handle service.exchange).run.Runs (step env) (world, service.before)
      service.result (world₁, service.after))
    (hrest : Serves env cache world₁ services world') :
    Serves env cache world (service :: services) world'

/-- What is digested to decide who may write. -/
def credentials (tokens : List Text) (services : List Service) : Set Bytes :=
  {bytes | ∃ credential, bytes = Text.utf8 credential ∧ (credential ∈ tokens
    ∨ ∃ service ∈ services, presented service.exchange.request = some credential)}

/-- One final response was written, or a part of one that failed. -/
structure Uninvited (service : Service) (said : Bytes) (message : Message) : Prop where
  written : service.after.written = service.before.written ++ said
  final : message.reply.Final
  begins : said <+: message.bytes
  complete : ∀ value, service.result = .ok value → said = message.bytes
  uninvited : ¬interim <+: said
  status : Pushes service.exchange.request →
    message.reply.status = turnedAway service.exchange.request.framing

/-- Nothing was stored, and nobody was invited to send a body. -/
structure Inert (world : World) (services : List Service) (world' : World) : Prop where
  index : world'.index = world.index
  fs : world'.fs = world.fs
  uninvited : ∀ service ∈ services, ∃ said message, Uninvited service said message

omit [Crates] in
private theorem not_interim_of_isPrefix {said : Bytes} {message : Message}
    (hfinal : message.reply.Final) (hsaid : said <+: message.bytes) : ¬interim <+: said :=
  fun h ↦ Reply.not_interim_isPrefix hfinal message.body (h.trans hsaid)

/-- The answer to one request whose client may not write. -/
theorem exists_uninvited {service : Service} {world world' : World}
    (hdenied : cache.admission service.exchange.request = .denied)
    (hrun : (cache.handle service.exchange).run.Runs (step env) (world, service.before)
      service.result (world', service.after)) :
    ∃ said message, Uninvited service said message := by
  by_cases hpushes : Pushes service.exchange.request
  · obtain ⟨-, -, hresult⟩ := (ends_handle_of_denied hdenied hpushes _).runs hrun
    have hstatus : turnedAway service.exchange.request.framing ≠ .continue := by
      rw [turnedAway]
      split <;> exact Status.noConfusion
    have hfinal := (whole_bareMessage hstatus .put (keepAlive service.exchange .unread)).final
    cases hvalue : service.result with
    | error error =>
      rw [hvalue] at hresult
      obtain ⟨-, said, hsaid, hwritten⟩ := hresult
      refine ⟨said, _, hwritten, hfinal, hsaid, fun _ h ↦ ?_, not_interim_of_isPrefix hfinal hsaid,
        fun _ ↦ rfl⟩
      cases hvalue.symm.trans h
    | ok value =>
      rw [hvalue] at hresult
      exact ⟨_, _, hresult.2, hfinal, List.prefix_rfl, fun _ _ ↦ rfl,
        not_interim_of_isPrefix hfinal List.prefix_rfl, fun _ ↦ rfl⟩
  · obtain ⟨invited, message, said, hinvited, hwritten, hfinal, -, hresult⟩ :=
      (concludes_handle _).runs hrun
    -- only an admitted push is invited to send its body
    obtain rfl : invited = [] := hinvited.resolve_right fun h ↦ by
      exact Admission.noConfusion (hdenied.symm.trans h.2.2.2)
    have hsaid : said <+: message.bytes := by
      cases hvalue : service.result with
      | error error =>
        rw [hvalue] at hresult
        exact hresult.2
      | ok value =>
        rw [hvalue] at hresult
        exact hresult.2.1 ▸ List.prefix_rfl
    refine ⟨said, message, hwritten, hfinal, hsaid, fun value hvalue ↦ ?_,
      not_interim_of_isPrefix hfinal hsaid, fun h ↦ absurd h hpushes⟩
    rw [hvalue] at hresult
    exact hresult.2.1

/-- Requests whose clients may not write leave everything as it was. -/
theorem inert_of_denied {services : List Service} {world world' : World}
    (hserves : Serves env cache world services world')
    (hdenied : ∀ service ∈ services, cache.admission service.exchange.request = .denied) :
    Inert world services world' := by
  induction hserves with
  | nil world => exact ⟨rfl, rfl, fun _ h ↦ absurd h List.not_mem_nil⟩
  | @cons service services world world₁ world' hrun hrest ih =>
    have hfirst := hdenied service List.mem_cons_self
    obtain ⟨hindex, hfs, huninvited⟩ := ih fun s hs ↦ hdenied s (List.mem_cons_of_mem _ hs)
    let inv : Site → Prop := fun site ↦ Steady world site.1
    have hstep : ∀ op site answer site', op.Quiet → inv site → step env op site answer site' →
        inv site' := fun op site answer site' hquiet hs hop ↦ hs.trans (steady_of_quiet hquiet hop)
    obtain ⟨stats, hworld⟩ : Steady world world₁ :=
      (quiet_handle cache fun _ ↦ hfirst).runs hstep (s := (world, service.before))
        (steady_refl world) hrun
    subst hworld
    refine ⟨hindex, hfs, fun s hs ↦ ?_⟩
    obtain rfl | hs := List.mem_cons.mp hs
    · exact exists_uninvited hfirst hrun
    · exact huninvited s hs

/-- Without a configured token nothing changes and nobody is invited; with no token configured, that
is so for all requests. -/
theorem inert_of_no_token {tokens : List Text} (htokens : cache.tokens = .new tokens)
    {services : List Service} {world world' : World}
    (hserves : Serves env cache world services world') :
    (Crates.CollisionFree (credentials tokens services) →
      (∀ service ∈ services, ∀ credential, presented service.exchange.request = some credential →
        credential ∉ tokens) → Inert world services world')
    ∧ (tokens = [] → Inert world services world') := by
  constructor
  · intro hcollision hnone
    -- a token that is admitted has the digest of a configured one
    refine inert_of_denied hserves fun service hservice ↦ admission_eq_denied htokens ?_
    intro credential hcredential token htoken hdigest
    have := Sha256.eq_of_digest_eq hcollision
      ⟨credential, rfl, .inr ⟨service, hservice, hcredential⟩⟩ ⟨token, rfl, .inl htoken⟩ hdigest
    exact hnone service hservice credential hcredential (Text.utf8_injective this ▸ htoken)
  · rintro rfl
    refine inert_of_denied hserves fun service _ ↦ admission_eq_denied htokens ?_
    exact fun _ _ _ h ↦ absurd h List.not_mem_nil

end Denied

section

open Specimen

/-- A publish with the wrong token. -/
private def intruder : Exchange where
  shard := 0
  connection := {}
  request := { request .put "/00000000000000000000000000000000.narinfo".toList (.length 1) with
    authorization := some "Bearer u".toList, expectation := .continue }

private theorem presented_intruder : presented intruder.request = some ['u'] := by decide

/-- The wrong token changes nothing. -/
theorem inert_intruder : ∃ service world',
    service.exchange.request.authorization = some "Bearer u".toList
      ∧ Serves .fair cache (world uploaded .empty) [service] world'
      ∧ Inert (world uploaded .empty) [service] world' := by
  obtain ⟨result, ⟨world', after⟩, hrun⟩ :=
    exists_runs_fair (cache.handle intruder).run (world uploaded .empty, ⟨[0], []⟩)
  let service : Service := ⟨intruder, ⟨[0], []⟩, result, after⟩
  have hserves : Serves .fair cache (world uploaded .empty) [service] world' :=
    .cons hrun (.nil world')
  have htokens : cache.tokens = .new [token] := rfl
  refine ⟨service, world', rfl, hserves, (inert_of_no_token htokens hserves).1 ?_ ?_⟩
  · have hcredentials : ∀ bytes ∈ credentials [token] [service], bytes = [116] ∨ bytes = [117] := by
      rintro bytes ⟨credential, rfl, htoken | ⟨s, hs, hpresented⟩⟩
      · rw [List.mem_singleton.mp htoken]
        exact .inl (by decide)
      · rw [List.mem_singleton.mp hs] at hpresented
        rw [← Option.some.inj (presented_intruder.symm.trans hpresented)]
        exact .inr (by decide)
    intro a ha b hb hab
    obtain rfl | rfl := hcredentials a ha <;> obtain rfl | rfl := hcredentials b hb
    · rfl
    · exact absurd hab (by decide)
    · exact absurd hab (by decide)
    · rfl
  · intro s hs credential hcredential
    rw [List.mem_singleton.mp hs] at hcredential
    rw [← Option.some.inj (presented_intruder.symm.trans hcredential)]
    decide

end

end Cache

end Bincache
