import Bincache.Changes
import Bincache.Convergence
import Bincache.Serve.Books

/-!
# What the metrics mean

A server that keeps a journal of what its connections do, in the order in which they do it, does
nothing else differently: every life of the cache is one with a journal. Read beside the journal,
the counters are what was done. Each is, up to a multiple of `2 ^ 64`, the sum of what was added to
it; no shard has more outcomes than requests; records found and missed and rows written are counted
once each, at once, so that nothing is missing when no connection is being served; and payload is
never counted that was not sent.
-/

namespace Bincache

open Journal (own)

/-! ## Journals of servers -/

/-- The machine with a journal, which every process begins anew. -/
def Machine.journaled {ι S : Type} (machine : Machine ι S) : Machine ι (S × Journal Ans ι) where
  perform key := Journal.keeping (machine.perform key)
  restart pid s := (machine.restart pid s.1, [])

def System.beside {ι S : Type} (system : System ι S) (journal : Journal Ans ι) :
    System ι (S × Journal Ans ι) :=
  ⟨(system.shared, journal), system.server⟩

namespace Machine

variable [Crates] {ι S : Type} [DecidableEq ι] {machine : Machine ι S} {dir : Dir}
  {system system' : System ι S}

/-- The same state, beside some journal. -/
structure Noted {ι S : Type} (site : S × Peer) (noted : (S × Journal Ans ι) × Peer) : Prop where
  shared : noted.1.1 = site.1
  peer : noted.2 = site.2

theorem exists_steps_journaled (journal : Journal Ans ι)
    (hsteps : System.Steps machine dir system system') :
    ∃ journal', System.Steps machine.journaled dir (system.beside journal)
      (system'.beside journal') := by
  induction hsteps with
  | refl => exact ⟨journal, .refl⟩
  | @tail before after _ hstep ih =>
    obtain ⟨journal₁, hsteps⟩ := ih
    suffices h : ∃ journal', System.Step machine.journaled dir (before.beside journal₁)
        (after.beside journal') by
      obtain ⟨journal', hstep'⟩ := h
      exact ⟨journal', hsteps.tail hstep'⟩
    have hnoted : ∀ (s : S) (p : Peer), Noted (s, p) ((s, ([] : Journal Ans ι)), p) :=
      fun _ _ ↦ ⟨rfl, rfl⟩
    have hkeeps : ∀ key i op (site : S × Peer) (noted : (S × Journal Ans ι) × Peer) answer site',
        Noted site noted → machine.perform key i op site answer site' →
        ∃ noted', machine.journaled.perform key i op noted answer noted' ∧ Noted site' noted' := by
      rintro key i op site ⟨⟨s, journal⟩, p⟩ answer site' ⟨rfl, rfl⟩ hop
      exact ⟨((site'.1, journal ++ [(i, ⟨op, answer⟩)]), site'.2), ⟨hop, rfl⟩, rfl, rfl⟩
    cases hstep with
    | @boot s s' peer peer' cache pid i hdir hrun =>
      obtain ⟨⟨⟨_, journal'⟩, _⟩, hrun', rfl, rfl⟩ := hrun.simulate (hkeeps _ _) (hnoted _ _)
      exact ⟨journal', .boot cache pid i hdir hrun'⟩
    | accept i peer' shard turns hdone => exact ⟨journal₁, .accept i peer' shard turns hdone⟩
    | @turn s s' server threads hstep =>
      cases hstep with
      | @turn l l' s' op next answer i hthread hop =>
        exact ⟨journal₁ ++ [(i, ⟨op, answer⟩)], .turn (.turn i hthread ⟨hop, rfl⟩)⟩
    | kill => exact ⟨journal₁, .kill⟩
    | @command s s' peer peer' command secret pid i hvisit =>
      obtain ⟨⟨⟨_, journal'⟩, _⟩, hvisit', rfl, rfl⟩ :=
        hvisit.simulate (hkeeps _ _) (hnoted _ _)
      exact ⟨journal', .command command secret pid i hvisit'⟩

end Machine

/-! ## Counters are sums -/

def Totals.count (totals : Totals) : Counter → ℕ
  | .requests => totals.requests
  | .metadataHits => totals.metadataHits
  | .metadataMisses => totals.metadataMisses
  | .payloadBytes => totals.payloadBytes
  | .uploads => totals.uploads
  | .rejections => totals.rejections

theorem Totals.count_bump (totals : Totals) (counter counter' : Counter) (amount : ℕ) :
    (totals.bump counter amount).count counter'
      = if counter = counter' then (totals.count counter + amount) % 2 ^ 64
        else totals.count counter' := by
  cases counter <;> cases counter' <;> rfl

theorem stats_of_step {env : Env} {op : Op} {world : World} {peer : Peer} {site : Site}
    {answer : Ans op} (hplain : ∀ shard counter amount, op ≠ .bump shard counter amount)
    (hop : step env op (world, peer) answer site) : site.1.stats = world.stats := by
  cases op with
  | index op =>
    obtain ⟨-, -, rfl⟩ | ⟨-, rfl⟩ := of_step_index hop
    · rfl
    · rfl
  | file op =>
    obtain ⟨_, _, rfl, -⟩ := of_step_file hop
    rfl
  | recv =>
    obtain ⟨-, -, rfl⟩ | ⟨_, -, rfl⟩ := of_step_recv hop
    · rfl
    · rfl
  | send bytes =>
    obtain ⟨-, -, _, rfl⟩ | ⟨-, rfl⟩ := of_step_send hop
    · rfl
    · rfl
  | processId => rw [(of_step_processId hop).2]
  | nextOrdinal => rw [(of_step_nextOrdinal hop).2]
  | bump shard counter amount => exact absurd rfl (hplain shard counter amount)
  | totals shards => rw [(of_step_totals hop).2]

/-- Each counter is the sum of what these deeds added to it. -/
def Tallied (world : World) (deeds : List (Deed Ans)) : Prop :=
  ∀ shard counter,
    (world.stats shard).count counter = tally (addsOn shard counter) deeds % 2 ^ 64

theorem Tallied.step {env : Env} {op : Op} {world : World} {peer : Peer} {site : Site}
    {answer : Ans op} {deeds : List (Deed Ans)} (h : Tallied world deeds)
    (hop : Bincache.step env op (world, peer) answer site) :
    Tallied site.1 (deeds ++ [⟨op, answer⟩]) := by
  intro shard counter
  rw [tally_concat]
  by_cases hbump : ∃ shard' counter' amount, op = .bump shard' counter' amount
  · obtain ⟨shard', counter', amount, rfl⟩ := hbump
    rw [of_step_bump hop, World.bump, addsOn]
    dsimp only
    by_cases hshard : shard' = shard
    · subst hshard
      rw [Function.update_self, Totals.count_bump]
      by_cases hcounter : counter' = counter
      · subst hcounter
        rw [if_pos rfl, if_pos ⟨rfl, rfl⟩, h shard' counter', Nat.mod_add_mod]
      · rw [if_neg hcounter, if_neg fun hsame ↦ hcounter hsame.2]
        exact h shard' counter
    · rw [Function.update_of_ne (Ne.symm hshard), if_neg fun hsame ↦ hshard hsame.1]
      exact h shard counter
  · have hplain : ∀ shard counter amount, op ≠ .bump shard counter amount :=
      fun shard' counter' amount heq ↦ hbump ⟨shard', counter', amount, heq⟩
    have hadds : addsOn shard counter ⟨op, answer⟩ = 0 := by
      cases op with
      | bump shard' counter' amount => exact absurd rfl (hplain shard' counter' amount)
      | _ => rfl
    rw [stats_of_step hplain hop, hadds]
    exact h shard counter

/-- What was done explains the counters. -/
structure Accounts (world : World) (deeds : List (Deed Ans)) : Prop where
  counters : Tallied world deeds
  /-- No more outcomes are counted than requests. -/
  outcomes : ∀ shard, tally (settlesOn shard) deeds ≤ tally (addsOn shard .requests) deeds
  /-- No hit, miss or upload is counted that did not happen. -/
  lookups : ∀ counter : Counter, counter.Outcome → counter ≠ .rejections →
    tally (adds counter) deeds ≤ tally (earns counter) deeds
  /-- No payload is counted that was not sent. -/
  payload : tally (adds .payloadBytes) deeds ≤ tally (earns .payloadBytes) deeds

/-! ## In every state of every life -/

namespace Shared

variable {ι : Type}

theorem tallied_restart (pid : ℕ) (s : Shared ι) : Tallied (restart pid s).1 [] := by
  intro shard counter
  cases counter <;> rfl

variable {contents : Set Bytes} {dir : Dir}

/-- The counters of a running server are what its journal says, and its connections go on as they
are to. -/
structure Audited [DecidableEq ι] (s : Shared ι) (journal : Journal Ans ι) (server : Server ι) :
    Prop where
  tallied : Tallied s.1 journal.deeds
  minds : Minds bookkeeping .nothing (fun _ due ↦ due.Settled) journal server.threads

private theorem deeds_concat (journal : Journal Ans ι) (i : ι) (deed : Deed Ans) :
    Journal.deeds (journal ++ [(i, deed)]) = journal.deeds ++ [deed] := by
  rw [Journal.deeds, List.map_append]
  rfl

theorem tallied_of_step {key : SecretKey} {i : ι} {op : Op} {answer : Ans op}
    {site site' : (Shared ι × Journal Ans ι) × Peer}
    (h : Tallied site.1.1.1 site.1.2.deeds)
    (hop : (machine contents).journaled.perform key i op site answer site') :
    Tallied site'.1.1.1 site'.1.2.deeds := by
  obtain ⟨⟨hstep, -, -⟩, hjournal⟩ := hop
  rw [hjournal, deeds_concat]
  exact h.step hstep

theorem uncounted_of_starting {op : Op} (h : op.Starting) : op.Uncounted := by
  cases op with
  | index op => cases op <;> first | exact h.elim | trivial
  | bump shard counter amount => exact h.elim
  | _ => trivial

variable [DecidableEq ι]

theorem audited_of_boot {cache : Cache} {pid : ℕ} {i : ι} {s s' : Shared ι} {peer peer' : Peer}
    {journal : Journal Ans ι}
    (hrun : Boot.serve.run.Runs ((machine contents).journaled.perform cache.ingest.key i)
      ((restart pid s, []), peer) (.ok ()) ((s', journal), peer')) :
    Audited s' journal ⟨cache, System.idle⟩ := by
  constructor
  · let P (site : (Shared ι × Journal Ans ι) × Peer) : Prop :=
      Tallied site.1.1.1 site.1.2.deeds
    have hstart : P ((restart pid s, []), peer) := tallied_restart pid s
    have hkeeps : ∀ op site answer site', True → P site →
        (machine contents).journaled.perform cache.ingest.key i op site answer site' → P site' :=
      fun _ _ _ _ _ h hop ↦ tallied_of_step h hop
    have hend : P ((s', journal), peer') :=
      (Program.uses_any Boot.serve.run).runs hkeeps hstart hrun
    exact hend
  · have huncounted := starting_serve.imp fun _ ↦ uncounted_of_starting
    have hempty : bookkeeping.Leads .nothing (own i ([] : Journal Ans ι)) .nothing := .nil
    obtain ⟨⟨due, rfl, hleads⟩, hothers⟩ := (follows_nothing huncounted).runs_keeping hempty hrun
    intro j
    refine ⟨.nothing, ?_, trivial⟩
    by_cases hj : j = i
    · subst hj
      exact hleads
    · have hown : own j journal = [] := hothers j hj
      rw [hown]
      exact .nil

theorem Audited.accept [Crates] {s : Shared ι} {journal : Journal Ans ι} {server : Server ι}
    (h : Audited s journal server) {i : ι} {peer peer' : Peer} {shard turns : ℕ}
    {result : Except Handler.Error Unit} (hdone : server.threads i = (peer, .done result)) :
    Audited s journal { server with
      threads := Function.update server.threads i
        (peer', (server.cache.session shard turns {}).run) } := by
  refine ⟨h.tallied, fun j ↦ ?_⟩
  obtain ⟨due, hleads, hfollows⟩ := h.minds j
  refine ⟨due, hleads, ?_⟩
  dsimp only
  by_cases hj : j = i
  · subst hj
    rw [hdone] at hfollows
    rw [Function.update_self]
    exact Cache.books_session server.cache shard turns {} hfollows
  · rw [Function.update_of_ne hj]
    exact hfollows

theorem Audited.turn {s s' : Shared ι} {journal journal' : Journal Ans ι} {server : Server ι}
    {threads : ι → Peer × Program Ans (Except Handler.Error Unit)}
    (h : Audited s journal server)
    (hstep : Pool.Step ((machine contents).journaled.perform server.cache.ingest.key)
      ⟨(s, journal), server.threads⟩ ⟨(s', journal'), threads⟩) :
    Audited s' journal' { server with threads } := by
  refine ⟨?_, h.minds.turn hstep⟩
  cases hstep with
  | turn i hthread hop => exact tallied_of_step h.tallied hop

theorem audited_of_steps [Crates] {system : System ι (Shared ι × Journal Ans ι)}
    (hsteps : System.Steps (machine contents).journaled dir ⟨(blank, []), none⟩ system)
    {server : Server ι} (hserver : system.server = some server) :
    Audited system.shared.1 system.shared.2 server := by
  induction hsteps generalizing server with
  | refl => exact absurd hserver (by simp)
  | tail _ hstep ih =>
    cases hstep with
    | boot cache pid i hdir hrun =>
      obtain rfl := Option.some.inj hserver
      exact audited_of_boot hrun
    | @accept s before peer result i peer' shard turns hdone =>
      obtain rfl := Option.some.inj hserver
      exact (ih rfl).accept hdone
    | @turn s s' before threads hstep =>
      obtain rfl := Option.some.inj hserver
      exact (ih rfl).turn hstep
    | kill => exact absurd hserver (by simp)
    | command command secret pid i hvisit => exact absurd hserver (by simp)

/-- **The metrics are right.** However the connections of a server interleave and whatever fails,
its counters are explained by what its connections did. Of the hits, misses and uploads each
connection has at most one yet to count, and none when it is not being served. -/
theorem accounts_of_steps [Crates] {s : Shared ι} {journal : Journal Ans ι} {server : Server ι}
    (hsteps : System.Steps (machine contents).journaled dir ⟨(blank, []), none⟩
      ⟨(s, journal), some server⟩) :
    Accounts s.1 journal.deeds
      ∧ (∀ i (counter : Counter), counter.Outcome → counter ≠ .rejections →
        tally (earns counter) (own i journal) ≤ tally (adds counter) (own i journal) + 1)
      ∧ (server.Rests → ∀ counter : Counter, counter.Outcome → counter ≠ .rejections →
        tally (adds counter) journal.deeds = tally (earns counter) journal.deeds) := by
  have haudited : Audited s journal server := audited_of_steps hsteps rfl
  have hbalanced : ∀ i, ∃ due : Due, due.Balanced (own i journal) := fun i ↦ by
    obtain ⟨due, hleads, -⟩ := haudited.minds i
    exact ⟨due, balanced_of_leads hleads⟩
  refine ⟨⟨haudited.tallied, fun shard ↦ ?_, fun counter hcounter hrejections ↦ ?_, ?_⟩,
    fun i counter hcounter hrejections ↦ ?_, fun hrests counter hcounter hrejections ↦ ?_⟩
  · refine Journal.tally_le_of_own fun i ↦ ?_
    obtain ⟨due, hdue⟩ := hbalanced i
    exact (Nat.le_add_right _ _).trans (hdue.outcomes shard)
  · refine Journal.tally_le_of_own fun i ↦ ?_
    obtain ⟨due, hdue⟩ := hbalanced i
    exact (Nat.le_add_right _ _).trans (hdue.exact counter hcounter hrejections).ge
  · refine Journal.tally_le_of_own fun i ↦ ?_
    obtain ⟨due, hdue⟩ := hbalanced i
    exact (Nat.le_add_right _ _).trans hdue.payload
  · obtain ⟨due, hdue⟩ := hbalanced i
    rw [hdue.exact counter hcounter hrejections]
    exact Nat.add_le_add_left (due.owed_le_one counter) _
  · -- a connection that is done owes nothing
    refine Journal.tally_eq_of_own fun i ↦ ?_
    obtain ⟨due, hleads, hfollows⟩ := haudited.minds i
    obtain ⟨peer, result, hdone⟩ := hrests i
    rw [hdone] at hfollows
    have hexact := (balanced_of_leads hleads).exact counter hcounter hrejections
    rw [Due.owed_of_settled hfollows, Nat.add_zero] at hexact
    exact hexact.symm

end Shared

section Specimen

open Specimen Shared

private theorem uploads_first : first.map (fun s ↦ (s.1.stats 0).uploads) = some 1 := by
  simp only [first, serveAll, serveEach, Cache.session, Cache.turn, Cache.attend,
    Http.parse, Text.fromUtf8_eq_decode]
  decide +kernel

private theorem exists_rests {s : Shared ℕ} (h : first = some s) : ∃ server : Server ℕ,
    System.Steps (machine {frame nar}) dir ⟨blank, none⟩ ⟨s, some server⟩ ∧ server.Rests := by
  obtain ⟨booted, threads, hsteps, -, hdone, hserves⟩ := serves_of_serveAll mem_frame h
  exact ⟨⟨cache, threads⟩, hsteps.trans (steps_of_serves hserves), hdone⟩

/-- After the first upload one row was written, and one upload is counted. -/
theorem accounts_first : ∃ (s : Shared ℕ) (journal : Journal Ans ℕ) (server : Server ℕ),
    System.Steps (machine {frame nar}).journaled dir ⟨(blank, []), none⟩
        ⟨(s, journal), some server⟩
      ∧ Accounts s.1 journal.deeds ∧ (s.1.stats 0).uploads = 1
      ∧ tally (adds .uploads) journal.deeds = tally (earns .uploads) journal.deeds := by
  obtain ⟨s, hs, huploads⟩ := Option.map_eq_some_iff.mp uploads_first
  obtain ⟨server, hlife, hrests⟩ := exists_rests hs
  obtain ⟨journal, hsteps⟩ := Machine.exists_steps_journaled [] hlife
  obtain ⟨haccounts, -, hexact⟩ := accounts_of_steps hsteps
  exact ⟨s, journal, server, hsteps, haccounts, huploads,
    hexact hrests .uploads (by decide) (by decide)⟩

end Specimen

end Bincache
