import Bincache.Boot
import Bincache.Serve.Handler

/-!
# The life of a cache

A data directory outlives the processes that work on it. At most one of them runs at a time: a
server, whose connections take turns one operation at a time and in any order, or an operator's
command; the index cannot be opened twice. Any of them can die between two operations. `System` is
the directory with the server that runs on it, if one does, and `Step` what can happen next.

What a process acts on is left open, as a `Machine`, so that a reading can keep more of the history
than the program does. `Keeps` is what has to be shown of a reading, one program at a time, and
`Keeps.reachable` carries it to every state of every life.
-/

namespace Bincache

/-- How the processes of a cache act on what they share. -/
structure Machine (ι S : Type) where
  /-- The operations of participant `i` of a process that signs under a key. -/
  perform : SecretKey → ι → Interpretation Ans (S × Peer)
  /-- What a new process with an id finds. -/
  restart : ℕ → S → S

/-- A running server: its configuration, and each of its connections with the rest of its
session. -/
structure Server (ι : Type) where
  cache : Cache
  threads : ι → Peer × Program Ans (Except Handler.Error Unit)

/-- A data directory and the server that runs on it. -/
structure System (ι S : Type) where
  shared : S
  server : Option (Server ι)

/-- A process that ends by itself: an operator's command, or a server that does not get to serve. -/
inductive Command
  | serve
  | delete (key : StorePath.Hash)
  | reconcile
  | rotate

variable [Crates]

/-- What a command does, given the store directory and the secret key. -/
def Command.program (dir : Dir) (secret : SecretKey) : Command → Program Ans Unit
  | serve => Boot.serve.run >>= fun _ ↦ .done ()
  | delete key => (Boot.delete key).run >>= fun _ ↦ .done ()
  | reconcile => Boot.reconcile.run >>= fun _ ↦ .done ()
  | rotate => (Boot.rotate dir secret).run >>= fun _ ↦ .done ()

namespace System

variable {ι S : Type} [DecidableEq ι]

/-- The connections of a server that nobody has connected to. -/
def idle (_ : ι) : Peer × Program Ans (Except Handler.Error Unit) := (⟨[], []⟩, .done (.ok ()))

/-- What can happen next to a cache with this store directory. -/
inductive Step (machine : Machine ι S) (dir : Dir) : System ι S → System ι S → Prop
  /-- A server starts, under any configuration. -/
  | boot {s s' : S} {peer peer' : Peer} (cache : Cache) (pid : ℕ) (i : ι)
      (hdir : cache.ingest.dir = dir)
      (hrun : Boot.serve.run.Runs (machine.perform cache.ingest.key i) (machine.restart pid s, peer)
        (.ok ()) (s', peer')) :
      Step machine dir ⟨s, none⟩ ⟨s', some ⟨cache, idle⟩⟩
  /-- A peer connects, with whatever it is going to send. -/
  | accept {s : S} {server : Server ι} {peer : Peer} {result : Except Handler.Error Unit} (i : ι)
      (peer' : Peer) (shard turns : ℕ) (hdone : server.threads i = (peer, .done result)) :
      Step machine dir ⟨s, some server⟩ ⟨s, some { server with
        threads := Function.update server.threads i
          (peer', (server.cache.session shard turns {}).run) }⟩
  /-- A connection performs its next operation. -/
  | turn {s s' : S} {server : Server ι}
      {threads : ι → Peer × Program Ans (Except Handler.Error Unit)}
      (hstep : Pool.Step (machine.perform server.cache.ingest.key) ⟨s, server.threads⟩
        ⟨s', threads⟩) :
      Step machine dir ⟨s, some server⟩ ⟨s', some { server with threads }⟩
  /-- The server dies. -/
  | kill {s : S} {server : Server ι} : Step machine dir ⟨s, some server⟩ ⟨s, none⟩
  /-- A command runs, to its end or until it dies. -/
  | command {s s' : S} {peer peer' : Peer} (command : Command) (secret : SecretKey) (pid : ℕ)
      (i : ι) (hvisit : (command.program dir secret).Visits (machine.perform secret i)
        (machine.restart pid s, peer) (s', peer')) :
      Step machine dir ⟨s, none⟩ ⟨s', none⟩

abbrev Steps (machine : Machine ι S) (dir : Dir) : System ι S → System ι S → Prop :=
  Relation.ReflTransGen (Step machine dir)

variable {machine : Machine ι S} {dir : Dir}

theorem steps_of_runs {s s' : S} {server : Server ι} {i : ι} {peer peer' : Peer}
    {program : Program Ans (Except Handler.Error Unit)} {result : Except Handler.Error Unit}
    (hthread : server.threads i = (peer, program))
    (hrun : program.Runs (machine.perform server.cache.ingest.key i) (s, peer) result (s', peer')) :
    Steps machine dir ⟨s, some server⟩ ⟨s', some { server with
      threads := Function.update server.threads i (peer', .done result) }⟩ := by
  let lift (pool : Pool Ans ι S Peer (Except Handler.Error Unit)) : System ι S :=
    ⟨pool.shared, some { server with threads := pool.threads }⟩
  have hturns : Pool.Steps (machine.perform server.cache.ingest.key) ⟨s, server.threads⟩
      ⟨s', Function.update server.threads i (peer', .done result)⟩ :=
    Pool.steps_of_runs hthread hrun
  exact hturns.lift lift fun _ _ hstep ↦ .turn hstep

theorem steps_of_session {s s' : S} {server : Server ι} {i : ι} {peer peer' peer'' : Peer}
    {before result : Except Handler.Error Unit} {shard turns : ℕ}
    (hdone : server.threads i = (peer, .done before))
    (hrun : (server.cache.session shard turns {}).run.Runs
      (machine.perform server.cache.ingest.key i) (s, peer') result (s', peer'')) :
    Steps machine dir ⟨s, some server⟩ ⟨s', some { server with
      threads := Function.update server.threads i (peer'', .done result) }⟩ := by
  refine Relation.ReflTransGen.head (.accept i peer' shard turns hdone) ?_
  let connected : Server ι := { server with
    threads := Function.update server.threads i (peer', (server.cache.session shard turns {}).run) }
  have hthread : connected.threads i = (peer', (server.cache.session shard turns {}).run) :=
    Function.update_self ..
  have hsteps : Steps machine dir ⟨s, some connected⟩ ⟨s', some { connected with
      threads := Function.update connected.threads i (peer'', .done result) }⟩ :=
    steps_of_runs hthread hrun
  rwa [Function.update_idem] at hsteps

end System

namespace Machine

variable {ι S : Type} [DecidableEq ι]

/-- While a server runs the protocol is kept, and otherwise the directory is in order. -/
structure Keeps (machine : Machine ι S) (dir : Dir) (P : Protocol ι S) (order : S → Prop) :
    Prop where
  boots : ∀ {cache : Cache} {pid i s p s' p'}, cache.ingest.dir = dir → order s →
    Boot.serve.run.Runs (machine.perform cache.ingest.key i) (machine.restart pid s, p) (.ok ())
      (s', p') → P.valid s'
  serves : ∀ {cache : Cache} {shard turns i p s}, cache.ingest.dir = dir →
    (cache.session shard turns {}).run.Safe P (machine.perform cache.ingest.key) i
      (fun _ _ _ ↦ True) p s
  dies : ∀ {s}, P.valid s → order s
  commands : ∀ {command : Command} {secret pid i s p s' p'}, order s →
    (command.program dir secret).Visits (machine.perform secret i) (machine.restart pid s, p)
      (s', p') → order s'

def Kept (machine : Machine ι S) (dir : Dir) (P : Protocol ι S) (order : S → Prop)
    (system : System ι S) : Prop :=
  match system.server with
  | none => order system.shared
  | some server => server.cache.ingest.dir = dir
    ∧ Pool.Ok P (machine.perform server.cache.ingest.key) (fun _ _ _ _ ↦ True)
      ⟨system.shared, server.threads⟩

variable {machine : Machine ι S} {dir : Dir} {P : Protocol ι S} {order : S → Prop}
  {system system' : System ι S}

theorem Keeps.step (h : machine.Keeps dir P order) (hkept : machine.Kept dir P order system)
    (hstep : System.Step machine dir system system') : machine.Kept dir P order system' := by
  cases hstep with
  | boot cache pid i hdir hrun =>
    exact ⟨hdir, h.boots hdir hkept hrun, fun _ _ _ _ ↦ trivial⟩
  | @accept s server peer result i peer' shard turns hdone =>
    obtain ⟨hdir, hok⟩ := hkept
    refine ⟨hdir, hok.valid, fun j ↦ ?_⟩
    by_cases hj : j = i
    · subst hj
      dsimp only
      rw [Function.update_self]
      exact h.serves hdir
    · dsimp only
      rw [Function.update_of_ne hj]
      exact hok.safe j
  | turn hstep =>
    obtain ⟨hdir, hok⟩ := hkept
    exact ⟨hdir, hok.turn hstep⟩
  | kill => exact h.dies hkept.2.valid
  | command command secret pid i hvisit => exact h.commands hkept hvisit

theorem Keeps.steps (h : machine.Keeps dir P order) (hkept : machine.Kept dir P order system)
    (hsteps : System.Steps machine dir system system') : machine.Kept dir P order system' := by
  induction hsteps with
  | refl => exact hkept
  | tail _ hstep ih => exact h.step ih hstep

omit [DecidableEq ι] in
/-- Whether a server runs or not, the directory is in order. -/
theorem Keeps.ordered (h : machine.Keeps dir P order) (hkept : machine.Kept dir P order system) :
    order system.shared := by
  obtain ⟨shared, _ | server⟩ := system
  · exact hkept
  · exact h.dies hkept.2.valid

theorem Keeps.reachable (h : machine.Keeps dir P order) {s : S} (hs : order s)
    (hsteps : System.Steps machine dir ⟨s, none⟩ system) : order system.shared :=
  h.ordered (h.steps (show machine.Kept dir P order ⟨s, none⟩ from hs) hsteps)

end Machine

end Bincache
