import Bincache.Ingest.Alone
import Bincache.Lifetime
import Bincache.Serve.Exchanges
import Bincache.Serve.Landing
import Bincache.Serve.Quiet

/-!
# What an exchange leaves behind

An exchange that does not get as far as its final answer of success leaves the tables and the files
as they were. There is one exception: an upload whose artifact was renamed into place before the row
for it could not be written. An answer of success, on the other hand, is only written once
everything is stored, so a push whose answer cannot be written has failed for its client and left
what it stored.

All this is said of runs in which removing a file does not fail, whatever else does.
-/

namespace Bincache

/-! ## Failures other than those of unlinking -/

/-- What holds of all runs holds of those in which less can fail. -/
theorem Ends.reaches {α : Type} {perform : Interpretation Ans Site} {program : Program Ans α}
    {post : α → Peer → World → Prop} {site : Site} (hpossible : Possible perform)
    (h : Ends .hostile program post site) : Reaches perform program post site.2 site.1 :=
  Program.Safe.refine h hpossible

/-! ## Traces -/

/-- The tables are as they were, and so are the files, but that the file an upload would open next,
should there have been one, may be gone. -/
structure Spotless (start world : World) : Prop where
  index : world.index = start.index
  file : ∀ path, path ≠ ownPath start → world.fs.lookup path = start.fs.lookup path
  own : world.fs.lookup (ownPath start) = none
    ∨ world.fs.lookup (ownPath start) = start.fs.lookup (ownPath start)

theorem Spotless.steady {start world world' : World} (h : Spotless start world)
    (hsteady : Steady world world') : Spotless start world' := by
  obtain ⟨stats, rfl⟩ := hsteady
  exact ⟨h.index, h.file, h.own⟩

/-- Statistics do not matter for what counts as a trace. -/
theorem Spotless.of_steady {start start' world : World} (hsteady : Steady start start')
    (h : Spotless start' world) : Spotless start world := by
  obtain ⟨stats, rfl⟩ := hsteady
  exact ⟨h.index, h.file, h.own⟩

section

variable [Crates]

/-- The only trace is an artifact under its own name, which no row was added for. -/
structure Orphaned (start world : World) : Prop where
  index : world.index = start.index
  artifact : ∃ artifact, ∀ path, world.fs.lookup path
    = if path = Store.path ⟨.digest artifact, storedAs⟩ then some (.of artifact)
      else if path = ownPath start then none else start.fs.lookup path

end

namespace Cache

open Handler Response

section

variable [Crates] (cache : Cache) (exchange : Exchange)

/-- The NAR of a push is stored: the client may push it, all of it has arrived, and it is what the
request announced. -/
structure Stored (start : Site) (url : NarUrl) (world : World) : Prop where
  admitted : cache.admission exchange.request = .admitted
  compression : url.compression = .none
  body : ∃ body rest : Bytes, exchange.request.framing = .length body.length
    ∧ exchange.connection.stream start.2 = body ++ rest ∧ url.fileHash = .digest body ∧ body ≠ []
  row : ∃ entry, world.index = start.1.index.putNar url.fileHash entry

/-- The record of a push is published: the client may push it, all of it has arrived, and it is
about a NAR that is there. -/
structure Published (start : Site) (world : World) : Prop where
  admitted : cache.admission exchange.request = .admitted
  body : ∃ (body rest : Bytes) (text : Text) (declared : NarInfo) (entry : Entry),
    exchange.request.framing = .length body.length
      ∧ exchange.connection.stream start.2 = body ++ rest ∧ Text.fromUtf8 body = some text
      ∧ cache.ingest.Publishable start.1.index.nar text declared entry
      ∧ world.index = start.1.index.publish (cache.ingest.record declared entry)

omit [Crates] in
/-- Success was being answered: the answer was written, or the socket failed while it was. -/
def Created (start : Site) (result : Except Handler.Error (Http.KeepAlive × Connection))
    (peer : Peer) : Prop :=
  ∃ said, said <+: bare .created exchange.request.keepAlive 0
    ∧ peer.written = start.2.written ++ (invitation exchange ++ said)
    ∧ match result with
      | .ok _ => said = bare .created exchange.request.keepAlive 0
      | .error error => ∃ source, error = .connection (.write source)

/-- What an exchange may leave behind: nothing, an artifact whose row could not be written, or what
it then began to answer success for. -/
def Leaves (start : Site) (result : Except Handler.Error (Http.KeepAlive × Connection))
    (peer : Peer) (world : World) : Prop :=
  Spotless start.1 world
    ∨ (Orphaned start.1 world ∧ ∃ source, result = .error (.upload (.record source)))
    ∨ Created exchange start result peer
      ∧ ((∃ url, Route.resolve exchange.request.target = .ok (.nar url)
          ∧ Stored cache exchange start url world)
        ∨ ((∃ key, Route.resolve exchange.request.target = .ok (.narinfo key))
          ∧ Published cache exchange start world))

end

variable [Crates] {cache : Cache} {exchange : Exchange} {start : Site} {world : World} {peer : Peer}

theorem Leaves.of_steady {result : Except Handler.Error (Http.KeepAlive × Connection)}
    {world' : World} (hsteady : Steady start.1 world)
    (h : Leaves cache exchange (world, start.2) result peer world') :
    Leaves cache exchange start result peer world' := by
  obtain ⟨stats, rfl⟩ := hsteady
  obtain h | ⟨h, herror⟩ | ⟨hcreated, hdone⟩ := h
  · exact .inl (h.of_steady ⟨stats, rfl⟩)
  · exact .inr (.inl ⟨⟨h.index, h.artifact⟩, herror⟩)
  · refine .inr (.inr ⟨hcreated, hdone.imp ?_ ?_⟩)
    · rintro ⟨url, hroute, h⟩
      exact ⟨url, hroute, h.admitted, h.compression, h.body, h.row⟩
    · rintro ⟨hroute, h⟩
      exact ⟨hroute, h.admitted, h.body⟩

end Cache

section Specimen

open Specimen Cache

namespace Specimen

/-- Performs an operation in a run that removes no file and whose answers are not heard. -/
def unheard : (op : Op) → Site → Option (Ans op × Site)
  | .file (.remove _), _ => none
  | .send bytes, site => effect { fails := true } (.send bytes) site
  | op, site => effect (plain op) op site

/-- The publish after the first upload, with its answer unheard. -/
def unanswered : Option (Shared ℕ × Except Handler.Error (Http.KeepAlive × Connection) × Site) :=
  first.bind fun s ↦ ((cache.handle (put home)).run.evaluate unheard (s.1, ⟨[], []⟩)).map (s, ·)

end Specimen

end Specimen

end Bincache
