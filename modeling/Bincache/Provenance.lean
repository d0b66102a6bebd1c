import Bincache.Lifetime
import Bincache.Serve.Description
import Bincache.Serve.Traces

/-!
# Where artifacts come from

Nothing but the commit of an upload puts a file under `nar/`. So in every state of every life a file
at the place of an artifact is the whole output of the encoder for some input, under the digest of
that output. Nothing is asked of digests or of the encoder for this, and what the index says plays
no part in it: of all operations only a commit touches the artifacts.
-/

namespace Bincache

/-! ## Operations that leave the artifacts alone -/

/-- Upkeep, and every transaction. -/
def Op.Settled : Op → Prop
  | .index _ => True
  | op => op.Upkeep

theorem Op.Upkeep.settled {op : Op} (h : op.Upkeep) : op.Settled := by
  cases op with
  | index op => trivial
  | _ => exact h

section

open Attempt

variable [Crates]

theorem settled_rotate (dir : Dir) (key : SecretKey) :
    (Boot.rotate dir key).run.Uses Op.Settled := by
  have hcommits : ∀ batches : List (List NarInfo), (batches.forM fun batch ↦
      (indexCall (.republish batch)).context Maintain.Error.index :
        Call Maintain.Error Unit).run.Uses Op.Settled := by
    intro batches
    induction batches with
    | nil => trivial
    | cons batch batches ih =>
      rw [List.forM_eq_forM, List.forM_cons, ← List.forM_eq_forM]
      exact uses_bind (uses_context ⟨trivial, fun _ ↦ trivial⟩) fun _ ↦ ih
  refine uses_bind (upkeep_open.imp fun _ ↦ Op.Upkeep.settled) fun _ ↦ uses_context ?_
  refine uses_bind (uses_context ⟨trivial, fun _ ↦ trivial⟩) fun records ↦ ?_
  exact uses_bind (hcommits _) fun _ ↦ trivial

theorem settled_program (command : Command) (dir : Dir) (secret : SecretKey) :
    (command.program dir secret).Uses Op.Settled := by
  by_cases hrotate : command = .rotate
  · subst hrotate
    exact Program.Uses.bind (settled_rotate dir secret) fun _ ↦ trivial
  · exact (Shared.upkeep_program hrotate).imp fun _ ↦ Op.Upkeep.settled

end

namespace Shared

variable {ι : Type} {env : Env} {contents : Set Bytes} {key : SecretKey} {i : ι} {s s' : Shared ι}
  {p p' : Peer}

theorem tree_of_settled {op : Op} {answer : Ans op} (hsettled : op.Settled)
    (h : step env contents key i op (s, p) answer (s', p')) :
    s'.view.tree = s.view.tree ∧ Clears s s' := by
  by_cases hupkeep : op.Upkeep
  · refine ⟨?_, clears_of_upkeep hupkeep h⟩
    obtain ⟨-, hview | ⟨k, -, hview⟩⟩ := view_of_upkeep hupkeep h
    · rw [hview]
    · rw [hview, View.unpublish]
      split
      · rfl
      · rfl
  · cases op with
    | index op =>
      obtain ⟨hstep, -, -⟩ := h
      obtain ⟨world, ledger⟩ := s
      obtain ⟨world', ledger'⟩ := s'
      obtain ⟨-, -, hsite⟩ | ⟨-, hsite⟩ := of_step_index hstep
      · obtain ⟨rfl, -⟩ := Prod.mk.inj hsite
        exact ⟨rfl, clears_refl _⟩
      · obtain ⟨rfl, -⟩ := Prod.mk.inj hsite
        exact ⟨rfl, clears_refl _⟩
    | _ => exact absurd hsettled hupkeep

end Shared

/-! ## What is committed -/

section

variable [Crates] {contents : Set Bytes} {dir : Dir}

/-- Every artifact is what the encoder makes of some chunks, under its digest. -/
def Encoded (contents : Set Bytes) (tree : FilePath → Option File) : Prop :=
  ∀ url file, tree (Store.path url) = some file → ∃ level chunks, ∃ artifact ∈ contents,
    Crates.compress level chunks = some artifact ∧ url = ⟨.digest artifact, storedAs⟩
      ∧ file = .of artifact

/-- How the participants of a cache share its artifacts. -/
def provenance {ι : Type} (contents : Set Bytes) : Protocol ι View where
  valid view := Encoded contents view.tree
  rely _ _ _ := True
  rely_refl _ _ := trivial
  rely_trans _ _ := trivial

theorem Encoded.commit {view : View} (h : Encoded contents view.tree) {level : ℤ}
    {chunks : List Bytes} {artifact : Bytes} (hmem : artifact ∈ contents)
    (hcompress : Crates.compress level chunks = some artifact) :
    Encoded contents (view.commit ⟨.digest artifact, storedAs⟩ (.of artifact)).tree := by
  intro url file hfile
  change (view.commit _ _).artifact url = some file at hfile
  rw [View.artifact_commit] at hfile
  split at hfile
  · next hurl => exact ⟨level, chunks, artifact, hmem, hcompress, hurl,
      (Option.some.inj hfile).symm⟩
  · exact h url file hfile

namespace Shared

variable {ι : Type}

theorem permits_provenance (i : ι) (ingest : Ingest) :
    Permits (provenance contents) contents i ingest where
  store := by
    rintro chunks artifact narSize hmem hcompress - v v₁ - hvalid
    refine ⟨hvalid.commit hmem hcompress, fun _ _ ↦ trivial, ?_⟩
    rintro v₂ - - v₃ - hvalid₃
    exact ⟨hvalid₃, fun _ _ ↦ trivial, fun _ _ _ ↦ trivial⟩
  publish := by
    rintro body declared entry v - - v₁ - hvalid
    exact ⟨hvalid, fun _ _ ↦ trivial, fun _ _ _ ↦ trivial⟩

/-- The artifacts are what was encoded, and the staging directory holds files only. -/
def Shelved (contents : Set Bytes) (s : Shared ι) : Prop := Encoded contents s.view.tree ∧ Flat s

theorem Shelved.restart {s : Shared ι} (h : Shelved contents s) (pid : ℕ) :
    Shelved contents (restart pid s) := ⟨h.1, h.2⟩

theorem shelved_of_visits {α : Type} {env : Env} {key : SecretKey} {i : ι} {s s' : Shared ι}
    {p p' : Peer} {program : Program Ans α} (huses : program.Uses Op.Settled)
    (hs : Shelved contents s) (hvisit : program.Visits (step env contents key i) (s, p) (s', p')) :
    Shelved contents s' := by
  let inv (site : Shared ι × Peer) : Prop := Shelved contents site.1
  have hstart : inv (s, p) := hs
  have hfinal : inv (s', p') := by
    refine huses.visits (fun op t answer t' hsettled ht hop ↦ ?_) hstart hvisit
    obtain ⟨htree, hclears⟩ := tree_of_settled hsettled hop
    have hencoded : Encoded contents t'.1.view.tree := htree ▸ ht.1
    exact ⟨hencoded, ht.2.clears hclears⟩
  exact hfinal

/-- Artifacts are what was encoded, whatever the processes do and wherever they die. -/
theorem keeps_provenance : (machine contents : Machine ι (Shared ι)).Keeps dir
    (protocol (provenance contents)) (Shelved contents) where
  boots := by
    intro cache pid i s p s' p' hdir hs hrun
    have hshelved : Shelved contents s' :=
      shelved_of_visits (upkeep_serve.imp fun _ ↦ Op.Upkeep.settled) (hs.restart pid) hrun.visits
    exact ⟨staging_of_boot hs.2 hrun, hshelved.1⟩
  serves := by
    intro cache shard turns i p s hdir
    refine (upholds_session (permits_provenance i cache.ingest) shard turns _ ?_).imp
      fun _ _ _ _ _ ↦ trivial
    exact fun henv ↦ absurd henv (by decide)
  dies := fun ⟨hstaging, hencoded⟩ ↦ ⟨hencoded, hstaging.flat⟩
  commands := fun hs hvisit ↦ shelved_of_visits (settled_program _ _ _) (hs.restart _) hvisit

theorem shelved_blank : Shelved contents (blank : Shared ι) :=
  ⟨fun url file h ↦ absurd h (by simp [view, blank, tree, FileSystem.lookup, FileSystem.empty]),
    fun path inode h ↦ absurd h (by simp [blank, FileSystem.empty])⟩

variable [DecidableEq ι]

theorem encoded_of_steps {system : System ι (Shared ι)}
    (hsteps : System.Steps (machine contents) dir ⟨blank, none⟩ system) :
    Encoded contents system.shared.view.tree :=
  (keeps_provenance.reachable shelved_blank hsteps).1

/-- While a server runs, its staged files are where their ordinals say. -/
theorem staging_of_steps {s : Shared ι} {server : Server ι}
    (hsteps : System.Steps (machine contents) dir ⟨(blank : Shared ι), none⟩ ⟨s, some server⟩) :
    Staging s := by
  have hblank : (machine contents).Kept dir (protocol (provenance contents)) (Shelved contents)
      (⟨blank, none⟩ : System ι (Shared ι)) := shelved_blank
  obtain ⟨-, hok⟩ := keeps_provenance.steps hblank hsteps
  exact hok.valid.1

end Shared

/-! ## HEAD and GET -/

theorem Encoded.filled {ι : Type} {s : Shared ι} (hemits : Crates.EncoderEmits)
    (h : Encoded contents s.view.tree) : Cache.Filled s.1 := by
  intro url file hfile
  rw [← Shared.artifact_view] at hfile
  obtain ⟨level, chunks, artifact, -, hcompress, -, rfl⟩ := h url file hfile
  have hlen : artifact.length ≠ 0 := fun hlen ↦
    hemits level chunks artifact hcompress (List.length_eq_zero_iff.mp hlen)
  exact hlen

variable {ι : Type} [DecidableEq ι]

/-- In every state of every life HEAD describes GET, unless it asks for an uncompressed NAR. -/
theorem Cache.describes_of_steps {cache : Cache} {exchange : Exchange} {peer : Peer}
    {system : System ι (Shared ι)} (hemits : Crates.EncoderEmits)
    (hsteps : System.Steps (Shared.machine contents) dir ⟨Shared.blank, none⟩ system)
    (hcompressed : ∀ url, Route.resolve exchange.request.target = .ok (.nar url) →
      url.compression ≠ .none) : Describes cache exchange (system.shared.1, peer) :=
  describes_of_filled ((Shared.encoded_of_steps hsteps).filled hemits) hcompressed

end

section Specimen

open Specimen

/-- HEAD describes GET of the artifact of the first upload. -/
theorem Cache.describes_uploaded : ∃ system : System ℕ (Shared ℕ),
    system.shared.view.nar ⟨narDigest⟩ = some entry
      ∧ Describes cache ⟨0, {}, request .get artifact .empty⟩
        (system.shared.1, { unread := [] }) := by
  obtain ⟨s, hs, hrow⟩ := Option.bind_eq_some_iff.mp nar_first
  obtain ⟨threads, hsteps⟩ := Shared.steps_of_serveAll mem_frame hs
  refine ⟨_, hrow, describes_of_steps encoderEmits hsteps fun url hurl ↦ ?_⟩
  obtain rfl := Route.nar.inj (Except.ok.inj (hurl.symm.trans resolve_artifact))
  decide

end Specimen

end Bincache
