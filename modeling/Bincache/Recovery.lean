import Bincache.Cleanup
import Bincache.Convergence

/-!
# What a crash leaves

A data directory has two levels of directories below its root, and a process puts files in two
places only: a staging file right under `staging/`, and an artifact where its URL says. `Laid` is
that layout, and no process ever leaves it, wherever it dies. So a start that meets no failure
always comes to its end, whatever it finds; and an inventory of what it finds has nothing to report
but artifacts that no record names.
-/

namespace Bincache

/-! ## The layout -/

/-- A directory that is part of the layout. -/
def Store.Place (path : FilePath) : Prop :=
  path = [] ∨ path = [staging] ∨ path = [artifacts] ∨ ∃ shard, path = [artifacts, shard]

/-- Every directory has its place; and so has every file, an artifact in a directory that is
there. -/
structure Laid (fs : FileSystem) : Prop where
  dirs : ∀ path ∈ fs.dirs, Store.Place path
  entries : ∀ path inode, fs.links.lookup path = some inode →
    (∃ name, path = [Store.staging, name])
      ∨ ∃ url, path = Store.path url ∧ path.dropLast ∈ fs.dirs

/-- Operations that put things where they belong. -/
def Op.Lays : Op → Prop
  | .file (.createDirAll path) => Store.Place path
  | .file (.create path) => ∃ name, path = [Store.staging, name]
  | .file (.rename _ target) => ∃ url, target = Store.path url
  | _ => True

theorem Op.Quiet.lays {op : Op} (h : op.Quiet) : op.Lays := by
  cases op with
  | file op => cases op <;> first | exact h.elim | trivial
  | _ => trivial

theorem laid_empty : Laid .empty :=
  ⟨fun path h ↦ absurd h (Finset.notMem_empty path),
    fun path inode h ↦ absurd h (by simp [FileSystem.empty])⟩

theorem Store.Place.of_isPrefix {path dir : FilePath} (h : Store.Place path) (hdir : dir <+: path) :
    Store.Place dir := by
  have hmem := (List.mem_inits dir path).mpr hdir
  rcases h with rfl | rfl | rfl | ⟨shard, rfl⟩
  · simp only [List.inits, List.mem_singleton] at hmem
    exact .inl hmem
  · simp only [List.inits, List.map_cons, List.map_nil, List.mem_cons, List.not_mem_nil,
      or_false] at hmem
    exact hmem.imp_right .inl
  · simp only [List.inits, List.map_cons, List.map_nil, List.mem_cons, List.not_mem_nil,
      or_false] at hmem
    exact hmem.imp_right fun h ↦ .inr (.inl h)
  · simp only [List.inits, List.map_cons, List.map_nil, List.mem_cons, List.not_mem_nil,
      or_false] at hmem
    obtain h | h | h := hmem
    · exact .inl h
    · exact .inr (.inr (.inl h))
    · exact .inr (.inr (.inr ⟨shard, h⟩))

/-- A file is renamed into a directory that is there. -/
theorem dir_of_step_rename {env : Env} {path target : FilePath} {world : World} {peer : Peer}
    {site : Site} (h : step env (.file (.rename path target)) (world, peer) (.ok ()) site) :
    target.dropLast ∈ world.fs.dirs := by
  obtain ⟨choice, fs, -, ⟨-, herror, -⟩ | hrun⟩ := of_step_file h
  · exact absurd herror (by simp)
  rw [FileOp.run] at hrun
  split at hrun
  · next hdir => exact hdir
  · exact absurd (Prod.mk.inj (Option.some.inj hrun)).1 (by simp)

namespace Laid

variable {fs fs' : FileSystem}

theorem mono (h : Laid fs) (hdirs : ∀ path ∈ fs'.dirs, path ∈ fs.dirs ∨ Store.Place path)
    (hgrows : fs.dirs ⊆ fs'.dirs) (hentries : ∀ path inode, fs'.links.lookup path = some inode →
      (∃ inode', fs.links.lookup path = some inode') ∨ (∃ name, path = [Store.staging, name])
        ∨ ∃ url, path = Store.path url ∧ path.dropLast ∈ fs.dirs) : Laid fs' where
  dirs path hpath := (hdirs path hpath).elim (h.dirs path) id
  entries path inode hlink := by
    obtain ⟨inode', hlink'⟩ | hstaged | ⟨url, hurl, hdir⟩ := hentries path inode hlink
    · exact (h.entries path inode' hlink').imp_right fun ⟨url, hurl, hdir⟩ ↦
        ⟨url, hurl, hgrows hdir⟩
    · exact .inl hstaged
    · exact .inr ⟨url, hurl, hgrows hdir⟩

theorem createDirAll {path : FilePath} (h : Laid fs) (hpath : Store.Place path) :
    Laid (fs.createDirAll path) := by
  refine h.mono (fun dir hdir ↦ ?_) Finset.subset_union_left fun _ inode hlink ↦ .inl ⟨inode, hlink⟩
  refine (Finset.mem_union.mp hdir).imp_right fun hinit ↦ ?_
  exact hpath.of_isPrefix ((List.mem_inits dir path).mp (List.mem_toFinset.mp hinit))

theorem create {path : FilePath} (h : Laid fs) (hpath : ∃ name, path = [Store.staging, name]) :
    Laid (fs.create path).1 := by
  have hdirs := fs.dirs_create path
  refine h.mono (fun dir hdir ↦ .inl (hdirs ▸ hdir)) hdirs.ge fun found inode hlink ↦ ?_
  by_cases hfound : found = path
  · exact .inr (.inl (hfound ▸ hpath))
  · exact .inl ⟨inode, (FileSystem.entry_create path hfound).symm.trans hlink⟩

theorem rename {path : FilePath} {url : NarUrl} (h : Laid fs)
    (hdir : (Store.path url).dropLast ∈ fs.dirs)
    (hrename : fs.rename path (Store.path url) = some fs') : Laid fs' := by
  obtain ⟨inode', hpath, rfl⟩ := FileSystem.rename_eq_some.mp hrename
  refine h.mono (fun _ ↦ .inl) (Finset.Subset.refl _) fun found inode hlink ↦ ?_
  dsimp only [FileSystem.moveEntry] at hlink
  rw [Table.lookup_insert_eq, Table.lookup_erase_eq] at hlink
  split at hlink
  · next hfound => exact .inr (.inr ⟨url, hfound, hfound ▸ hdir⟩)
  · split at hlink
    · exact absurd hlink (by simp)
    · exact .inl ⟨inode, hlink⟩

theorem unlink (h : Laid fs) (path : FilePath) : Laid (fs.unlink path) := by
  refine h.mono (fun _ ↦ .inl) (Finset.Subset.refl _) fun found inode hlink ↦ ?_
  rw [FileSystem.links_unlink, Table.lookup_erase_eq] at hlink
  split at hlink
  · exact absurd hlink (by simp)
  · exact .inl ⟨inode, hlink⟩

/-- An operation that puts things where they belong keeps the layout. -/
theorem step {env : Env} {op : Op} {world : World} {peer : Peer} {site : Site} {answer : Ans op}
    (h : Laid world.fs) (hlays : op.Lays)
    (hstep : Bincache.step env op (world, peer) answer site) : Laid site.1.fs := by
  by_cases hquiet : op.Quiet
  · obtain ⟨stats, hsteady⟩ := steady_of_quiet hquiet hstep
    rw [hsteady]
    exact h
  cases op with
  | index op =>
    obtain ⟨-, -, rfl⟩ | ⟨-, rfl⟩ := of_step_index hstep
    · exact h
    · exact h
  | nextOrdinal =>
    obtain ⟨-, rfl⟩ := of_step_nextOrdinal hstep
    exact h
  | file op =>
    cases op with
    | createDirAll path =>
      obtain ⟨-, -, rfl⟩ | ⟨-, rfl⟩ := of_step_createDirAll hstep
      · exact h
      · exact h.createDirAll hlays
    | create path =>
      obtain ⟨-, rfl, -⟩ | ⟨-, rfl⟩ := of_step_create hstep
      · exact h
      · exact h.create hlays
    | writeAt inode offset bytes =>
      obtain ⟨-, -, count, rfl⟩ | ⟨-, rfl⟩ := of_step_writeAt hstep
      · exact ⟨h.dirs, h.entries⟩
      · exact ⟨h.dirs, h.entries⟩
    | rename path target =>
      obtain ⟨url, rfl⟩ := hlays
      obtain ⟨-, rfl, -⟩ | ⟨rfl, fs, hrename, rfl⟩ := of_step_rename hstep
      · exact h
      · exact h.rename (dir_of_step_rename hstep) hrename
    | remove path =>
      obtain ⟨-, rfl, -⟩ | ⟨-, rfl⟩ := of_step_remove hstep
      · exact h
      · exact h.unlink path
    | _ => exact absurd trivial hquiet
  | _ => exact absurd trivial hquiet

end Laid

/-! ## Whatever runs keeps to it -/

section Lays

open Attempt

variable {α : Type}

theorem lays_quiet {program : Program Ans α} (h : program.Uses Op.Quiet) :
    program.Uses Op.Lays := h.imp fun _ ↦ Op.Quiet.lays

namespace Store

theorem place_dropLast (url : NarUrl) : Place (path url).dropLast :=
  .inr (.inr (.inr ⟨_, rfl⟩))

theorem lays_stage : stage.run.Uses Op.Lays :=
  uses_bind (uses_lift ⟨trivial, fun _ ↦ trivial⟩) fun _ ↦
    uses_bind (uses_lift ⟨trivial, fun _ ↦ trivial⟩) fun _ ↦
      uses_bind (uses_context ⟨⟨_, rfl⟩, fun _ ↦ trivial⟩) fun _ ↦ trivial

theorem lays_drop (staged : Staged) : staged.drop.Uses Op.Lays :=
  Program.Uses.bind ⟨trivial, fun _ ↦ trivial⟩ fun _ ↦ trivial

theorem lays_write (staged : Staged) (bytes : Bytes) : (staged.write bytes).run.Uses Op.Lays :=
  uses_bind (uses_context ⟨trivial, fun _ ↦ trivial⟩) fun _ ↦ trivial

theorem lays_commit (staged : Staged) (url : NarUrl) :
    (staged.commit url).run.Uses Op.Lays := by
  refine uses_bind (uses_onError ?_ (lays_drop staged)) fun _ ↦ trivial
  exact uses_bind (uses_context ⟨trivial, fun _ ↦ trivial⟩) fun _ ↦
    uses_bind (uses_context ⟨place_dropLast url, fun _ ↦ trivial⟩) fun _ ↦
      uses_context ⟨⟨url, rfl⟩, fun _ ↦ trivial⟩

end Store

namespace Upload

variable [Crates]

theorem lays_new (staged : Store.Staged) (expected : Sha256) (level : Level) :
    (new staged expected level).run.Uses Op.Lays := by
  rw [new]
  split
  · trivial
  · exact uses_bind (uses_lift (Store.lays_drop staged)) fun _ ↦ trivial

theorem lays_drain (upload : Upload Receiving) : upload.drain.run.Uses Op.Lays := by
  rw [drain]
  split
  · trivial
  · exact uses_bind (uses_context (Store.lays_write _ _)) fun _ ↦ trivial

theorem lays_uploadWrite (upload : Upload Receiving) (chunk : Bytes) :
    (upload.write chunk).run.Uses Op.Lays := by
  rw [write]
  split
  · trivial
  · dsimp only
    split
    · exact lays_drain _
    · trivial

theorem lays_finish (upload : Upload Receiving) : upload.finish.run.Uses Op.Lays := by
  refine uses_onError (uses_bind (lays_drain upload) fun upload' ↦ ?_) (Store.lays_drop _)
  split
  · trivial
  · exact uses_bind (uses_context (Store.lays_write _ _)) fun _ ↦ trivial

omit [Crates] in
theorem lays_verify (upload : Upload Compressed) : upload.verify.run.Uses Op.Lays := by
  refine uses_onError ?_ (Store.lays_drop _)
  split
  · split
    · trivial
    · trivial
  · trivial

omit [Crates] in
theorem lays_store (upload : Upload Verified) : upload.store.run.Uses Op.Lays :=
  uses_bind (uses_context (Store.lays_commit _ _)) fun _ ↦
    uses_bind (uses_context ⟨trivial, fun _ ↦ trivial⟩) fun _ ↦ trivial

end Upload

namespace Ingest

variable [Crates] (ingest : Ingest)

theorem lays_receive (target : NarUrl) : (ingest.receive target).run.Uses Op.Lays := by
  rw [receive]
  split
  · exact uses_bind (uses_context Store.lays_stage) fun _ ↦ uses_context (Upload.lays_new _ _ _)
  · trivial

theorem lays_publish (body : Text) : (ingest.publish body).run.Uses Op.Lays := by
  refine uses_bind (uses_context ?_) fun declared ↦
    uses_bind (uses_context ⟨trivial, fun _ ↦ trivial⟩) fun entry ↦ ?_
  · trivial
  · cases entry with
    | none => trivial
    | some entry =>
      rw [publishEntry]
      split
      · exact uses_bind (uses_context ⟨trivial, fun _ ↦ trivial⟩) fun _ ↦ trivial
      · trivial

end Ingest

namespace Cache

open Handler

variable [Crates] {cache : Cache} {exchange : Exchange}

theorem lays_absorbBody (upload : Upload Upload.Receiving) (connection : Connection)
    (remaining : ℕ) : (absorbBody upload connection remaining).run.Uses Op.Lays := by
  induction remaining using Nat.strong_induction_on generalizing upload connection with
  | _ remaining ih =>
    rw [absorbBody]
    split
    · refine uses_bind (uses_context (lays_quiet (Connection.reads_chunk _ _))) ?_
      rintro ⟨chunk, connection'⟩
      dsimp only
      split
      · trivial
      · next hne =>
        refine uses_bind (uses_context (Upload.lays_uploadWrite _ _)) fun upload' ↦ ?_
        have hpos := List.length_pos_of_ne_nil hne
        exact ih _ (by omega) upload' connection'
    · trivial

theorem lays_put_nar (url : NarUrl) : (cache.receive exchange url).run.Uses Op.Lays := by
  refine uses_bind (lays_quiet (reads_admitRequest cache)) fun admission ↦ ?_
  dsimp only
  split
  · exact lays_quiet (uses_map (reads_answer exchange _ _))
  split
  · refine uses_bind (uses_result (cache.ingest.lays_receive url)) ?_
    rintro (error | upload)
    · exact lays_quiet (uses_map (reads_refuse exchange _ _))
    refine uses_bind (uses_onError (uses_bind (lays_quiet (reads_proceed exchange)) fun _ ↦
      lays_absorbBody _ _ _) (Store.lays_drop _)) ?_
    rintro ⟨upload', connection⟩
    refine uses_bind (uses_context (Upload.lays_finish upload')) fun compressed ↦
      uses_bind (uses_result (Upload.lays_verify compressed)) ?_
    rintro (error | verified)
    · exact lays_quiet (uses_bind (reads_refuse exchange _ _) fun _ ↦ trivial)
    · exact uses_bind (uses_context (Upload.lays_store verified)) fun _ ↦
        lays_quiet (uses_bind (reads_bump _ _ _) fun _ ↦
          uses_bind (reads_answer exchange _ _) fun _ ↦ trivial)
  · exact lays_quiet (uses_map (reads_answer exchange _ _))

theorem lays_put_narinfo : (cache.publish exchange).run.Uses Op.Lays := by
  refine uses_bind (lays_quiet (reads_admitRequest cache)) fun admission ↦ ?_
  dsimp only
  split
  · exact lays_quiet (uses_map (reads_answer exchange _ _))
  split
  · split
    · exact lays_quiet (uses_map (reads_answer exchange _ _))
    refine uses_bind (lays_quiet (reads_proceed exchange)) fun _ ↦
      uses_bind (uses_context (lays_quiet (Connection.reads_body _ _))) ?_
    rintro ⟨body, connection⟩
    split
    · exact lays_quiet (uses_bind (reads_answer exchange _ _) fun _ ↦ trivial)
    · refine uses_bind (uses_result (cache.ingest.lays_publish _)) ?_
      rintro (error | record)
      · exact lays_quiet (uses_bind (reads_refuse exchange _ _) fun _ ↦ trivial)
      · exact lays_quiet (uses_bind (reads_answer exchange _ _) fun _ ↦ trivial)
  · exact lays_quiet (uses_map (reads_answer exchange _ _))

theorem lays_handle : (cache.handle exchange).run.Uses Op.Lays := by
  by_cases hput : exchange.request.method = .put
  · refine uses_bind (lays_quiet (reads_bump _ _ _)) fun _ ↦ ?_
    split
    · exact lays_quiet (uses_map (reads_answer exchange _ _))
    split
    · next route _ =>
      cases route with
      | cacheInfo => exact lays_quiet (uses_map (reads_send exchange _ _))
      | metrics => exact lays_quiet (uses_map (reads_metrics exchange cache trivial))
      | narinfo key =>
        rw [dispatch, if_pos hput]
        exact lays_put_narinfo
      | nar url =>
        rw [dispatch, hput]
        exact lays_put_nar url
    · exact lays_quiet (uses_map (reads_answer exchange _ _))
    · exact lays_quiet (uses_map (reads_answer exchange _ _))
  · exact lays_quiet (quiet_handle cache fun h ↦ absurd h hput)

theorem lays_session (shard turns : ℕ) (connection : Connection) :
    (cache.session shard turns connection).run.Uses Op.Lays := by
  induction turns generalizing connection with
  | zero => trivial
  | succ turns ih =>
    refine uses_bind (uses_bind (uses_context
      (lays_quiet (Connection.reads_head connection))) ?_) ?_
    · rintro ⟨head, connection'⟩
      cases head with
      | none => trivial
      | some head =>
        dsimp only [attend]
        split
        · exact uses_bind (lays_quiet (reads_write _)) fun _ ↦ trivial
        · exact uses_bind lays_handle fun _ ↦ trivial
    · rintro ⟨turn, connection'⟩
      split
      · exact ih _
      · trivial

end Cache

/-! ### Commands -/

theorem lays_open : Boot.open.run.Uses Op.Lays :=
  uses_context (uses_bind (uses_context ⟨.inl rfl, fun _ ↦ trivial⟩) fun _ ↦
    uses_bind (uses_context ⟨.inr (.inr (.inl rfl)), fun _ ↦ trivial⟩) fun _ ↦
      uses_bind (uses_context ⟨.inr (.inl rfl), fun _ ↦ trivial⟩) fun _ ↦ trivial)

theorem lays_serve : Boot.serve.run.Uses Op.Lays := by
  refine uses_bind lays_open fun _ ↦ uses_bind (uses_context ?_) fun _ ↦
    uses_bind (uses_context ⟨trivial, fun _ ↦ trivial⟩) fun _ ↦ trivial
  refine uses_bind (lays_quiet (quiet_entries _)) fun paths ↦ ?_
  generalize 0 = swept
  induction paths generalizing swept with
  | nil => trivial
  | cons path paths ih =>
    rw [List.foldlM_cons]
    exact uses_bind (uses_bind (uses_context ⟨trivial, fun _ ↦ trivial⟩) fun _ ↦ trivial) ih

theorem lays_forM (batches : List (List NarInfo)) :
    (batches.forM fun batch ↦ (indexCall (.republish batch)).context .index :
      Call Maintain.Error PUnit).run.Uses Op.Lays := by
  induction batches with
  | nil => trivial
  | cons batch batches ih => exact uses_bind (uses_context ⟨trivial, fun _ ↦ trivial⟩) fun _ ↦ ih

theorem lays_command [Crates] (dir : Dir) (secret : SecretKey) (command : Command) :
    (command.program dir secret).Uses Op.Lays := by
  cases command with
  | serve => exact Program.Uses.bind lays_serve fun _ ↦ trivial
  | delete key =>
    refine Program.Uses.bind (uses_bind lays_open fun _ ↦ uses_context (uses_bind
      (uses_context ⟨trivial, fun _ ↦ trivial⟩) ?_)) fun _ ↦ trivial
    rintro (_ | record)
    · trivial
    · trivial
  | reconcile =>
    exact Program.Uses.bind (uses_bind lays_open fun _ ↦ uses_context (uses_bind
      (uses_context (lays_quiet quiet_scan)) fun _ ↦
        uses_bind (uses_context ⟨trivial, fun _ ↦ trivial⟩) fun _ ↦ trivial)) fun _ ↦ trivial
  | rotate =>
    exact Program.Uses.bind (uses_bind lays_open fun _ ↦ uses_context (uses_bind
      (uses_context ⟨trivial, fun _ ↦ trivial⟩) fun _ ↦
        uses_bind (lays_forM _) fun _ ↦ trivial)) fun _ ↦ trivial

end Lays

namespace Shared

variable {ι : Type} {contents : Set Bytes} {dir : Dir} {s : Shared ι}

/-- The protocol that asks for the layout and for nothing else. -/
def laying : Protocol ι (Shared ι) where
  valid s := Laid s.1.fs
  rely _ _ _ := True
  rely_refl _ _ := trivial
  rely_trans _ _ := trivial

theorem keeps_laying [Crates] : (machine contents : Machine ι (Shared ι)).Keeps dir laying
    (fun s ↦ Laid s.1.fs) where
  boots := by
    intro cache pid i s p s' p' _ hs hrun
    let inv (site : Shared ι × Peer) : Prop := Laid site.1.1.fs
    have hstart : inv (restart pid s, p) := hs
    have hfinal : inv (s', p') :=
      lays_serve.runs (fun op t answer t' hlays ht hop ↦ ht.step hlays hop.1) hstart hrun
    exact hfinal
  serves := by
    intro cache shard turns i p s _
    refine (Cache.lays_session shard turns {}).safe ?_
    intro op s p answer s' p' hlays hvalid hop
    exact ⟨Laid.step hvalid hlays hop.1, fun _ _ ↦ trivial⟩
  dies := id
  commands := by
    intro command secret pid i s p s' p' hs hvisit
    let inv (site : Shared ι × Peer) : Prop := Laid site.1.1.fs
    have hstart : inv (restart pid s, p) := hs
    have hfinal : inv (s', p') := (lays_command dir secret command).visits
      (fun op t answer t' hlays ht hop ↦ ht.step hlays hop.1) hstart hvisit
    exact hfinal

theorem laid_of_steps [Crates] [DecidableEq ι] {system : System ι (Shared ι)}
    (hsteps : System.Steps (machine contents) dir ⟨blank, none⟩ system) :
    Laid system.shared.1.fs := keeps_laying.reachable laid_empty hsteps

end Shared

/-! ## A start that meets no failure -/

namespace Boot

open Attempt

variable {world : World} {peer : Peer} {fs fs' : FileSystem}

/-- The directories every command makes. -/
def Opened (fs : FileSystem) : Prop := [Store.artifacts] ∈ fs.dirs ∧ [Store.staging] ∈ fs.dirs

theorem ends_createDirAll {ε : Type} (path : FilePath) (f : IoError → ε) :
    Ends .fair ((fileCall (.createDirAll path)).context f).run (fun result peer' world' ↦
      peer' = peer ∧ result = .ok () ∧ world' = { world with fs := world.fs.createDirAll path })
      (world, peer) := by
  refine safe_context (ends_call fun answer site' hop ↦ ends_done ?_)
  obtain ⟨henv, -, -⟩ | ⟨rfl, rfl⟩ := of_step_createDirAll hop
  · exact absurd henv (by decide)
  · exact ⟨rfl, rfl, rfl⟩

theorem ends_open_laid (h : Laid world.fs) : Ends .fair Boot.open.run (fun result peer' world' ↦
    peer' = peer ∧ result = .ok () ∧ Laid world'.fs ∧ Opened world'.fs
      ∧ world'.fs.links = world.fs.links ∧ world'.fs.files = world.fs.files
      ∧ world'.index = world.index) (world, peer) := by
  refine safe_context (safe_bind ((ends_createDirAll [] _).imp ?_))
  rintro _ peer₁ world₁ - ⟨rfl, rfl, rfl⟩
  refine safe_bind ((ends_createDirAll [Store.artifacts] _).imp ?_)
  rintro _ peer₂ world₂ - ⟨rfl, rfl, rfl⟩
  refine safe_bind ((ends_createDirAll [Store.staging] _).imp ?_)
  rintro _ peer₃ world₃ - ⟨rfl, rfl, rfl⟩
  refine ends_done ⟨rfl, rfl, ?_, ⟨?_, ?_⟩, rfl, rfl, rfl⟩
  · exact ((h.createDirAll (.inl rfl)).createDirAll (.inr (.inr (.inl rfl)))).createDirAll
      (.inr (.inl rfl))
  · simp [FileSystem.createDirAll]
  · simp [FileSystem.createDirAll]

end Boot

namespace Laid

variable {fs : FileSystem}

/-- What is right under the staging directory is a file. -/
theorem link_of_child {name : Bytes} (h : Laid fs) (hname : name ∈ fs.children [Store.staging]) :
    [Store.staging, name] ∈ fs.links := by
  refine (FileSystem.mem_children.mp hname).resolve_left fun hdir ↦ ?_
  obtain hplace | hplace | hplace | ⟨shard, hplace⟩ := h.dirs _ hdir
  · exact absurd hplace (by simp)
  · exact absurd hplace (by simp)
  · exact absurd hplace (by simp)
  · exact absurd (List.cons.inj hplace).1 (by decide)

theorem of_lookup {path : FilePath} (h : Laid fs) (hpath : path ∈ fs.links) :
    (∃ name, path = [Store.staging, name])
      ∨ ∃ url, path = Store.path url ∧ path.dropLast ∈ fs.dirs := by
  obtain ⟨inode, hlink⟩ := Option.isSome_iff_exists.mp (Finmap.lookup_isSome.mpr hpath)
  exact h.entries path inode hlink

theorem url_of_inTree {path : FilePath} (h : Laid fs) (hpath : Store.InTree fs path) :
    ∃ url, path = Store.path url ∧ path.dropLast ∈ fs.dirs := by
  obtain ⟨shard, name, rfl, hlink⟩ := hpath
  refine (h.of_lookup hlink).resolve_left ?_
  rintro ⟨name', heq⟩
  exact absurd (List.cons.inj heq).1 (by decide)

/-- A scan finds the tree in order, with each artifact where its URL says. -/
theorem payload (h : Laid fs) (hroot : [Store.artifacts] ∈ fs.dirs) : Store.Payload fs where
  root := hroot
  shards := by
    intro shard hlink
    obtain ⟨name, heq⟩ | ⟨url, heq, -⟩ := h.of_lookup hlink
    · exact absurd (List.cons.inj heq).1 (by decide)
    · exact absurd (congrArg List.length heq) (by simp [Store.path])
  files := by
    intro shard name hdir
    obtain heq | heq | heq | ⟨shard', heq⟩ := h.dirs _ hdir
    · exact absurd (congrArg List.length heq) (by simp)
    · exact absurd (congrArg List.length heq) (by simp)
    · exact absurd (congrArg List.length heq) (by simp)
    · exact absurd (congrArg List.length heq) (by simp)
  parents := by
    intro shard name hlink
    obtain ⟨url, -, hdir⟩ := h.url_of_inTree ⟨shard, name, rfl, hlink⟩
    exact hdir

theorem placed [Crates] (h : Laid fs) : Store.Placed fs := by
  intro path url hpath hurl
  obtain ⟨url', rfl, -⟩ := h.url_of_inTree hpath
  rw [Store.urlOf_path] at hurl
  rw [Option.some.inj hurl]

end Laid

namespace Boot

open Attempt

variable {world : World} {peer : Peer}

/-- The sweep unlinks what it was given, and comes to its end where all of it is there. -/
theorem ends_sweep (paths : List FilePath) (hnodup : paths.Nodup)
    (h : ∀ path ∈ paths, path ∈ world.fs.links) (swept : ℕ) :
    Ends .fair (paths.foldlM (fun swept path ↦ do
      (fileCall (.remove path)).context (.remove path)
      pure (swept + 1)) swept : Call Store.Error ℕ).run (fun result peer' world' ↦
        peer' = peer ∧ result = .ok (swept + paths.length) ∧ world'.index = world.index
          ∧ world'.fs.files = world.fs.files ∧ ∀ path, world'.fs.links.lookup path
            = if path ∈ paths then none else world.fs.links.lookup path) (world, peer) := by
  induction paths generalizing swept world with
  | nil => exact ends_done ⟨rfl, rfl, rfl, rfl, fun path ↦ rfl⟩
  | cons path paths ih =>
    obtain ⟨hnew, hnodup⟩ := List.nodup_cons.mp hnodup
    obtain ⟨hpath, hrest⟩ := List.forall_mem_cons.mp h
    rw [List.foldlM_cons]
    refine safe_bind (safe_bind (safe_context (ends_call fun answer site' hop ↦ ends_done ?_)))
    obtain ⟨-, -, hnone⟩ | ⟨rfl, rfl⟩ := of_step_remove_fair hop
    · rw [FileSystem.lookup_eq_none, Finmap.lookup_eq_none] at hnone
      exact absurd hpath hnone
    have hlookup : ∀ path', (world.fs.unlink path).links.lookup path'
        = if path' = path then none else world.fs.links.lookup path' := by
      intro path'
      rw [FileSystem.links_unlink, Table.lookup_erase_eq]
    have hlater : ∀ path' ∈ paths, path' ∈ (world.fs.unlink path).links := by
      intro path' hpath'
      rw [FileSystem.links_unlink, Finmap.mem_erase]
      exact ⟨fun heq ↦ hnew (heq ▸ hpath'), hrest path' hpath'⟩
    refine ends_done ((@ih { world with fs := world.fs.unlink path } hnodup hlater
      (swept + 1)).imp ?_)
    rintro result peer' world' - ⟨rfl, rfl, hindex, hfiles, hlinks⟩
    refine ⟨rfl, by rw [List.length_cons, Nat.add_assoc, Nat.add_comm 1], hindex, hfiles,
      fun path' ↦ ?_⟩
    rw [hlinks, hlookup]
    by_cases hpath' : path' = path
    · simp [hpath']
    · simp [hpath']

/-- A start that meets no failure comes to its end. It clears the staging directory, and changes no
row and no artifact. -/
theorem ends_serve (h : Laid world.fs) : Ends .fair Boot.serve.run (fun result _ world' ↦
    result = .ok () ∧ Vacant world' ∧ world'.view = world.view) (world, peer) := by
  refine safe_bind ((ends_open_laid h).imp ?_)
  rintro _ peer₁ world₁ - ⟨rfl, rfl, hlaid, hopened, hlinks, hfiles, hindex⟩
  refine safe_bind (safe_context (safe_bind ((Store.ends_entries [Store.staging]).imp ?_)))
  rintro (error | paths) peer₂ world₂ - ⟨rfl, rfl, hpaths⟩
  · exact absurd hpaths (by simp [hopened.2])
  obtain ⟨hnodup, hmem⟩ := hpaths
  have hthere : ∀ path ∈ paths, path ∈ world₂.fs.links := by
    intro path hpath
    obtain ⟨name, hname, rfl⟩ := (hmem path).mp hpath
    exact hlaid.link_of_child hname
  refine (ends_sweep paths hnodup hthere 0).imp ?_
  rintro _ peer₃ world₃ - ⟨rfl, rfl, hindex₃, hfiles₃, hlinks₃⟩
  refine safe_bind (safe_context ((ends_indexCall .count (world₃, peer₃)).imp ?_))
  rintro (error | count) peer₄ world₄ - ⟨rfl, hresult⟩
  · cases hresult.2
  obtain rfl : world₄ = world₃ := hresult.2
  refine ends_done ⟨rfl, fun path inode hlink hpath ↦ ?_, ?_⟩
  · rw [hlinks₃] at hlink
    split at hlink
    · exact absurd hlink (by simp)
    · next hnew =>
      obtain ⟨name, rfl⟩ | ⟨url, rfl, -⟩ := hlaid.entries path inode hlink
      · refine hnew ((hmem _).mpr ⟨name, ?_, rfl⟩)
        exact FileSystem.mem_children.mpr (.inr (Finmap.mem_of_lookup_eq_some hlink))
      · exact absurd (Option.some.inj hpath) (by decide)
  · -- the tree is elsewhere
    have htree : Shared.tree world₄.fs = Shared.tree world.fs := by
      refine Shared.tree_congr fun path hpath ↦ ?_
      rw [FileSystem.lookup, FileSystem.lookup, hlinks₃, hfiles₃, hfiles, if_neg, hlinks]
      intro hin
      obtain ⟨name, -, rfl⟩ := (hmem path).mp hin
      exact absurd (Option.some.inj hpath) (by decide)
    rw [World.view, World.view, htree, hindex₃, hindex]

theorem quiet_reconcile [Crates] : Maintain.reconcile.run.Uses Op.Quiet :=
  uses_bind (uses_context quiet_scan) fun _ ↦
    uses_bind (uses_context ⟨trivial, fun _ ↦ trivial⟩) fun _ ↦ trivial

/-- An inventory comes to its end too, and what it reports is true. Every file of the tree is an
artifact. -/
theorem ends_reconcile [Crates] (h : Laid world.fs) : Ends .fair Boot.reconcile.run
    (fun result _ world' ↦ ∃ found, result = .ok found ∧ Maintain.Truthful world' found
      ∧ found.unrecognizedFiles = [] ∧ world'.index = world.index
      ∧ world'.fs.lookup = world.fs.lookup) (world, peer) := by
  refine safe_bind ((ends_open_laid h).imp ?_)
  rintro _ peer₁ world₁ - ⟨rfl, rfl, hlaid, hopened, hlinks, hfiles, hindex⟩
  refine safe_context (@ends_of_runs _ .fair _ _ (world₁, peer₁) fun result site' hrun ↦ ?_)
  obtain ⟨paths, hnodup, hpaths, rfl⟩ :=
    (Maintain.ends_reconcile (hlaid.payload hopened.1)).runs hrun
  have htruth := Maintain.truthful_of_placed hnodup hpaths hlaid.placed
  obtain ⟨stats, hsteady⟩ : Steady world₁ site'.1 := by
    let inv (site : Site) : Prop := Steady world₁ site.1
    have hstart : inv (world₁, peer₁) := steady_refl world₁
    have hfinal : inv site' := quiet_reconcile.runs
      (fun op site answer site' hquiet hsite hop ↦ hsite.trans (steady_of_quiet hquiet hop))
      hstart hrun
    exact hfinal
  refine ⟨_, rfl, ?_, ?_, ?_, ?_⟩
  · rw [hsteady]
    exact ⟨htruth.missing, htruth.orphans, htruth.unrecognized⟩
  · rw [List.eq_nil_iff_forall_not_mem]
    intro path hpath
    obtain ⟨htree, hother⟩ := (htruth.unrecognized.2 path).mp hpath
    obtain ⟨url, rfl, -⟩ := hlaid.url_of_inTree htree
    exact hother url rfl
  · rw [hsteady]
    exact hindex
  · rw [hsteady]
    funext path
    rw [FileSystem.lookup, FileSystem.lookup, hlinks, hfiles]

end Boot

/-! ## Whatever was done before -/

namespace Shared

variable [Crates] {ι : Type} [DecidableEq ι] {contents : Set Bytes} {dir : Dir} {s : Shared ι}

/-- **Recovery.** Whatever state a directory was left in, by whatever deaths, a server can be
started on it again: a start in which nothing fails comes to its end, with nothing staged and with
the rows and artifacts that were there. -/
theorem recovers_of_steps
    (hsteps : System.Steps (machine contents) dir ⟨(blank : Shared ι), none⟩ ⟨s, none⟩) (pid : ℕ)
    (peer : Peer) :
    (∃ site', Boot.serve.run.Runs (Bincache.step .fair) ((restart pid s).1, peer) (.ok ()) site')
      ∧ ∀ result site', Boot.serve.run.Runs (Bincache.step .fair) ((restart pid s).1, peer) result
          site' → result = .ok () ∧ Vacant site'.1 ∧ site'.1.view = s.1.view := by
  have hlaid : Laid (restart pid s).1.fs := laid_of_steps hsteps
  have hall : ∀ result site', Boot.serve.run.Runs (Bincache.step .fair) ((restart pid s).1, peer)
      result site' → result = .ok () ∧ Vacant site'.1 ∧ site'.1.view = s.1.view :=
    fun result site' hrun ↦ (Boot.ends_serve hlaid).runs hrun
  obtain ⟨result, site', hrun⟩ := exists_runs_fair Boot.serve.run ((restart pid s).1, peer)
  obtain ⟨rfl, -⟩ := hall result site' hrun
  exact ⟨⟨site', hrun⟩, hall⟩

/-- **Inventory.** An inventory in which nothing fails never has to report a record whose artifact
is missing, or a file that is none of the cache's. What it reports is exactly which artifacts no
record names. -/
theorem inventories_of_steps
    (hsteps : System.Steps (machine contents) dir ⟨(blank : Shared ι), none⟩ ⟨s, none⟩) (pid : ℕ)
    (peer : Peer) {result : Except Boot.Error Maintain.Reconciliation} {site' : Site}
    (hrun : Boot.reconcile.run.Runs (Bincache.step .fair) ((restart pid s).1, peer) result site') :
    ∃ found, result = .ok found ∧ found.recordsWithoutArtifacts = []
      ∧ found.unrecognizedFiles = [] ∧ found.orphanArtifacts.Nodup
      ∧ (∀ url, url ∈ found.orphanArtifacts ↔ s.view.artifact url ≠ none
        ∧ ∀ key record, s.view.narinfo key = some record → record.nar ≠ url)
      ∧ site'.1.view = s.1.view := by
  have hlaid : Laid (restart pid s).1.fs := laid_of_steps hsteps
  have hsound : Sound s := keeps_backing.reachable sound_blank hsteps
  obtain ⟨found, rfl, htruth, hall, hindex, hlookup⟩ := (Boot.ends_reconcile hlaid).runs hrun
  have hartifact : ∀ url, s.view.artifact url = site'.1.fs.lookup (Store.path url) := by
    intro url
    rw [artifact_view, hlookup]
    rfl
  have hrow : ∀ record, record ∈ site'.1.index.records
      ↔ ∃ key, s.view.narinfo key = some record := by
    intro record
    rw [hindex]
    exact Index.mem_records
  refine ⟨found, rfl, ?_, hall, htruth.orphans.1, fun url ↦ ?_, ?_⟩
  · -- every record is backed by its artifact
    rw [htruth.missing, List.map_eq_nil_iff, List.filter_eq_nil_iff]
    intro record hrecord habsent
    obtain ⟨key, hkey⟩ := (hrow record).mp hrecord
    refine hsound.backed.records key record hkey ?_
    rw [hartifact]
    exact of_decide_eq_true habsent
  · rw [htruth.orphans.2, hartifact]
    refine and_congr Iff.rfl ⟨fun h key record hkey ↦ ?_, fun h record hrecord ↦ ?_⟩
    · exact h record ((hrow record).mpr ⟨key, hkey⟩)
    · obtain ⟨key, hkey⟩ := (hrow record).mp hrecord
      exact h key record hkey
  · have htree : tree site'.1.fs = tree s.1.fs :=
      tree_congr fun path _ ↦ congrFun hlookup path
    rw [World.view, World.view, htree, hindex]
    rfl

end Shared

section Specimen

open Specimen Shared

/-- The server dies after its first upload, and another is started. -/
theorem recovers_first : ∃ (s : Shared ℕ) (site' : Site),
    s.view.nar ⟨narDigest⟩ = some entry
      ∧ Boot.serve.run.Runs (Bincache.step .fair) ((restart 8 s).1, ⟨[], []⟩) (.ok ()) site'
      ∧ Vacant site'.1 ∧ site'.1.view = s.1.view := by
  obtain ⟨s, hs, hrow⟩ := Option.bind_eq_some_iff.mp nar_first
  obtain ⟨threads, hsteps⟩ := steps_of_serveAll mem_frame hs
  obtain ⟨⟨site', hrun⟩, hall⟩ := recovers_of_steps (hsteps.tail .kill) 8 ⟨[], []⟩
  exact ⟨s, site', hrow, hrun, (hall _ _ hrun).2⟩

/-- The server dies after its first upload, and what it left is listed. -/
theorem inventories_first : ∃ (s : Shared ℕ) (found : Maintain.Reconciliation) (site' : Site),
    s.view.nar ⟨narDigest⟩ = some entry
      ∧ Boot.reconcile.run.Runs (Bincache.step .fair) ((restart 8 s).1, ⟨[], []⟩) (.ok found) site'
      ∧ found.recordsWithoutArtifacts = [] ∧ found.unrecognizedFiles = [] := by
  obtain ⟨s, hs, hrow⟩ := Option.bind_eq_some_iff.mp nar_first
  obtain ⟨threads, hsteps⟩ := steps_of_serveAll mem_frame hs
  obtain ⟨result, site', hrun⟩ := exists_runs_fair Boot.reconcile.run ((restart 8 s).1, ⟨[], []⟩)
  obtain ⟨found, rfl, hmissing, hall, -⟩ := inventories_of_steps (hsteps.tail .kill) 8 ⟨[], []⟩ hrun
  exact ⟨s, found, site', hrow, hrun, hmissing, hall⟩

end Specimen

end Bincache
