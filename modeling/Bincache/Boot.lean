import Bincache.Ingest.Auth
import Bincache.Ingest.Maintain
import Bincache.Shared

/-!
# The composition root

What each subcommand does to the data directory: all of them open it first, `serve` sweeps the
staging directory before the shards start, and the operators' commands run with the server stopped.
Opening the index changes no row, so it is not an operation here.

Apart from the rows a rotation signs, everything below is upkeep: operations that make directories,
clear staging files, forget a record or only read.
-/

namespace Bincache

namespace Boot

inductive Error
  | store (source : Store.Error)
  | index (source : IndexError)
  | maintain (source : Maintain.Error)
  | path (path : Text) (source : StorePath.Error)
deriving DecidableEq

def «open» : Call Error Unit := Store.openAt.context .store

/-- What `serve` does before the shards start. -/
def serve : Call Error Unit := do
  Boot.open
  let _ ← Store.sweepStaging.context .store
  let _ ← (indexCall .count).context .index
  pure ()

def delete (key : StorePath.Hash) : Call Error Maintain.Deleted := do
  Boot.open
  (Maintain.delete key).context .maintain

def lastPart (path : Text) : Text := ((path.splitOn '/').getLast?).getD path

/-- The key an argument of `delete` is taken for; `none` when it cannot be cut where a hash ends,
which panics. -/
def keyOf (path : Text) : Option (Except Error StorePath.Hash) :=
  let text := lastPart path
  (StorePath.splitAt (min (Text.byteLen text) StorePath.hashTextLen) text).map fun halves ↦
    (StorePath.Hash.parse halves.1).mapError (.path path)

/-- The whole command, with its argument as the operator wrote it; `none` when it panics, which is
before it opens anything. -/
def deletePath (path : Text) : Option (Call Error Maintain.Deleted) :=
  (keyOf path).map fun key ↦ do
    let key ← Attempt.ofExcept key
    delete key

/-- The push credentials a server is given: the flags, and the lines of a file. -/
def credentials (pushToken : List Text) (pushTokenFile : Option Text) : List Text :=
  pushToken.filter (· ≠ []) ++ match pushTokenFile with
    | none => []
    | some text => ((Text.lines text).map Text.trim).filter (· ≠ [])

variable [Crates]

def pushTokens (pushToken : List Text) (pushTokenFile : Option Text) : Tokens :=
  .new (credentials pushToken pushTokenFile)

/-- What stands in front of the entry for clients. -/
def entryLabel : Text := "trusted-public-keys entry: ".toList

/-- What `keygen` prints, the secret on one stream and the public half on the other. -/
def keygen (name : Text) (seed : Octets keyWidth) : Text × Text :=
  let key := SecretKey.generate name seed
  (key.render ++ ['\n'], entryLabel ++ key.publicHalf.render ++ ['\n'])

def reconcile : Call Error Maintain.Reconciliation := do
  Boot.open
  Maintain.reconcile.context .maintain

def rotate (dir : Dir) (key : SecretKey) : Call Error ℕ := do
  Boot.open
  (Maintain.rotate dir key).context .maintain

end Boot

/-! ## Upkeep -/

/-- Operations that leave artifacts alone and write no row. -/
def Op.Upkeep : Op → Prop
  | .file (.createDirAll _) => True
  | .file (.remove path) => path.head? = some Store.staging
  | .index (.unpublish _) => True
  | op => op.Quiet

namespace Op

theorem Quiet.upkeep {op : Op} (h : op.Quiet) : op.Upkeep := by
  cases op with
  | index op => cases op <;> first | exact h | trivial
  | file op => cases op <;> first | exact h | trivial
  | _ => exact h

/-- What a start consists of. -/
def Starting : Op → Prop
  | .file (.createDirAll _) => True
  | .file (.readDir _) => True
  | .file (.remove path) => path.head? = some Store.staging
  | .index .count => True
  | _ => False

theorem Starting.upkeep {op : Op} (h : op.Starting) : op.Upkeep := by
  cases op with
  | index op => cases op <;> first | exact h.elim | trivial
  | file op => cases op <;> first | exact h.elim | exact h
  | _ => exact h.elim

end Op

section Upkeep

open Attempt

theorem upkeep_quiet {α : Type} {program : Program Ans α} (h : program.Uses Op.Quiet) :
    program.Uses Op.Upkeep := h.imp fun _ ↦ Op.Quiet.upkeep

theorem starting_open : Boot.open.run.Uses Op.Starting := by
  have hdir : ∀ path : FilePath,
      ((fileCall (.createDirAll path)).context (Store.Error.createDir path)).run.Uses Op.Starting :=
    fun path ↦ uses_context ⟨trivial, fun _ ↦ trivial⟩
  refine uses_context ?_
  exact uses_bind (hdir _) fun _ ↦ uses_bind (hdir _) fun _ ↦ uses_bind (hdir _) fun _ ↦ trivial

theorem quiet_entries (path : FilePath) : (Store.entries path).run.Uses Op.Quiet :=
  uses_bind (uses_context ⟨trivial, fun _ ↦ trivial⟩) fun _ ↦ trivial

theorem starting_sweep (paths : List FilePath) (h : ∀ path ∈ paths, path.head? = some Store.staging)
    (swept : ℕ) : (paths.foldlM (fun swept path ↦ do
      (fileCall (.remove path)).context (.remove path)
      pure (swept + 1)) swept : Call Store.Error ℕ).run.Uses Op.Starting := by
  induction paths generalizing swept with
  | nil => trivial
  | cons path paths ih =>
    rw [List.foldlM_cons]
    refine uses_bind (uses_bind (uses_context ⟨h path List.mem_cons_self, fun _ ↦ trivial⟩)
      fun _ ↦ trivial) fun swept' ↦ ?_
    exact ih (fun path' hpath' ↦ h path' (List.mem_cons_of_mem path hpath')) swept'

theorem starting_entries {f : List FilePath → Call Store.Error ℕ}
    (hf : ∀ names : List Bytes, (f (names.map fun name ↦ [Store.staging] ++ [name])).run.Uses
      Op.Starting) : (Store.entries [Store.staging] >>= f).run.Uses Op.Starting := by
  rw [Store.entries, bind_assoc]
  exact uses_bind (uses_context ⟨trivial, fun _ ↦ trivial⟩) fun names ↦ hf names

theorem starting_serve : Boot.serve.run.Uses Op.Starting := by
  refine uses_bind starting_open fun _ ↦ uses_bind (uses_context ?_) fun _ ↦
    uses_bind (uses_context ⟨trivial, fun _ ↦ trivial⟩) fun _ ↦ trivial
  refine starting_entries fun names ↦ starting_sweep _ (fun path hpath ↦ ?_) 0
  obtain ⟨name, -, rfl⟩ := List.mem_map.mp hpath
  rfl

theorem upkeep_open : Boot.open.run.Uses Op.Upkeep := starting_open.imp fun _ ↦ Op.Starting.upkeep

theorem upkeep_serve : Boot.serve.run.Uses Op.Upkeep :=
  starting_serve.imp fun _ ↦ Op.Starting.upkeep

theorem upkeep_delete (key : StorePath.Hash) : (Boot.delete key).run.Uses Op.Upkeep := by
  refine uses_bind upkeep_open fun _ ↦ uses_context (uses_bind
    (uses_context ⟨trivial, fun _ ↦ trivial⟩) ?_)
  rintro (_ | record)
  · trivial
  · trivial

variable [Crates]

theorem quiet_scan : Store.scan.run.Uses Op.Quiet := by
  refine uses_bind (quiet_entries _) fun shards ↦ ?_
  generalize ({} : Store.Scan) = found
  induction shards generalizing found with
  | nil => trivial
  | cons shard shards ih =>
    rw [List.foldlM_cons]
    exact uses_bind (uses_bind (quiet_entries shard) fun _ ↦ trivial) fun found' ↦ ih found'

theorem upkeep_reconcile : Boot.reconcile.run.Uses Op.Upkeep := by
  refine uses_bind upkeep_open fun _ ↦ upkeep_quiet (uses_context ?_)
  exact uses_bind (uses_context quiet_scan) fun _ ↦
    uses_bind (uses_context ⟨trivial, fun _ ↦ trivial⟩) fun _ ↦ trivial

end Upkeep

/-! ## What the sweep leaves -/

namespace Shared

variable {ι : Type} {env : Env} {contents : Set Bytes} {key : SecretKey} {i : ι} {s s' : Shared ι}
  {p p' : Peer}

/-- Every staging file is right in the staging directory. -/
def Flat (s : Shared ι) : Prop := ∀ path inode, s.1.fs.links.lookup path = some inode →
  path.head? = some Store.staging → ∃ name, path = [Store.staging, name]

/-- No entry is new. -/
def Clears (s s' : Shared ι) : Prop := ∀ path inode,
  s'.1.fs.links.lookup path = some inode → s.1.fs.links.lookup path = some inode

theorem clears_refl (s : Shared ι) : Clears s s := fun _ _ h ↦ h

theorem Clears.trans {a b c : Shared ι} (hab : Clears a b) (hbc : Clears b c) : Clears a c :=
  fun path inode h ↦ hab path inode (hbc path inode h)

theorem Flat.clears (h : Flat s) (hclears : Clears s s') : Flat s' :=
  fun path inode hlink ↦ h path inode (hclears path inode hlink)

theorem Clears.none {path : FilePath} (h : Clears s s')
    (hnone : s.1.fs.links.lookup path = none) : s'.1.fs.links.lookup path = none := by
  rw [Option.eq_none_iff_forall_ne_some] at hnone ⊢
  exact fun inode hlink ↦ hnone inode (h path inode hlink)

theorem clears_of_upkeep {op : Op} {answer : Ans op} (hupkeep : op.Upkeep)
    (h : step env contents key i op (s, p) answer (s', p')) : Clears s s' := by
  by_cases hquiet : op.Quiet
  · rw [Clears, (same_of_quiet hquiet h).fs]
    exact fun _ _ hlink ↦ hlink
  obtain ⟨hstep, -, -⟩ := h
  obtain ⟨world, ledger⟩ := s
  obtain ⟨world', ledger'⟩ := s'
  cases op with
  | file op =>
    cases op with
    | createDirAll path =>
      obtain ⟨-, -, hsite⟩ | ⟨-, hsite⟩ := of_step_createDirAll hstep
      · obtain ⟨rfl, -⟩ := Prod.mk.inj hsite
        exact clears_refl _
      · obtain ⟨rfl, -⟩ := Prod.mk.inj hsite
        exact fun _ _ hlink ↦ hlink
    | remove path =>
      obtain ⟨-, hsite, -⟩ | ⟨-, hsite⟩ := of_step_remove hstep
      · obtain ⟨rfl, -⟩ := Prod.mk.inj hsite
        exact clears_refl _
      · obtain ⟨rfl, -⟩ := Prod.mk.inj hsite
        intro path' inode hlink
        dsimp only at hlink
        rw [FileSystem.links_unlink, Table.lookup_erase_eq] at hlink
        split at hlink
        · exact absurd hlink (by simp)
        · exact hlink
    | _ => exact absurd hupkeep hquiet
  | index op =>
    obtain ⟨-, -, hsite⟩ | ⟨-, hsite⟩ := of_step_index hstep
    · obtain ⟨rfl, -⟩ := Prod.mk.inj hsite
      exact clears_refl _
    · obtain ⟨rfl, -⟩ := Prod.mk.inj hsite
      exact clears_refl _
  | _ => exact absurd hupkeep hquiet

/-- Alone. -/
abbrev Attains {α : Type} (env : Env) (contents : Set Bytes) (key : SecretKey) (i : ι)
    (program : Program Ans α) (post : α → Shared ι → Prop) (p : Peer) (s : Shared ι) : Prop :=
  program.Safe (.alone (Shared ι)) (fun _ ↦ step env contents key i) ()
    (fun value _ s' ↦ post value s') p s

theorem attains_upkeep {α : Type} {program : Program Ans α} (h : program.Uses Op.Upkeep) :
    Attains env contents key i program (fun _ s' ↦ Clears s s') p s := by
  refine Program.safe_alone_iff.mpr fun value s' p' hrun ↦ ?_
  let inv (site : Shared ι × Peer) : Prop := Clears s site.1
  have hstart : inv (s, p) := clears_refl s
  have hfinal : inv (s', p') := by
    refine h.runs (fun op t answer t' hupkeep ht hop ↦ ?_) hstart hrun
    exact ht.trans (clears_of_upkeep hupkeep hop)
  exact hfinal

theorem attains_sweep (paths : List FilePath)
    (h : ∀ path ∈ paths, path.head? = some Store.staging) (swept : ℕ) :
    Attains env contents key i (paths.foldlM (fun swept path ↦ do
      (fileCall (.remove path)).context (.remove path)
      pure (swept + 1)) swept : Call Store.Error ℕ).run (fun result s' ↦ Clears s s'
        ∧ ∀ n, result = .ok n → ∀ path ∈ paths, s'.1.fs.links.lookup path = none) p s := by
  induction paths generalizing swept p s with
  | nil =>
    exact Program.safe_alone_done.mpr ⟨clears_refl s, fun _ _ _ hmem ↦ absurd hmem List.not_mem_nil⟩
  | cons path paths ih =>
    have hupkeep : Op.Upkeep (.file (.remove path)) := h path List.mem_cons_self
    rw [List.foldlM_cons]
    refine Attempt.safe_bind (Attempt.safe_bind (Attempt.safe_context
      (Program.safe_alone_call.mpr fun answer s₁ p₁ hop ↦ Program.safe_alone_done.mpr ?_)))
    have hclears := clears_of_upkeep hupkeep hop
    cases answer with
    | error error => exact ⟨hclears, fun _ herror ↦ absurd herror (by simp)⟩
    | ok value =>
      have hgone : s₁.1.fs.links.lookup path = none := by
        obtain ⟨⟨_, herror⟩, -⟩ | ⟨-, hsite⟩ := of_step_remove hop.1
        · exact absurd herror (by simp)
        · rw [(Prod.mk.inj hsite).1]
          simp
      refine Program.safe_alone_done.mpr ((ih (fun path' hpath' ↦
        h path' (List.mem_cons_of_mem path hpath')) (swept + 1)).imp ?_)
      rintro result p' s' - ⟨hclears', hrest⟩
      refine ⟨hclears.trans hclears', fun n hn path' hpath' ↦ ?_⟩
      obtain rfl | hpath' := List.mem_cons.mp hpath'
      · exact hclears'.none hgone
      · exact hrest n hn path' hpath'

/-- After a boot there is no staging file, and nothing that was not there before. -/
theorem attains_serve (hflat : Flat s) :
    Attains env contents key i Boot.serve.run (fun result s' ↦ Clears s s'
      ∧ (result = .ok () → ∀ path inode, s'.1.fs.links.lookup path = some inode →
        path.head? ≠ some Store.staging)) p s := by
  refine Attempt.safe_bind ((attains_upkeep upkeep_open).imp ?_)
  rintro (error | ⟨⟩) p₁ s₁ - hclears₁
  · exact ⟨hclears₁, fun h ↦ absurd h (by simp)⟩
  have hflat₁ := hflat.clears hclears₁
  refine Attempt.safe_bind (Attempt.safe_context ?_)
  refine Attempt.safe_bind (Attempt.safe_bind (Attempt.safe_context
    (Program.safe_alone_call.mpr fun answer s₂ p₂ hop ↦ Program.safe_alone_done.mpr ?_)))
  have hlists : Op.Quiet (.file (.readDir [Store.staging])) := trivial
  have hfs : s₂.1.fs = s₁.1.fs := (same_of_quiet hlists hop).fs
  have hflat₂ := hflat₁.clears (clears_of_upkeep hlists.upkeep hop)
  have hclears₂ : Clears s s₂ := hclears₁.trans (clears_of_upkeep hlists.upkeep hop)
  obtain ⟨-, ⟨⟨error, rfl⟩, -⟩ | ⟨names, rfl, -, hnames⟩⟩ := of_step_readDir hop.1
  · exact ⟨hclears₂, fun h ↦ absurd h (by simp)⟩
  refine Program.safe_alone_done.mpr ((attains_sweep _ (fun path hpath ↦ ?_) 0).imp ?_)
  · obtain ⟨name, -, rfl⟩ := List.mem_map.mp hpath
    rfl
  rintro (error | n) p₃ s₃ - ⟨hclears₃, hswept⟩
  · exact ⟨hclears₂.trans hclears₃, fun h ↦ absurd h (by simp)⟩
  have hclean : ∀ path inode, s₃.1.fs.links.lookup path = some inode →
      path.head? ≠ some Store.staging := by
    intro path inode hlink hpath
    have hlink₂ := hclears₃ path inode hlink
    obtain ⟨name, rfl⟩ := hflat₂ path inode hlink₂ hpath
    -- The listing had this name, so the sweep took it away.
    have hmem : name ∈ names := by
      rw [← List.mem_toFinset, hnames, FileSystem.mem_children]
      rw [hfs] at hlink₂
      exact .inr (Finmap.mem_of_lookup_eq_some hlink₂)
    have hnone := hswept n rfl _ (List.mem_map_of_mem hmem)
    exact absurd (hlink.symm.trans hnone) (by simp)
  refine Attempt.safe_bind (Attempt.safe_context (Program.safe_alone_call.mpr
    fun answer s₄ p₄ hop₄ ↦ Program.safe_alone_done.mpr ?_))
  have hcounts : Op.Quiet (.index .count) := trivial
  have hclears₄ := clears_of_upkeep hcounts.upkeep hop₄
  have hall := (hclears₂.trans hclears₃).trans hclears₄
  cases answer with
  | error error => exact ⟨hall, fun h ↦ absurd h (by simp)⟩
  | ok count =>
    exact Program.safe_alone_done.mpr ⟨hall, fun _ path inode hlink ↦
      hclean path inode (hclears₄ path inode hlink)⟩

end Shared

end Bincache
