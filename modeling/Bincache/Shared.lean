import Bincache.Ingest.Maintain
import Bincache.Ingest.Upload

/-!
# What concurrent requests share

The state of a running cache, with two things written down that the program does not keep: which
participant drew a staging ordinal, and under which key a record was last signed. `View` is what of
this state outlives an upload — the two tables, the files under `nar/`, the signers — and what a
reader of the cache can tell apart.

How requests share the staging directory is the same whatever they do with the view, so it is proved
once: `Discipline.protocol` adds to a protocol on views that a staging file belongs to whoever drew
its ordinal, and each operation below says what it does to the view and that it keeps that. A
participant that restarts, or a file that was swept, needs no rule here: a new process starts from
an empty ledger.
-/

namespace Bincache

/-- The tables, the files under `nar/` and the key each record was last signed under. -/
@[ext]
structure View where
  narinfo : StorePath.Hash → Option NarInfo
  nar : Sha256 → Option Entry
  tree : FilePath → Option File
  signer : StorePath.Hash → Option SecretKey

namespace View

def artifact (view : View) (url : NarUrl) : Option File := view.tree (Store.path url)

def commit (view : View) (url : NarUrl) (file : File) : View :=
  { view with tree := Function.update view.tree (Store.path url) (some file) }

def putNar (view : View) (narHash : Sha256) (entry : Entry) : View :=
  { view with nar := Function.update view.nar narHash (some entry) }

def publish (view : View) (record : NarInfo) (key : SecretKey) : View :=
  { view with
    narinfo := Function.update view.narinfo record.storePath.hash (some record)
    signer := Function.update view.signer record.storePath.hash (some key) }

theorem artifact_commit (view : View) (url url' : NarUrl) (file : File) :
    (view.commit url file).artifact url'
      = if url' = url then some file else view.artifact url' := by
  rw [artifact, artifact, commit]
  dsimp only
  rw [Function.update_apply]
  simp only [Store.path_injective.eq_iff]

end View

/-- What the program does not keep: who drew each staging ordinal, and under which key each record
was last signed. -/
structure Ledger (ι : Type) where
  owner : ℕ → Option ι
  signer : StorePath.Hash → Option SecretKey

namespace Ledger

variable {ι : Type}

/-- The records a transaction signs when it commits. -/
def signed : IndexOp → List NarInfo
  | .publish record => [record]
  | .republish records => records
  | _ => []

/-- Notes that these records were last signed under a key. -/
def sign (ledger : Ledger ι) (key : SecretKey) (records : List NarInfo) : Ledger ι :=
  let note (signer : StorePath.Hash → Option SecretKey) (record : NarInfo) :=
    Function.update signer record.storePath.hash (some key)
  { ledger with signer := records.foldl note ledger.signer }

/-- Notes what participant `i`, signing under `key`, got done. -/
def track (ledger : Ledger ι) (key : SecretKey) (i : ι) : (op : Op) → Ans op → Ledger ι
  | .index op, answer => if answer.isOk then ledger.sign key (signed op) else ledger
  | .nextOrdinal, ordinal => { ledger with owner := Function.update ledger.owner ordinal (some i) }
  | .file _, _ => ledger
  | .recv, _ => ledger
  | .send _, _ => ledger
  | .processId, _ => ledger
  | .bump _ _ _, _ => ledger
  | .totals _, _ => ledger

end Ledger

/-- The state of a running cache and its ledger. -/
abbrev Shared (ι : Type) := World × Ledger ι

namespace Shared

variable {ι : Type}

def tree (fs : FileSystem) (path : FilePath) : Option File :=
  if path.head? = some Store.artifacts then fs.lookup path else none

def view (s : Shared ι) : View := ⟨s.1.index.narinfo, s.1.index.nar, tree s.1.fs, s.2.signer⟩

theorem tree_path (fs : FileSystem) (url : NarUrl) :
    tree fs (Store.path url) = fs.lookup (Store.path url) := if_pos rfl

theorem artifact_view (s : Shared ι) (url : NarUrl) :
    s.view.artifact url = s.1.fs.lookup (Store.path url) := tree_path s.1.fs url

theorem tree_congr {fs fs' : FileSystem}
    (h : ∀ path, path.head? = some Store.artifacts → fs'.lookup path = fs.lookup path) :
    tree fs' = tree fs := by
  funext path
  rw [tree, tree]
  split
  · next hpath => exact h path hpath
  · rfl

theorem head_stagedPath (pid n : ℕ) : (Store.stagedPath pid n).head? = some Store.staging := rfl

theorem ne_stagedPath {path : FilePath} (h : path.head? = some Store.artifacts) (pid n : ℕ) :
    path ≠ Store.stagedPath pid n := by
  rintro rfl
  exact absurd (Option.some.inj h) (by decide)

theorem tree_rename {fs fs' : FileSystem} {pid n : ℕ} {url : NarUrl} {file : File}
    (hfile : fs.lookup (Store.stagedPath pid n) = some file)
    (h : fs.rename (Store.stagedPath pid n) (Store.path url) = some fs') :
    tree fs' = Function.update (tree fs) (Store.path url) (some file) := by
  funext path
  rw [tree, Function.update_apply, FileSystem.lookup_rename h, hfile]
  split
  · next hpath =>
    split
    · rfl
    · rw [if_neg (ne_stagedPath hpath pid n), tree, if_pos hpath]
  · next hpath =>
    rw [if_neg, tree, if_neg hpath]
    rintro rfl
    exact hpath rfl

/-! ## Steps with a ledger -/

/-- Every file that is renamed holds bytes of `contents`. -/
def Commits (contents : Set Bytes) (fs : FileSystem) : Op → Prop
  | .file (.rename path _) => ∀ file, fs.lookup path = some file → file.data ∈ contents
  | _ => True

/-- The step of participant `i`, who signs under `key`, in a run that commits only `contents`. -/
def step (env : Env) (contents : Set Bytes) (key : SecretKey) (i : ι) :
    Interpretation Ans (Shared ι × Peer) := fun op s answer s' ↦
  Bincache.step env op (s.1.1, s.2) answer (s'.1.1, s'.2)
    ∧ s'.1.2 = s.1.2.track key i op answer ∧ Commits contents s.1.1.fs op

/-- Two states that differ in statistics only. -/
structure Same (s s' : Shared ι) : Prop where
  index : s'.1.index = s.1.index
  fs : s'.1.fs = s.1.fs
  pid : s'.1.pid = s.1.pid
  sequence : s'.1.sequence = s.1.sequence
  ledger : s'.2 = s.2

theorem Same.view {s s' : Shared ι} (h : Same s s') : s'.view = s.view := by
  rw [Shared.view, Shared.view, h.index, h.fs, h.ledger]

theorem same_refl (s : Shared ι) : Same s s := ⟨rfl, rfl, rfl, rfl, rfl⟩

theorem Same.trans {a b c : Shared ι} (hab : Same a b) (hbc : Same b c) : Same a c :=
  ⟨hbc.index.trans hab.index, hbc.fs.trans hab.fs, hbc.pid.trans hab.pid,
    hbc.sequence.trans hab.sequence, hbc.ledger.trans hab.ledger⟩

variable {env : Env} {contents : Set Bytes} {key : SecretKey} {i : ι} {s s' : Shared ι}
  {p p' : Peer}

/-- A quiet operation leaves the shared state as it was, and the plain step says the rest. -/
theorem same_of_quiet {op : Op} {answer : Ans op} (hquiet : op.Quiet)
    (h : step env contents key i op (s, p) answer (s', p')) : Same s s' := by
  obtain ⟨hstep, hledger, -⟩ := h
  obtain ⟨world, ledger⟩ := s
  obtain ⟨world', ledger'⟩ := s'
  obtain ⟨stats, rfl⟩ := steady_of_quiet hquiet hstep
  refine ⟨rfl, rfl, rfl, rfl, hledger.trans ?_⟩
  cases op with
  | index op =>
    cases op <;> first | exact hquiet.elim | exact ite_self ledger
  | nextOrdinal => exact hquiet.elim
  | _ => rfl

/-! ## Sharing the staging directory -/

/-- The ordinals drawn so far are below the counter, and the staging directory holds nothing but
files whose ordinal somebody drew. -/
structure Staging (s : Shared ι) : Prop where
  fresh : ∀ n, s.2.owner n ≠ none → n < s.1.sequence
  drawn : ∀ path inode, s.1.fs.links.lookup path = some inode → path.head? = some Store.staging →
    ∃ n, path = Store.stagedPath s.1.pid n ∧ s.2.owner n ≠ none

/-- What the others leave alone of what participant `i` stages. -/
structure Unstaged (i : ι) (s s' : Shared ι) : Prop where
  pid : s'.1.pid = s.1.pid
  dirs : s.1.fs.dirs ⊆ s'.1.fs.dirs
  owner : ∀ n, s'.2.owner n = some i ↔ s.2.owner n = some i
  entry : ∀ n, s.2.owner n = some i →
    s'.1.fs.links.lookup (Store.stagedPath s.1.pid n)
      = s.1.fs.links.lookup (Store.stagedPath s.1.pid n)
  names : ∀ n inode file, s.2.owner n = some i →
    s.1.fs.Names (Store.stagedPath s.1.pid n) inode file →
    s'.1.fs.Names (Store.stagedPath s.1.pid n) inode file

theorem unstaged_refl (i : ι) (s : Shared ι) : Unstaged i s s :=
  ⟨rfl, Finset.Subset.refl _, fun _ ↦ Iff.rfl, fun _ _ ↦ rfl, fun _ _ _ _ h ↦ h⟩

theorem Unstaged.trans {i : ι} {a b c : Shared ι} (hab : Unstaged i a b) (hbc : Unstaged i b c) :
    Unstaged i a c where
  pid := hbc.pid.trans hab.pid
  dirs := hab.dirs.trans hbc.dirs
  owner n := (hbc.owner n).trans (hab.owner n)
  entry n hn := by
    rw [← hab.entry n hn, ← hab.pid]
    exact hbc.entry n ((hab.owner n).mpr hn)
  names n inode file hn h := by
    rw [← hab.pid]
    exact hbc.names n inode file ((hab.owner n).mpr hn) (hab.pid ▸ hab.names n inode file hn h)

theorem Same.staging {s s' : Shared ι} (h : Same s s') (hs : Staging s) : Staging s' := by
  obtain ⟨world, ledger⟩ := s
  obtain ⟨world', ledger'⟩ := s'
  obtain ⟨hindex, hfs, hpid, hsequence, hledger⟩ := h
  dsimp only at hindex hfs hpid hsequence hledger
  subst hledger
  refine ⟨fun n hn ↦ ?_, fun path inode hlink hpath ↦ ?_⟩
  · rw [hsequence]
    exact hs.fresh n hn
  · rw [hpid]
    exact hs.drawn path inode (hfs ▸ hlink) hpath

theorem Same.unstaged {s s' : Shared ι} (h : Same s s') (i : ι) : Unstaged i s s' := by
  obtain ⟨world, ledger⟩ := s
  obtain ⟨world', ledger'⟩ := s'
  obtain ⟨hindex, hfs, hpid, hsequence, hledger⟩ := h
  dsimp only at hindex hfs hpid hsequence hledger
  subst hledger
  exact ⟨hpid, by rw [hfs], fun n ↦ Iff.rfl, fun n _ ↦ by rw [hfs],
    fun n inode file _ hnames ↦ by rw [hfs]; exact hnames⟩

/-- A protocol on views, extended by how the staging directory is shared. -/
def protocol (D : Protocol ι View) : Protocol ι (Shared ι) where
  valid s := Staging s ∧ D.valid s.view
  rely i s s' := Unstaged i s s' ∧ D.rely i s.view s'.view
  rely_refl i s := ⟨unstaged_refl i s, D.rely_refl i _⟩
  rely_trans hab hbc := ⟨hab.1.trans hbc.1, D.rely_trans hab.2 hbc.2⟩

/-! ## What each operation of participant `i` does to the staging directory and to the view -/

/-- The change of a participant's operation, as far as the staging directory goes. -/
structure Kept (i : ι) (s s' : Shared ι) : Prop where
  staging : Staging s'
  unstaged : ∀ j, j ≠ i → Unstaged j s s'

theorem Same.kept {s s' : Shared ι} (h : Same s s') (hs : Staging s) : Kept i s s' :=
  ⟨h.staging hs, fun j _ ↦ h.unstaged j⟩

theorem Staging.entry_eq_none (hs : Staging s) {n : ℕ} (hn : s.2.owner n = none) :
    s.1.fs.links.lookup (Store.stagedPath s.1.pid n) = none := by
  rw [Option.eq_none_iff_forall_ne_some]
  intro inode hlink
  obtain ⟨m, hm, howner⟩ := hs.drawn _ inode hlink (head_stagedPath _ _)
  obtain rfl := Store.stagedPath_injective _ hm
  exact howner hn

/-- A change by participant `i` that, of all staging entries, touches at most that of an ordinal. -/
structure Touched (i : ι) (n : ℕ) (s s' : Shared ι) : Prop extends Kept i s s' where
  pid : s'.1.pid = s.1.pid
  owner : s'.2.owner = s.2.owner
  dirs : s.1.fs.dirs ⊆ s'.1.fs.dirs
  entry : ∀ m, m ≠ n → s'.1.fs.links.lookup (Store.stagedPath s.1.pid m)
    = s.1.fs.links.lookup (Store.stagedPath s.1.pid m)

theorem touched_of_unstaged {n : ℕ} (hs : Staging s') (h : ∀ j, Unstaged j s s')
    (howner : s'.2.owner = s.2.owner) (hlinks : s'.1.fs.links = s.1.fs.links) : Touched i n s s' :=
  ⟨⟨hs, fun j _ ↦ h j⟩, (h i).pid, howner, (h i).dirs, fun m _ ↦ by rw [hlinks]⟩

theorem Same.touched {n : ℕ} (h : Same s s') (hs : Staging s) : Touched i n s s' :=
  touched_of_unstaged (h.staging hs) h.unstaged (by rw [h.ledger]) (by rw [h.fs])

theorem ne_of_owner {n m : ℕ} {j : ι} (hn : s.2.owner n = some i) (hm : s.2.owner m = some j)
    (hj : j ≠ i) : Store.stagedPath s.1.pid m ≠ Store.stagedPath s.1.pid n := by
  intro h
  obtain rfl := Store.stagedPath_injective _ h
  exact hj (Option.some.inj (hm.symm.trans hn))

/-- A change of the file system alone, which leaves the entries and files of all the others. -/
private theorem touched_of_fs {fs : FileSystem} {n : ℕ} {ledger : Ledger ι} {world : World}
    (hs : Staging (world, ledger)) (hn : ledger.owner n = some i) (hdirs : world.fs.dirs ⊆ fs.dirs)
    (hdrawn : ∀ path inode, fs.links.lookup path = some inode →
      path.head? = some Store.staging → path = Store.stagedPath world.pid n
        ∨ ∃ inode', world.fs.links.lookup path = some inode')
    (hentry : ∀ path, path ≠ Store.stagedPath world.pid n → path.head? = some Store.staging →
      fs.links.lookup path = world.fs.links.lookup path)
    (hnames : ∀ path inode file, path ≠ Store.stagedPath world.pid n →
      path.head? = some Store.staging → world.fs.Names path inode file → fs.Names path inode file) :
    Touched i n (world, ledger) ({ world with fs }, ledger) := by
  refine ⟨⟨⟨hs.fresh, fun path inode hlink hpath ↦ ?_⟩, fun j hj ↦ ⟨rfl, hdirs, fun m ↦ Iff.rfl,
    fun m hm ↦ hentry _ (ne_of_owner (s := (world, ledger)) hn hm hj) (head_stagedPath _ _),
    fun m inode file hm h ↦
      hnames _ _ _ (ne_of_owner (s := (world, ledger)) hn hm hj) (head_stagedPath _ _) h⟩⟩,
    rfl, rfl, hdirs, fun m hm ↦
      hentry _ (fun heq ↦ hm (Store.stagedPath_injective _ heq)) (head_stagedPath _ _)⟩
  obtain rfl | ⟨inode', hlink'⟩ := hdrawn path inode hlink hpath
  · exact ⟨n, rfl, by rw [hn]; exact Option.some_ne_none i⟩
  · exact hs.drawn path inode' hlink' hpath

theorem step_nextOrdinal {answer : ℕ} (hs : Staging s)
    (h : step env contents key i .nextOrdinal (s, p) answer (s', p')) :
    Kept i s s' ∧ s'.view = s.view ∧ s'.1.fs = s.1.fs ∧ s'.1.pid = s.1.pid
      ∧ s.2.owner answer = none ∧ s'.2.owner = Function.update s.2.owner answer (some i) := by
  obtain ⟨hstep, hledger, -⟩ := h
  obtain ⟨world, ledger⟩ := s
  obtain ⟨world', ledger'⟩ := s'
  obtain ⟨rfl, hsite⟩ := of_step_nextOrdinal hstep
  obtain ⟨rfl, -⟩ := Prod.mk.inj hsite
  dsimp only [Ledger.track] at hledger
  subst hledger
  have hnone : ledger.owner world.sequence = none := by
    by_contra hsome
    exact (hs.fresh _ hsome).false
  refine ⟨⟨⟨fun n hn ↦ ?_, fun path inode hlink hpath ↦ ?_⟩, fun j hj ↦
    ⟨rfl, Finset.Subset.refl _, fun n ↦ ?_, fun _ _ ↦ rfl, fun _ _ _ _ h ↦ h⟩⟩,
    rfl, rfl, rfl, hnone, rfl⟩
  · by_cases heq : n = world.sequence
    · exact heq ▸ Nat.lt_succ_self _
    · have hn' : ledger.owner n ≠ none := by
        dsimp only at hn
        rwa [Function.update_of_ne heq] at hn
      exact Nat.lt_succ_of_lt (hs.fresh n hn')
  · obtain ⟨n, rfl, hn⟩ := hs.drawn path inode hlink hpath
    refine ⟨n, rfl, ?_⟩
    dsimp only
    rw [Function.update_of_ne]
    · exact hn
    · rintro rfl
      exact hn hnone
  · dsimp only
    rw [Function.update_apply]
    split
    · next heq =>
      rw [heq, hnone]
      simp [Ne.symm hj]
    · exact Iff.rfl

theorem step_create {n : ℕ} {answer : Except IoError ℕ} (hs : Staging s)
    (hn : s.2.owner n = some i)
    (h : step env contents key i (.file (.create (Store.stagedPath s.1.pid n))) (s, p) answer
      (s', p')) :
    Touched i n s s' ∧ s'.view = s.view
      ∧ ((∃ error, answer = .error error) ∧ s' = s
          ∧ (env = .hostile ∨ [Store.staging] ∉ s.1.fs.dirs)
        ∨ ∃ inode, answer = .ok inode
          ∧ s'.1.fs.Names (Store.stagedPath s.1.pid n) inode .empty) := by
  obtain ⟨hstep, hledger, -⟩ := h
  obtain ⟨world, ledger⟩ := s
  obtain ⟨world', ledger'⟩ := s'
  obtain rfl : ledger' = ledger := hledger
  obtain ⟨herror, hsite, hreason⟩ | ⟨rfl, hsite⟩ := of_step_create hstep
  · obtain ⟨rfl, -⟩ := Prod.mk.inj hsite
    exact ⟨(same_refl _).touched hs, rfl, .inl ⟨herror, rfl, hreason⟩⟩
  · obtain ⟨rfl, -⟩ := Prod.mk.inj hsite
    have hlookup := world.fs.lookup_create (Store.stagedPath world.pid n)
    refine ⟨touched_of_fs hs hn (FileSystem.dirs_create _).ge (fun path inode hlink _ ↦ ?_)
      (fun path hne _ ↦ ?_) (fun path inode file hne _ hnames ↦ hnames.create hne),
      ?_, .inr ⟨_, rfl, FileSystem.names_create _ _⟩⟩
    · by_cases heq : path = Store.stagedPath world.pid n
      · exact .inl heq
      · exact .inr ⟨inode, (FileSystem.entry_create _ heq).symm.trans hlink⟩
    · exact FileSystem.entry_create _ hne
    · rw [view, view, tree_congr fun path hpath ↦ ?_]
      rw [hlookup, if_neg (ne_stagedPath hpath _ _)]

theorem step_writeAt {n inode offset : ℕ} {file : File} {bytes : Bytes}
    {answer : Except IoError Unit} (hs : Staging s) (hn : s.2.owner n = some i)
    (hnames : s.1.fs.Names (Store.stagedPath s.1.pid n) inode file)
    (h : step env contents key i (.file (.writeAt inode offset bytes)) (s, p) answer (s', p')) :
    Touched i n s s' ∧ s'.view = s.view
      ∧ (env = .hostile ∧ (∃ error, answer = .error error)
        ∨ answer = .ok ()
          ∧ s'.1.fs.Names (Store.stagedPath s.1.pid n) inode (file.write offset bytes)) := by
  obtain ⟨hstep, hledger, -⟩ := h
  obtain ⟨world, ledger⟩ := s
  obtain ⟨world', ledger'⟩ := s'
  obtain rfl : ledger' = ledger := hledger
  have hkept : ∀ bytes, Touched i n (world, ledger')
      ({ world with fs := world.fs.writeAt inode offset bytes }, ledger') := by
    intro bytes
    refine touched_of_fs hs hn (Finset.Subset.refl _)
      (fun path inode' hlink _ ↦ .inr ⟨inode', hlink⟩)
      (fun _ _ _ ↦ rfl) fun path inode' file' hne _ hnames' ↦
        hnames'.writeAt_of_ne (hnames'.inode_ne hnames hne) _ _
  have hview : ∀ bytes, view (({ world with fs := world.fs.writeAt inode offset bytes }, ledger')
      : Shared ι) = view (world, ledger') := by
    intro bytes
    rw [view, view, tree_congr fun path hpath ↦ ?_]
    rw [hnames.lookup_writeAt, if_neg (ne_stagedPath hpath _ _)]
  obtain ⟨henv, rfl, count, hsite⟩ | ⟨rfl, hsite⟩ := of_step_writeAt hstep
  · obtain ⟨rfl, -⟩ := Prod.mk.inj hsite
    exact ⟨hkept _, hview _, .inl ⟨henv, _, rfl⟩⟩
  · obtain ⟨rfl, -⟩ := Prod.mk.inj hsite
    exact ⟨hkept _, hview _, .inr ⟨rfl, hnames.writeAt _ _⟩⟩

theorem step_createDirAll {n : ℕ} {path : FilePath} {answer : Except IoError Unit} (hs : Staging s)
    (h : step env contents key i (.file (.createDirAll path)) (s, p) answer (s', p')) :
    Touched i n s s' ∧ Unstaged i s s' ∧ s'.view = s.view
      ∧ (env = .hostile ∧ (∃ error, answer = .error error)
        ∨ answer = .ok () ∧ path ∈ s'.1.fs.dirs) := by
  obtain ⟨hstep, hledger, -⟩ := h
  obtain ⟨world, ledger⟩ := s
  obtain ⟨world', ledger'⟩ := s'
  obtain rfl : ledger' = ledger := hledger
  obtain ⟨henv, rfl, hsite⟩ | ⟨rfl, hsite⟩ := of_step_createDirAll hstep
  · obtain ⟨rfl, -⟩ := Prod.mk.inj hsite
    exact ⟨(same_refl _).touched hs, unstaged_refl i _, rfl, .inl ⟨henv, _, rfl⟩⟩
  · obtain ⟨rfl, -⟩ := Prod.mk.inj hsite
    have hunstaged : ∀ j, Unstaged j (world, ledger')
        ({ world with fs := world.fs.createDirAll path }, ledger') :=
      fun j ↦ ⟨rfl, Finset.subset_union_left, fun _ ↦ Iff.rfl, fun _ _ ↦ rfl,
        fun _ _ _ _ hnames ↦ (FileSystem.names_createDirAll _ _).mpr hnames⟩
    refine ⟨touched_of_unstaged ⟨hs.fresh, hs.drawn⟩ hunstaged rfl rfl, hunstaged i, rfl,
      .inr ⟨rfl, ?_⟩⟩
    exact Finset.mem_union_right _ (by simp)

theorem step_rename {n inode : ℕ} {url : NarUrl} {file : File} {answer : Except IoError Unit}
    (hs : Staging s) (hn : s.2.owner n = some i)
    (hnames : s.1.fs.Names (Store.stagedPath s.1.pid n) inode file)
    (h : step env contents key i (.file (.rename (Store.stagedPath s.1.pid n) (Store.path url)))
      (s, p) answer (s', p')) :
    Touched i n s s' ∧ file.data ∈ contents
      ∧ (((∃ error, answer = .error error) ∧ s' = s
          ∧ (env = .hostile ∨ (Store.path url).dropLast ∉ s.1.fs.dirs))
        ∨ answer = .ok () ∧ s'.view = s.view.commit url file
          ∧ s'.1.fs.links.lookup (Store.stagedPath s.1.pid n) = none) := by
  obtain ⟨hstep, hledger, hcommits⟩ := h
  obtain ⟨world, ledger⟩ := s
  obtain ⟨world', ledger'⟩ := s'
  obtain rfl : ledger' = ledger := hledger
  have hdata : file.data ∈ contents := hcommits file hnames.lookup
  obtain ⟨herror, hsite, hreason⟩ | ⟨rfl, fs, hrename, hsite⟩ := of_step_rename hstep
  · obtain ⟨rfl, -⟩ := Prod.mk.inj hsite
    refine ⟨(same_refl _).touched hs, hdata, .inl ⟨herror, rfl, ?_⟩⟩
    obtain henv | hdir | hnone := hreason
    · exact .inl henv
    · exact .inr hdir
    · exact absurd (hnone.symm.trans hnames.lookup) (by simp)
  · obtain ⟨rfl, -⟩ := Prod.mk.inj hsite
    have hlookup := FileSystem.lookup_rename hrename
    -- of the entries under `staging/` only the one that is renamed goes
    have hentry : ∀ path, path ≠ Store.stagedPath world.pid n → path.head? = some Store.staging →
        fs.links.lookup path = world.fs.links.lookup path := by
      intro path hne hpath
      refine FileSystem.entry_rename hrename hne ?_
      rintro rfl
      exact absurd (Option.some.inj hpath) (by decide)
    refine ⟨touched_of_fs hs hn (FileSystem.dirs_rename hrename).ge
      (fun path inode' hlink hpath ↦ ?_)
      hentry (fun path inode' file' hne hpath h ↦ h.rename hrename hne ?_), hdata,
      .inr ⟨rfl, ?_, ?_⟩⟩
    · by_cases heq : path = Store.stagedPath world.pid n
      · exact .inl heq
      · exact .inr ⟨inode', (hentry path heq hpath).symm.trans hlink⟩
    · rintro rfl
      exact absurd (Option.some.inj hpath) (by decide)
    · rw [view, view, View.commit, tree_rename hnames.lookup hrename]
    · rw [← FileSystem.lookup_eq_none, hlookup, if_neg (Store.stagedPath_ne_path _ _ _), if_pos rfl]

theorem step_remove {n : ℕ} {answer : Except IoError Unit} (hs : Staging s)
    (hn : s.2.owner n = some i)
    (h : step env contents key i (.file (.remove (Store.stagedPath s.1.pid n))) (s, p) answer
      (s', p')) :
    Touched i n s s' ∧ s'.view = s.view
      ∧ (env = .hostile ∨ s'.1.fs.links.lookup (Store.stagedPath s.1.pid n) = none) := by
  obtain ⟨hstep, hledger, -⟩ := h
  obtain ⟨world, ledger⟩ := s
  obtain ⟨world', ledger'⟩ := s'
  obtain rfl : ledger' = ledger := hledger
  obtain ⟨-, hsite, hreason⟩ | ⟨-, hsite⟩ := of_step_remove hstep
  · obtain ⟨rfl, -⟩ := Prod.mk.inj hsite
    exact ⟨(same_refl _).touched hs, rfl, hreason.imp_right (FileSystem.lookup_eq_none _).mp⟩
  · obtain ⟨rfl, -⟩ := Prod.mk.inj hsite
    have hlinks : ∀ path, path ≠ Store.stagedPath world.pid n →
        (world.fs.unlink (Store.stagedPath world.pid n)).links.lookup path
          = world.fs.links.lookup path := by
      intro path hne
      rw [FileSystem.links_unlink, Table.lookup_erase_eq, if_neg hne]
    refine ⟨touched_of_fs hs hn (Finset.Subset.refl _) (fun path inode hlink _ ↦ ?_)
      (fun path hne _ ↦ hlinks path hne) (fun path inode file hne _ hnames ↦ hnames.unlink hne), ?_,
      .inr (by rw [FileSystem.links_unlink, Table.lookup_erase_eq, if_pos rfl])⟩
    · by_cases heq : path = Store.stagedPath world.pid n
      · exact .inl heq
      · exact .inr ⟨inode, (hlinks path heq).symm.trans hlink⟩
    · rw [view, view, tree_congr fun path hpath ↦ ?_]
      rw [FileSystem.lookup_unlink, if_neg (ne_stagedPath hpath _ _)]

/-- A transaction leaves the staging directory alone. -/
theorem step_index {n : ℕ} {op : IndexOp} {answer : Except IndexError op.Value} (hs : Staging s)
    (h : step env contents key i (.index op) (s, p) answer (s', p')) :
    Touched i n s s' ∧ Unstaged i s s' ∧ s'.1.fs = s.1.fs
      ∧ (env = .hostile ∧ answer = .error .failed ∧ s' = s
        ∨ answer = .ok (op.run s.1.index).1 ∧ s'.1.index = (op.run s.1.index).2
          ∧ s'.2 = s.2.sign key (Ledger.signed op)) := by
  obtain ⟨hstep, hledger, -⟩ := h
  obtain ⟨world, ledger⟩ := s
  obtain ⟨world', ledger'⟩ := s'
  obtain ⟨henv, rfl, hsite⟩ | ⟨rfl, hsite⟩ := of_step_index hstep
  · obtain ⟨rfl, -⟩ := Prod.mk.inj hsite
    obtain rfl : ledger' = ledger := hledger
    exact ⟨(same_refl _).touched hs, unstaged_refl i _, rfl, .inl ⟨henv, rfl, rfl⟩⟩
  · obtain ⟨rfl, -⟩ := Prod.mk.inj hsite
    obtain rfl : ledger' = ledger.sign key (Ledger.signed op) := hledger
    have hunstaged : ∀ j, Unstaged j (world, ledger)
        ({ world with index := (op.run world.index).2 }, ledger.sign key (Ledger.signed op)) :=
      fun j ↦ ⟨rfl, Finset.Subset.refl _, fun _ ↦ Iff.rfl, fun _ _ ↦ rfl, fun _ _ _ _ h ↦ h⟩
    exact ⟨touched_of_unstaged ⟨hs.fresh, hs.drawn⟩ hunstaged rfl rfl, hunstaged i, rfl,
      .inr ⟨rfl, rfl, rfl⟩⟩

end Shared

end Bincache
