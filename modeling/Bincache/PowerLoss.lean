import Bincache.Lib.Disk
import Bincache.Lifetime
import Bincache.Serve.Conduct

/-!
# When the power goes

An outage ends whatever is running and keeps both tables, which are written in transactions. Of the
files it leaves what the disk has of them, and that depends on what was synced. The program syncs
the bytes of an artifact before it renames it, and never syncs a directory.

## The construction

A `Disk` is kept under the cache: every operation that was answered leaves its mark on it
(`Op.mark`). An `fsync` settles the bytes of a file, and a change of a directory is pending from
then on, since no operation settles one. A `Durable` state is the shared state together with its
disk, and `Outage kept` puts what the disk makes of the files in place of the files, where of the
pending changes those in `kept` have got through. Lives with outages are `Steps`.

## The invariant

Before a row is written, the artifact it names was synced and renamed, so the bytes are never in
question: `Sound` says so of every inode that may turn up under the name of an artifact, and
`Stable` of the whole disk. What a session must know for this of the file it is staging, that it is
its own and was synced when it is renamed, is `Bond`; the conduct of a session hands it on from one
operation to the next (`Bond.next`).

The name is in question. What an outage leaves is right if and only if it spares the entries, and
the directories above them, of the artifacts that the rows name (`truthful_iff_spared`).
-/

namespace Bincache

/-! ## The disk under the file system -/

/-- What an operation does to the disk, given the file system it acts on and its answer. -/
def Op.mark (fs : FileSystem) (disk : Disk) : (op : Op) → Ans op → Disk
  | .file (.createDirAll path), .ok _ => disk.note (fs.missing path)
  | .file (.create path), .ok inode =>
    if path ∈ fs.links then disk.soil inode else (disk.soil inode).note [.link path inode]
  | .file (.writeAt inode _ _), _ => disk.soil inode
  | .file (.sync inode), .ok _ => disk.settle inode
  | .file (.rename path target), .ok _ =>
    (fs.links.lookup path).elim disk fun inode ↦ disk.note [.move path target inode]
  | .file (.remove path), .ok _ => disk.note [.unlink path]
  | _, _ => disk

/-- The bytes of an inode are on disk, they are an artifact of this URL, and no staging file can
change them. -/
structure Sound [Crates] (contents : Set Bytes) (fs : FileSystem) (disk : Disk) (url : NarUrl)
    (inode : ℕ) : Prop where
  clean : inode ∈ disk.clean
  lt : inode < fs.next
  apart : ∀ path, fs.links.lookup path = some inode → path.head? ≠ some Store.staging
  file : ∃ data ∈ contents, fs.files inode = .of data ∧ url.fileHash = .digest data

/-- If all changes get to the disk it has the file system as it is. No change takes an artifact
away, and what a loss may leave in place of one is sound. -/
structure Stable [Crates] (contents : Set Bytes) (fs : FileSystem) (disk : Disk) : Prop where
  current : disk.after disk.pending = fs.directory
  stays : ∀ change ∈ disk.pending, ∀ url, ¬change.Clears (Store.path url)
  sound : ∀ url inode, disk.MayName (Store.path url) inode → Sound contents fs disk url inode
  flat : ∀ path inode, disk.MayName path inode → path.head? = some Store.staging →
    ∃ name, path = [Store.staging, name]

/-- What is asked of an operation for the disk to stay stable. -/
def Careful [Crates] (contents : Set Bytes) (fs : FileSystem) (disk : Disk) :
    (op : Op) → Ans op → Prop
  | .file (.create path), _ => ∃ name, path = [Store.staging, name]
  | .file (.writeAt inode _ _), _ =>
    ∃ path, path.head? = some Store.staging ∧ fs.links.lookup path = some inode
  | .file (.rename path target), .ok _ => path.head? = some Store.staging
    ∧ ∃ url, target = Store.path url ∧ ∀ inode, fs.links.lookup path = some inode →
      inode ∈ disk.clean ∧ ∃ data ∈ contents, fs.files inode = .of data
        ∧ url.fileHash = .digest data
  | .file (.remove path), _ => path.head? = some Store.staging
  | _, _ => True

section Stable

variable [Crates] {contents : Set Bytes} {fs fs' : FileSystem} {disk disk' : Disk}

theorem Sound.later {url : NarUrl} {inode : ℕ} (h : Sound contents fs disk url inode)
    (hclean : inode ∈ disk'.clean) (hnext : fs.next ≤ fs'.next)
    (hlinks : ∀ path, fs'.links.lookup path = some inode → path.head? = some Store.staging →
      fs.links.lookup path = some inode)
    (hfile : fs'.files inode = fs.files inode) : Sound contents fs' disk' url inode := by
  refine ⟨hclean, h.lt.trans_le hnext, fun path hlink hpath ↦ ?_, hfile ▸ h.file⟩
  exact h.apart path (hlinks path hlink hpath) hpath

omit [Crates] in
theorem not_clears_path {path : FilePath} (hpath : path.head? = some Store.staging) (url : NarUrl) :
    Store.path url ≠ path := by
  rintro rfl
  exact absurd (Option.some.inj hpath) (by decide)

theorem Stable.stays_note (h : Stable contents fs disk) {changes : List Change}
    (hchanges : ∀ change ∈ changes, ∀ url, ¬change.Clears (Store.path url)) :
    ∀ change ∈ (disk.note changes).pending, ∀ url, ¬change.Clears (Store.path url) := by
  intro change hmem
  obtain hmem | hmem := List.mem_append.mp hmem
  · exact h.stays change hmem
  · exact hchanges change hmem

theorem Stable.flat_note (h : Stable contents fs disk) {changes : List Change}
    (hchanges : ∀ change ∈ changes, ∀ path inode, change.Names path inode →
      path.head? = some Store.staging → ∃ name, path = [Store.staging, name]) :
    ∀ path inode, (disk.note changes).MayName path inode → path.head? = some Store.staging →
      ∃ name, path = [Store.staging, name] := by
  intro path inode hmay hpath
  obtain hmay | ⟨change, hmem, hnames⟩ := Disk.mayName_note.mp hmay
  · exact h.flat path inode hmay hpath
  · exact hchanges change hmem path inode hnames hpath

theorem Stable.createDirAll (h : Stable contents fs disk) (path : FilePath) :
    Stable contents (fs.createDirAll path) (disk.note (fs.missing path)) := by
  have hmakes : ∀ change ∈ fs.missing path, ∃ dir, change = .makeDir dir := by
    intro change hmem
    obtain ⟨dir, -, rfl⟩ := List.mem_map.mp hmem
    exact ⟨dir, rfl⟩
  refine ⟨?_, h.stays_note ?_, fun url inode hmay ↦ ?_, h.flat_note ?_⟩
  · rw [Disk.after_note, h.current, FileSystem.directory_createDirAll]
  · intro change hmem url hclears
    obtain ⟨dir, rfl⟩ := hmakes change hmem
    exact hclears
  · obtain hmay | ⟨change, hmem, hnames⟩ := Disk.mayName_note.mp hmay
    · exact (h.sound url inode hmay).later (h.sound url inode hmay).clean le_rfl
        (fun _ hlink _ ↦ hlink) rfl
    · obtain ⟨dir, rfl⟩ := hmakes change hmem
      exact hnames.elim
  · intro change hmem path' inode hnames
    obtain ⟨dir, rfl⟩ := hmakes change hmem
    exact hnames.elim

theorem Stable.create (h : Stable contents fs disk) {path : FilePath}
    (hname : ∃ name, path = [Store.staging, name]) :
    Stable contents (fs.create path).1
      (Op.mark fs disk (.file (.create path)) (.ok (fs.create path).2)) := by
  have hpath : path.head? = some Store.staging := by
    obtain ⟨name, rfl⟩ := hname
    rfl
  rw [FileSystem.create]
  cases hlink : fs.links.lookup path with
  -- the file is there and is truncated: its inode is soiled, but no artifact has it
  | some inode =>
    have hmem : path ∈ fs.links := Finmap.mem_of_lookup_eq_some hlink
    dsimp only [Op.mark]
    rw [if_pos hmem]
    refine ⟨h.current, h.stays, fun url inode' hmay ↦ ?_, h.flat⟩
    have hsound := h.sound url inode' hmay
    have hne : inode' ≠ inode := by
      rintro rfl
      exact hsound.apart path hlink hpath
    exact hsound.later (Disk.mem_clean_soil.mpr ⟨hne, hsound.clean⟩) le_rfl
      (fun _ hlink _ ↦ hlink) (Function.update_of_ne hne ..)
  | none =>
    have hmem : path ∉ fs.links := Finmap.lookup_eq_none.mp hlink
    dsimp only [Op.mark]
    rw [if_neg hmem]
    have hflat : ∀ change ∈ [Change.link path fs.next], ∀ path' inode, change.Names path' inode →
        path'.head? = some Store.staging → ∃ name, path' = [Store.staging, name] := by
      intro change hmem path' inode hnames _
      obtain rfl := List.mem_singleton.mp hmem
      exact hnames.1 ▸ hname
    refine ⟨?_, h.stays_note ?_, fun url inode hmay ↦ ?_, h.flat_note hflat⟩
    · rw [Disk.after_note, FileSystem.directory_addEntry]
      exact congrArg (Directory.apply · (.link path fs.next)) h.current
    · intro change hmem url hclears
      obtain rfl := List.mem_singleton.mp hmem
      exact hclears
    · obtain hmay | ⟨change, hmem, hnames⟩ := Disk.mayName_note.mp hmay
      · have hsound := h.sound url inode hmay
        refine hsound.later (Disk.mem_clean_soil.mpr ⟨hsound.lt.ne, hsound.clean⟩) (Nat.le_succ _)
          (fun path' hlink' _ ↦ ?_) (Function.update_of_ne hsound.lt.ne ..)
        rw [FileSystem.links_addEntry, Table.lookup_insert_eq] at hlink'
        split at hlink'
        · exact absurd (Option.some.inj hlink') hsound.lt.ne'
        · exact hlink'
      · obtain rfl := List.mem_singleton.mp hmem
        exact absurd hnames.1.symm (not_clears_path hpath url)

theorem Stable.writeAt (h : Stable contents fs disk) {path : FilePath} {inode : ℕ}
    (hpath : path.head? = some Store.staging) (hlink : fs.links.lookup path = some inode)
    (offset : ℕ) (bytes : Bytes) :
    Stable contents (fs.writeAt inode offset bytes) (disk.soil inode) := by
  refine ⟨h.current, h.stays, fun url inode' hmay ↦ ?_, h.flat⟩
  have hsound := h.sound url inode' hmay
  have hne : inode' ≠ inode := by
    rintro rfl
    exact hsound.apart path hlink hpath
  exact hsound.later (Disk.mem_clean_soil.mpr ⟨hne, hsound.clean⟩) le_rfl
    (fun _ hlink _ ↦ hlink) (Function.update_of_ne hne ..)

theorem Stable.sync (h : Stable contents fs disk) (inode : ℕ) :
    Stable contents fs (disk.settle inode) :=
  ⟨h.current, h.stays, fun url inode' hmay ↦ (h.sound url inode' hmay).later
    (Finset.mem_insert_of_mem (h.sound url inode' hmay).clean) le_rfl (fun _ hlink _ ↦ hlink) rfl,
    h.flat⟩

theorem Stable.rename (h : Stable contents fs disk) {path : FilePath} {url : NarUrl}
    (hcareful : Careful contents fs disk (.file (.rename path (Store.path url))) (.ok ()))
    (hrename : fs.rename path (Store.path url) = some fs') :
    Stable contents fs' (Op.mark fs disk (.file (.rename path (Store.path url))) (.ok ())) := by
  obtain ⟨hpath, url', hurl, hinode⟩ := hcareful
  obtain rfl := Store.path_injective hurl
  obtain ⟨inode, hlink, hdirectory⟩ := fs.directory_rename hrename
  obtain ⟨inode', hlink', rfl⟩ := FileSystem.rename_eq_some.mp hrename
  obtain rfl := Option.some.inj (hlink.symm.trans hlink')
  obtain ⟨hclean, hfile⟩ := hinode inode hlink
  have hlinks : ∀ path' inode', (fs.moveEntry path (Store.path url) inode hlink').links.lookup path'
      = some inode' → path'.head? = some Store.staging → path' ≠ path
        ∧ fs.links.lookup path' = some inode' := by
    intro path' inode' hentry hpath'
    change ((fs.links.erase path).insert (Store.path url) inode).lookup path'
      = some inode' at hentry
    rw [Table.lookup_insert_eq, if_neg (not_clears_path hpath' url).symm, Table.lookup_erase_eq]
      at hentry
    split at hentry
    · exact absurd hentry (by simp)
    · next hne => exact ⟨hne, hentry⟩
  -- what gets a name under `nar/` is synced, so a loss that keeps the name keeps the bytes
  dsimp only [Op.mark]
  rw [hlink, Option.elim_some]
  refine ⟨?_, h.stays_note ?_, fun url'' inode'' hmay ↦ ?_, h.flat_note ?_⟩
  · rw [Disk.after_note, hdirectory]
    exact congrArg (Directory.apply · (.move path (Store.path url) inode)) h.current
  · intro change hmem url'' hclears
    obtain rfl := List.mem_singleton.mp hmem
    exact not_clears_path hpath url'' hclears.symm
  · obtain hmay | ⟨change, hmem, hnames⟩ := Disk.mayName_note.mp hmay
    · have hsound := h.sound url'' inode'' hmay
      exact hsound.later hsound.clean le_rfl (fun path' hentry hpath' ↦
        (hlinks path' inode'' hentry hpath').2) rfl
    · obtain rfl := List.mem_singleton.mp hmem
      obtain ⟨htarget, rfl⟩ := hnames
      obtain rfl := Store.path_injective htarget
      refine ⟨hclean, fs.link_lt hlink, fun path' hentry hpath' ↦ ?_, hfile⟩
      obtain ⟨hne, hentry⟩ := hlinks path' inode hentry hpath'
      exact hne (fs.link_injective hentry hlink)
  · intro change hmem path' inode' hnames hpath'
    obtain rfl := List.mem_singleton.mp hmem
    exact absurd hnames.1 (not_clears_path hpath' url)

theorem Stable.remove (h : Stable contents fs disk) {path : FilePath}
    (hpath : path.head? = some Store.staging) :
    Stable contents (fs.unlink path) (disk.note [.unlink path]) := by
  refine ⟨?_, h.stays_note ?_, fun url inode hmay ↦ ?_, h.flat_note ?_⟩
  · rw [Disk.after_note, FileSystem.directory_unlink]
    exact congrArg (Directory.apply · (.unlink path)) h.current
  · intro change hmem url hclears
    obtain rfl := List.mem_singleton.mp hmem
    exact not_clears_path hpath url hclears.symm
  · obtain hmay | ⟨change, hmem, hnames⟩ := Disk.mayName_note.mp hmay
    · have hsound := h.sound url inode hmay
      refine hsound.later hsound.clean le_rfl (fun path' hlink _ ↦ ?_) rfl
      rw [FileSystem.links_unlink, Table.lookup_erase_eq] at hlink
      split at hlink
      · exact absurd hlink (by simp)
      · exact hlink
    · obtain rfl := List.mem_singleton.mp hmem
      exact hnames.elim
  · intro change hmem path' inode hnames
    obtain rfl := List.mem_singleton.mp hmem
    exact hnames.elim

/-- A careful operation keeps the disk stable. -/
theorem Stable.step {env : Env} {op : Op} {answer : Ans op} {world world' : World}
    {peer peer' : Peer}
    (h : Stable contents world.fs disk) (hcareful : Careful contents world.fs disk op answer)
    (hstep : step env op (world, peer) answer (world', peer')) :
    Stable contents world'.fs (op.mark world.fs disk answer) := by
  -- of the quiet operations only a sync leaves a mark on the disk
  by_cases hquiet : op.Quiet
  · obtain ⟨stats, rfl⟩ := steady_of_quiet hquiet hstep
    cases op with
    | file op =>
      cases op with
      | sync inode =>
        cases answer with
        | error error => exact h
        | ok value => exact h.sync inode
      | _ => first | exact h | exact hquiet.elim
    | _ => exact h
  cases op with
  | file op =>
    cases op with
    | createDirAll path =>
      obtain ⟨-, rfl, hsite⟩ | ⟨rfl, hsite⟩ := of_step_createDirAll hstep
      · obtain ⟨rfl, -⟩ := Prod.mk.inj hsite
        exact h
      · obtain ⟨rfl, -⟩ := Prod.mk.inj hsite
        exact h.createDirAll path
    | create path =>
      obtain ⟨⟨error, rfl⟩, hsite, -⟩ | ⟨rfl, hsite⟩ := of_step_create hstep
      · obtain ⟨rfl, -⟩ := Prod.mk.inj hsite
        exact h
      · obtain ⟨rfl, -⟩ := Prod.mk.inj hsite
        exact h.create hcareful
    | writeAt inode offset bytes =>
      obtain ⟨path, hpath, hlink⟩ := hcareful
      obtain ⟨-, -, count, hsite⟩ | ⟨-, hsite⟩ := of_step_writeAt hstep
      · obtain ⟨rfl, -⟩ := Prod.mk.inj hsite
        exact h.writeAt hpath hlink offset _
      · obtain ⟨rfl, -⟩ := Prod.mk.inj hsite
        exact h.writeAt hpath hlink offset _
    | rename path target =>
      obtain ⟨⟨error, rfl⟩, hsite, -⟩ | ⟨rfl, fs, hrename, hsite⟩ := of_step_rename hstep
      · obtain ⟨rfl, -⟩ := Prod.mk.inj hsite
        exact h
      · obtain ⟨rfl, -⟩ := Prod.mk.inj hsite
        -- only a rename puts anything at the place of an artifact
        obtain ⟨-, url, rfl, -⟩ := id hcareful
        exact h.rename hcareful hrename
    | remove path =>
      obtain ⟨⟨error, rfl⟩, hsite, -⟩ | ⟨rfl, hsite⟩ := of_step_remove hstep
      · obtain ⟨rfl, -⟩ := Prod.mk.inj hsite
        exact h
      · obtain ⟨rfl, -⟩ := Prod.mk.inj hsite
        exact h.remove hcareful
    | _ => exact absurd trivial hquiet
  | index op =>
    obtain ⟨-, -, hsite⟩ | ⟨-, hsite⟩ := of_step_index hstep
    · obtain ⟨rfl, -⟩ := Prod.mk.inj hsite
      exact h
    · obtain ⟨rfl, -⟩ := Prod.mk.inj hsite
      exact h
  | nextOrdinal =>
    obtain ⟨-, hsite⟩ := of_step_nextOrdinal hstep
    obtain ⟨rfl, -⟩ := Prod.mk.inj hsite
    exact h
  | _ => exact absurd trivial hquiet

end Stable

/-! ## A cache on a disk -/

/-- A running cache, and the disk under it. -/
abbrev Durable (ι : Type) := Shared ι × Disk

namespace Durable

variable {ι : Type}

def step (contents : Set Bytes) (key : SecretKey) (i : ι) : Interpretation Ans (Durable ι × Peer) :=
  fun op t answer t' ↦
    Shared.step .hostile contents key i op (t.1.1, t.2) answer (t'.1.1, t'.2)
      ∧ t'.1.2 = op.mark t.1.1.1.fs t.1.2 answer

/-- The cache, in runs in which any operation may fail and whose artifacts are `contents`. -/
def machine (contents : Set Bytes) : Machine ι (Durable ι) where
  perform := step contents
  restart pid t := (Shared.restart pid t.1, t.2)

/-- What is synced of a file that participant `i` stages stays synced. -/
def Retains (i : ι) (t t' : Durable ι) : Prop := ∀ n inode, t.1.2.owner n = some i →
  t.1.1.fs.links.lookup (Store.stagedPath t.1.1.pid n) = some inode → inode ∈ t.2.clean →
    inode ∈ t'.2.clean

variable [Crates] {contents : Set Bytes} {dir : Dir}

/-- How the participants of a cache share it and the disk. -/
def protocol (contents : Set Bytes) (dir : Dir) : Protocol ι (Durable ι) where
  valid t := (Shared.protocol (discipline contents dir)).valid t.1 ∧ Stable contents t.1.1.fs t.2
  rely i t t' := (Shared.protocol (discipline contents dir)).rely i t.1 t'.1 ∧ Retains i t t'
  rely_refl i t := ⟨(Shared.protocol (discipline contents dir)).rely_refl i t.1, fun _ _ _ _ h ↦ h⟩
  rely_trans := by
    rintro i a b c ⟨hab, hretains⟩ ⟨hbc, hretains'⟩
    refine ⟨(Shared.protocol (discipline contents dir)).rely_trans hab hbc, ?_⟩
    intro n inode hn hlink hclean
    refine hretains' n inode ((hab.1.owner n).mpr hn) ?_ (hretains n inode hn hlink hclean)
    rw [hab.1.pid, hab.1.entry n hn]
    exact hlink

/-! ## What a session knows of the disk -/

/-- The staging file in hand is the participant's own, and synced if it was. -/
structure Mine (i : ι) (held : Held) (t : Durable ι) : Prop where
  path : ∃ n, held.path = Store.stagedPath t.1.1.pid n ∧ t.1.2.owner n = some i
  link : t.1.1.fs.links.lookup held.path = some held.inode
  clean : held.synced = true → held.inode ∈ t.2.clean

/-- What is in hand is so. -/
structure Bond (i : ι) (hand : Hand) (t : Durable ι) : Prop where
  drawn : ∀ n, hand.ordinal = some n → t.1.2.owner n = some i
  pid : ∀ pid, hand.pid = some pid → pid = t.1.1.pid
  held : ∀ held, hand.held = some held → Mine i held t

variable {key : SecretKey} {i : ι} {hand : Hand} {held : Held} {t t' : Durable ι} {l l' : Peer}
  {op : Op} {answer : Ans op}

omit [Crates] in
theorem Mine.head (h : Mine i held t) : held.path.head? = some Store.staging := by
  obtain ⟨n, hpath, -⟩ := h.path
  rw [hpath]
  rfl

theorem Bond.later (h : Bond i hand t) (hrely : (protocol contents dir).rely i t t') :
    Bond i hand t' := by
  obtain ⟨⟨hunstaged, -⟩, hretains⟩ := hrely
  refine ⟨fun n hn ↦ (hunstaged.owner n).mpr (h.drawn n hn),
    fun pid hpid ↦ (h.pid pid hpid).trans hunstaged.pid.symm, fun held hheld ↦ ?_⟩
  obtain ⟨⟨n, hpath, hn⟩, hlink, hclean⟩ := h.held held hheld
  have hentry := hunstaged.entry n hn
  rw [hpath] at hlink
  refine ⟨⟨n, by rw [hpath, hunstaged.pid], (hunstaged.owner n).mpr hn⟩, ?_, fun hsynced ↦ ?_⟩
  · rw [hpath, hentry, hlink]
  · exact hretains n held.inode hn hlink (hclean hsynced)

omit [Crates] in
theorem Bond.same (h : Bond i hand t) (hlinks : t'.1.1.fs.links = t.1.1.fs.links)
    (hpid : t'.1.1.pid = t.1.1.pid) (howner : ∀ n, t.1.2.owner n = some i → t'.1.2.owner n = some i)
    (hclean : t.2.clean ⊆ t'.2.clean) : Bond i hand t' := by
  refine ⟨fun n hn ↦ howner n (h.drawn n hn), fun pid hp ↦ (h.pid pid hp).trans hpid.symm,
    fun held hheld ↦ ?_⟩
  obtain ⟨⟨n, hpath, hn⟩, hlink, hsynced⟩ := h.held held hheld
  exact ⟨⟨n, by rw [hpath, hpid], howner n hn⟩, by rw [hlinks, hlink],
    fun hs ↦ hclean (hsynced hs)⟩

omit [Crates] in
/-- The files of the others stay synced. -/
theorem retains_of_allows (hallows : hand.Allows op) (hbond : Bond i hand t)
    (hstep : step contents key i op (t, l) answer (t', l')) {j : ι} (hj : j ≠ i) :
    Retains j t t' := by
  obtain ⟨⟨hop, -, -⟩, hdisk⟩ := hstep
  obtain ⟨⟨world, ledger⟩, disk⟩ := t
  obtain ⟨⟨world', ledger'⟩, disk'⟩ := t'
  intro n inode hn hlink hclean
  dsimp only at hdisk hop hn hlink hclean ⊢
  have hother : ∀ m inode', ledger.owner m = some i →
      world.fs.links.lookup (Store.stagedPath world.pid m) = some inode' → inode ≠ inode' := by
    rintro m inode' hm hlink' rfl
    exact Shared.ne_of_owner (s := (world, ledger)) hm hn hj (world.fs.link_injective hlink hlink')
  subst hdisk
  cases op with
  | file op =>
    cases op with
    | create path =>
      obtain ⟨ordinal, pid, hordinal, hpid, rfl⟩ := hallows
      obtain rfl := hbond.pid pid hpid
      obtain ⟨⟨error, rfl⟩, -, -⟩ | ⟨rfl, -⟩ := of_step_create hop
      · exact hclean
      · have hne : inode ≠ (world.fs.create (Store.stagedPath world.pid ordinal)).2 := by
          rw [FileSystem.create]
          split
          · next inode' hlink' => exact hother ordinal inode' (hbond.drawn _ hordinal) hlink'
          · exact (world.fs.link_lt hlink).ne
        dsimp only [Op.mark]
        split
        · exact Disk.mem_clean_soil.mpr ⟨hne, hclean⟩
        · exact Disk.mem_clean_soil.mpr ⟨hne, hclean⟩
    | writeAt inode' offset bytes =>
      obtain ⟨held, hheld, rfl⟩ := hallows
      obtain ⟨⟨m, hpath, hm⟩, hlink', -⟩ := hbond.held held hheld
      rw [hpath] at hlink'
      exact Disk.mem_clean_soil.mpr ⟨hother m _ hm hlink', hclean⟩
    | createDirAll path => cases answer <;> exact hclean
    | sync inode' =>
      cases answer with
      | error error => exact hclean
      | ok value => exact Finset.mem_insert_of_mem hclean
    | rename path target =>
      cases answer with
      | error error => exact hclean
      | ok value =>
        dsimp only [Op.mark]
        cases world.fs.links.lookup path with
        | none => exact hclean
        | some inode' => exact hclean
    | remove path => cases answer <;> exact hclean
    | _ => exact hclean
  | _ => exact hclean

/-- What a session may do next is careful: it renames only what it synced, over a name that says
what the file holds. -/
theorem careful_of_allows (hallows : hand.Allows op) (hbond : Bond i hand t)
    (hstep : step contents key i op (t, l) answer (t', l'))
    (haddressed : Addressed contents t'.1.view.tree) :
    Careful contents t.1.1.fs t.2 op answer := by
  obtain ⟨⟨hop, -, hcommits⟩, -⟩ := hstep
  cases op with
  | file op =>
    cases op with
    | create path =>
      obtain ⟨ordinal, pid, -, -, rfl⟩ := hallows
      exact ⟨_, rfl⟩
    | writeAt inode offset bytes =>
      obtain ⟨held, hheld, rfl⟩ := hallows
      have hmine := hbond.held held hheld
      exact ⟨held.path, hmine.head, hmine.link⟩
    | rename path target =>
      obtain ⟨held, url, hheld, rfl, hsynced, rfl⟩ := hallows
      have hmine := hbond.held held hheld
      obtain ⟨⟨error, rfl⟩, -, -⟩ | ⟨rfl, fs, hrename, hsite⟩ := of_step_rename hop
      · trivial
      refine ⟨hmine.head, url, rfl, fun inode hlink ↦ ?_⟩
      obtain rfl := Option.some.inj (hmine.link.symm.trans hlink)
      have hfile : t.1.1.fs.lookup held.path = some (t.1.1.fs.files held.inode) := by
        rw [FileSystem.lookup, hlink, Option.map_some]
      obtain ⟨n, hpath, -⟩ := hmine.path
      have hplaced : t'.1.view.tree (Store.path url) = some (t.1.1.fs.files held.inode) := by
        change Shared.tree t'.1.1.fs (Store.path url) = _
        rw [(Prod.mk.inj hsite).1]
        rw [hpath] at hfile hrename
        rw [Shared.tree_rename hfile hrename, Function.update_self]
      obtain ⟨data, hdata, hholds, hdigest⟩ := haddressed url _ hplaced
      exact ⟨hmine.clean hsynced, data, hdata, hholds, hdigest⟩
    | remove path =>
      obtain ⟨held, hheld, rfl⟩ := hallows
      exact (hbond.held held hheld).head
    | _ => trivial
  | _ => trivial

omit [Crates] in
theorem Bond.next_file {world world' : World} {ledger : Ledger ι} {disk : Disk} {op : FileOp}
    {answer : Ans (.file op)} (hbond : Bond i hand ((world, ledger), disk))
    (hallows : hand.Allows (.file op))
    (hop : Bincache.step .hostile (.file op) (world, l) answer (world', l')) :
    Bond i (hand.next (.file op) answer)
      ((world', ledger), Op.mark world.fs disk (.file op) answer) := by
  cases op with
  | createDirAll path =>
    obtain ⟨-, rfl, hsite⟩ | ⟨rfl, hsite⟩ := of_step_createDirAll hop
    · obtain ⟨rfl, -⟩ := Prod.mk.inj hsite
      exact hbond
    · obtain ⟨rfl, -⟩ := Prod.mk.inj hsite
      exact hbond.same rfl rfl (fun _ h ↦ h) (Finset.Subset.refl _)
  | create path =>
    obtain ⟨ordinal, pid, hordinal, hpid, rfl⟩ := hallows
    obtain rfl := hbond.pid pid hpid
    obtain ⟨⟨error, rfl⟩, hsite, -⟩ | ⟨rfl, hsite⟩ := of_step_create hop
    · obtain ⟨rfl, -⟩ := Prod.mk.inj hsite
      exact hbond
    · obtain ⟨rfl, -⟩ := Prod.mk.inj hsite
      refine ⟨hbond.drawn, hbond.pid, fun held hheld ↦ ?_⟩
      obtain rfl := Option.some.inj hheld
      exact ⟨⟨ordinal, rfl, hbond.drawn _ hordinal⟩, (FileSystem.names_create _ _).link,
        fun h ↦ absurd h (by simp)⟩
  | writeAt inode offset bytes =>
    have hafter : ∀ fs : FileSystem, fs.links = world.fs.links → Bond i
        { hand with held := hand.held.map fun held ↦ { held with synced := false } }
        (({ world with fs }, ledger), disk.soil inode) := by
      refine fun fs hlinks ↦ ⟨hbond.drawn, hbond.pid, fun held hheld ↦ ?_⟩
      obtain ⟨before, hbefore, rfl⟩ := Option.map_eq_some_iff.mp hheld
      obtain ⟨hpath, hlink, -⟩ := hbond.held before hbefore
      exact ⟨hpath, by rw [hlinks]; exact hlink, fun h ↦ absurd h (by simp)⟩
    obtain ⟨-, -, count, hsite⟩ | ⟨-, hsite⟩ := of_step_writeAt hop
    · obtain ⟨rfl, -⟩ := Prod.mk.inj hsite
      exact hafter _ rfl
    · obtain ⟨rfl, -⟩ := Prod.mk.inj hsite
      exact hafter _ rfl
  | sync inode =>
    obtain ⟨hsite, ⟨-, rfl⟩ | rfl⟩ := of_step_sync hop
    · obtain ⟨rfl, -⟩ := Prod.mk.inj hsite
      exact hbond
    · obtain ⟨rfl, -⟩ := Prod.mk.inj hsite
      refine ⟨hbond.drawn, hbond.pid, fun held hheld ↦ ?_⟩
      obtain ⟨before, hbefore, rfl⟩ := Option.map_eq_some_iff.mp hheld
      obtain ⟨hpath, hlink, hclean⟩ := hbond.held before hbefore
      split
      · next heq => exact ⟨hpath, hlink, fun _ ↦ heq ▸ Finset.mem_insert_self ..⟩
      · exact ⟨hpath, hlink, fun h ↦ Finset.mem_insert_of_mem (hclean h)⟩
  | rename path target =>
    obtain ⟨⟨error, rfl⟩, hsite, -⟩ | ⟨rfl, fs, -, hsite⟩ := of_step_rename hop
    · obtain ⟨rfl, -⟩ := Prod.mk.inj hsite
      exact hbond
    · obtain ⟨rfl, -⟩ := Prod.mk.inj hsite
      exact ⟨hbond.drawn, hbond.pid, fun _ h ↦ absurd h (by simp [Hand.next])⟩
  | remove path =>
    obtain ⟨-, hsite, -⟩ | ⟨-, hsite⟩ := of_step_remove hop
    · obtain ⟨rfl, -⟩ := Prod.mk.inj hsite
      exact ⟨hbond.drawn, hbond.pid, fun _ h ↦ absurd h (by simp [Hand.next])⟩
    · obtain ⟨rfl, -⟩ := Prod.mk.inj hsite
      exact ⟨hbond.drawn, hbond.pid, fun _ h ↦ absurd h (by simp [Hand.next])⟩
  | _ =>
    obtain ⟨stats, hworld⟩ := steady_of_quiet (by trivial) hop
    dsimp only at hworld
    subst hworld
    exact hbond.same rfl rfl (fun _ h ↦ h) (Finset.Subset.refl _)

omit [Crates] in
theorem Bond.next (hbond : Bond i hand t) (hallows : hand.Allows op)
    (hstep : step contents key i op (t, l) answer (t', l')) : Bond i (hand.next op answer) t' := by
  obtain ⟨⟨hop, hledger, -⟩, hdisk⟩ := hstep
  obtain ⟨⟨world, ledger⟩, disk⟩ := t
  obtain ⟨⟨world', ledger'⟩, disk'⟩ := t'
  dsimp only at hop hledger hdisk
  subst hdisk
  cases op with
  | file op =>
    obtain rfl : ledger' = ledger := hledger
    exact hbond.next_file hallows hop
  | index op =>
    have howner : ledger'.owner = ledger.owner := by
      rw [hledger]
      dsimp only [Ledger.track]
      split
      · rfl
      · rfl
    obtain ⟨found, hnext⟩ := hand.next_index op answer
    have hfound : Bond i { hand with found } ((world, ledger), disk) :=
      ⟨hbond.drawn, hbond.pid, hbond.held⟩
    rw [hnext]
    obtain ⟨-, -, hsite⟩ | ⟨-, hsite⟩ := of_step_index hop
    · obtain ⟨rfl, -⟩ := Prod.mk.inj hsite
      exact hfound.same rfl rfl (fun _ h ↦ by rw [howner]; exact h) (Finset.Subset.refl _)
    · obtain ⟨rfl, -⟩ := Prod.mk.inj hsite
      exact hfound.same rfl rfl (fun _ h ↦ by rw [howner]; exact h) (Finset.Subset.refl _)
  | nextOrdinal =>
    obtain ⟨rfl, hsite⟩ := of_step_nextOrdinal hop
    obtain ⟨rfl, -⟩ := Prod.mk.inj hsite
    obtain rfl : ledger' = { ledger with
      owner := Function.update ledger.owner world.sequence (some i) } := hledger
    have howner : ∀ n, ledger.owner n = some i →
        Function.update ledger.owner world.sequence (some i) n = some i := by
      intro n hn
      rw [Function.update_apply]
      split
      · rfl
      · exact hn
    have hsame : Bond i hand (({ world with sequence := world.sequence + 1 },
        { ledger with owner := Function.update ledger.owner world.sequence (some i) }), disk) :=
      hbond.same rfl rfl howner (Finset.Subset.refl _)
    refine ⟨fun n hn ↦ ?_, hsame.pid, hsame.held⟩
    obtain rfl := Option.some.inj hn
    exact Function.update_self ..
  | processId =>
    obtain rfl : ledger' = ledger := hledger
    obtain ⟨rfl, hsite⟩ := of_step_processId hop
    obtain ⟨rfl, -⟩ := Prod.mk.inj hsite
    exact ⟨hbond.drawn, fun pid hpid ↦ (Option.some.inj hpid).symm, hbond.held⟩
  | _ =>
    obtain rfl : ledger' = ledger := hledger
    obtain ⟨stats, hworld⟩ := steady_of_quiet (by trivial) hop
    dsimp only at hworld
    subst hworld
    exact hbond.same rfl rfl (fun _ h ↦ h) (Finset.Subset.refl _)

/-- The disk adds nothing that a session that behaves would notice. -/
theorem extends_conduct (contents : Set Bytes) (dir : Dir) (key : SecretKey) (i : ι) :
    Program.Extends conduct (Shared.protocol (discipline contents dir)) (protocol contents dir)
      (Shared.step .hostile contents key) (step contents key) Prod.fst (Bond i) i where
  valid _ h := h.1
  rely _ _ h := h.1
  later _ _ _ hbond hrely _ := hbond.later hrely
  project _ _ _ _ _ _ h := h.1
  keep hand op t l answer t' l' hallows hbond hvalid hstep hvalid' hothers := by
    have hcareful := careful_of_allows hallows hbond hstep hvalid'.2.2
    refine ⟨⟨hvalid', ?_⟩, fun j hj ↦ ⟨hothers j hj, retains_of_allows hallows hbond hstep hj⟩,
      hbond.next hallows hstep⟩
    rw [hstep.2]
    exact hvalid.2.step hcareful hstep.1.1

/-! ## Upkeep and rotations -/

/-- What operators and a boot do. -/
def Clerical (op : Op) : Prop := op.Upkeep ∨ ∃ records, op = .index (.republish records)

theorem careful_of_clerical {fs : FileSystem} {disk : Disk} (h : Clerical op) :
    Careful contents fs disk op answer := by
  obtain hupkeep | ⟨records, rfl⟩ := h
  · cases op with
    | file op => cases op <;> first | exact hupkeep.elim | exact hupkeep
    | _ => trivial
  · trivial

theorem stable_of_visits {α : Type} {program : Program Ans α} (huses : program.Uses Clerical)
    (ht : Stable contents t.1.1.fs t.2)
    (hvisit : program.Visits (step contents key i) (t, l) (t', l')) :
    Stable contents t'.1.1.fs t'.2 := by
  let inv (site : Durable ι × Peer) : Prop := Stable contents site.1.1.1.fs site.1.2
  have hfinal : inv (t', l') := by
    refine huses.visits ?_ (show inv (t, l) from ht) hvisit
    intro op site answer site' hclerical hsite hop
    change Stable contents site'.1.1.1.fs site'.1.2
    rw [hop.2]
    exact hsite.step (careful_of_clerical hclerical) hop.1.1
  exact hfinal

open Attempt in
theorem clerical_rotate (dir : Dir) (key : SecretKey) :
    (Boot.rotate dir key).run.Uses Clerical := by
  refine uses_bind (upkeep_open.imp fun _ ↦ .inl) fun _ ↦ uses_context (uses_bind
    (uses_context ⟨.inl trivial, fun _ ↦ trivial⟩) fun records ↦ uses_bind ?_ fun _ ↦ trivial)
  generalize Maintain.chunks _ _ = batches
  induction batches with
  | nil => trivial
  | cons batch batches ih =>
    rw [List.forM_eq_forM, List.forM_cons, ← List.forM_eq_forM]
    exact uses_bind (uses_context ⟨.inr ⟨batch, rfl⟩, fun _ ↦ trivial⟩) fun _ ↦ ih

theorem clerical_program (command : Command) (dir : Dir) (secret : SecretKey) :
    (command.program dir secret).Uses Clerical := by
  by_cases hrotate : command = .rotate
  · subst hrotate
    refine (clerical_rotate dir secret).bind ?_
    exact fun _ ↦ trivial
  · exact (Shared.upkeep_program hrotate).imp fun _ ↦ .inl

/-- The directory is in order, and so is the disk. -/
def Order (contents : Set Bytes) (dir : Dir) (t : Durable ι) : Prop :=
  Shared.Order contents dir t.1 ∧ Stable contents t.1.1.fs t.2

/-- What the cache keeps, on its disk too. -/
theorem keeps (hround : Crates.EncoderRoundTrips) (hverify : Crates.SignaturesVerify)
    (hfree : Crates.CollisionFree contents) : (machine contents : Machine ι (Durable ι)).Keeps dir
      (protocol contents dir) (Order contents dir) where
  boots := by
    rintro cache pid i t p t' p' hdir ⟨hs, hstable⟩ hrun
    have hrun' := hrun.map (f := fun site ↦ (site.1.1, site.2)) fun _ _ _ _ hop ↦ hop.1
    refine ⟨(Shared.keeps hround hverify hfree).boots hdir hs hrun', ?_⟩
    exact stable_of_visits (t := (machine contents).restart pid t)
      (upkeep_serve.imp fun _ ↦ .inl) hstable hrun.visits
  serves := by
    intro cache shard turns i p t hdir
    have htidy : Shared.Tidy .hostile i ∅ t.1 := fun henv ↦ absurd henv (by decide)
    have hsafe := Shared.upholds_session (p := p)
      (permits_discipline hround hverify hfree hdir) shard turns {} htidy
    have hbond : Bond i ({} : Hand) t := ⟨fun _ h ↦ absurd h (by simp),
      fun _ h ↦ absurd h (by simp), fun _ h ↦ absurd h (by simp)⟩
    exact (Program.Follows.safe (extends_conduct contents dir cache.ingest.key i)
      (Cache.follows_session shard turns {}) hsafe hbond).imp fun _ _ _ _ _ ↦ trivial
  dies := by
    rintro t ⟨hvalid, hstable⟩
    exact ⟨(Shared.keeps hround hverify hfree).dies hvalid, hstable⟩
  commands := by
    rintro command secret pid i t p t' p' ⟨hs, hstable⟩ hvisit
    have hvisit' := hvisit.map (f := fun site ↦ (site.1.1, site.2)) fun _ _ _ _ hop ↦ hop.1
    refine ⟨(Shared.keeps hround hverify hfree).commands hs hvisit', ?_⟩
    exact stable_of_visits (t := (machine contents).restart pid t)
      (clerical_program command dir secret) hstable hvisit

/-! ## Outages -/

omit [Crates] in
/-- What a loss of power makes of a cache: nothing runs, both tables are as they were, and the disk
decides what is left of the files. -/
inductive Outage (kept : List Change) : System ι (Durable ι) → System ι (Durable ι) → Prop
  | strike {s : Shared ι} {disk : Disk} {server : Option (Server ι)} {fs : FileSystem}
      (hloss : disk.Loss kept s.1.fs fs) :
      Outage kept ⟨(s, disk), server⟩ ⟨(({ s.1 with fs }, s.2), .of fs), none⟩

/-- A row of either table names this artifact. -/
def Cites (view : View) (url : NarUrl) : Prop :=
  (∃ key record, view.narinfo key = some record ∧ record.nar = url)
    ∨ ∃ narHash entry, view.nar narHash = some entry ∧ entry.url = url

/-- What is kept includes the entry of every artifact a row names, and the directories above it. -/
def Spares (kept : List Change) (t : Durable ι) : Prop :=
  ∀ url, Cites t.1.view url → t.2.Keeps kept (Store.path url)

/-- Every row names an artifact that is there and is what the row says. -/
structure Truthful (view : View) : Prop where
  records : ∀ key record, view.narinfo key = some record →
    record.entry.Honest record.narHash view.tree
  entries : ∀ narHash entry, view.nar narHash = some entry → entry.Honest narHash view.tree

variable {kept : List Change} {fs : FileSystem}

theorem addressed_of_loss (hstable : Stable contents t.1.1.fs t.2)
    (hloss : t.2.Loss kept t.1.1.fs fs) : Addressed contents (Shared.tree fs) := by
  intro url file hfile
  rw [Shared.tree_path] at hfile
  obtain ⟨inode, hmay, hholds⟩ := hloss.exists_mayName hfile
  obtain ⟨hclean, -, -, data, hdata, hold, hdigest⟩ := hstable.sound url inode hmay
  exact ⟨data, hdata, (hholds hclean).trans hold, hdigest⟩

/-- An artifact that a row names is there after a loss, as it was, if its name is. -/
theorem honest_of_loss (horder : Order contents dir t) (hfree : Crates.CollisionFree contents)
    (hloss : t.2.Loss kept t.1.1.fs fs) {entry : Entry} {narHash : Sha256}
    (hentry : entry.Honest narHash t.1.view.tree) :
    entry.Honest narHash (Shared.tree fs) ↔ t.2.Keeps kept (Store.path entry.url) := by
  have hstays : ∀ change ∈ t.2.pending, ¬change.Clears (Store.path entry.url) :=
    fun change hmem ↦ horder.2.stays change hmem entry.url
  rw [← hloss.isSome_lookup hstays, ← Shared.tree_path]
  constructor
  · rintro ⟨data, nar, hnames⟩
    rw [hnames.present]
    rfl
  · intro hsome
    obtain ⟨file, hfile⟩ := Option.isSome_iff_exists.mp hsome
    obtain ⟨data, nar, hnames⟩ := hentry
    obtain ⟨old, hold, hsame, hdigest⟩ := horder.1.addressed _ _ hnames.present
    obtain ⟨found, hfound, rfl, hdigest'⟩ := addressed_of_loss horder.2 hloss _ _ hfile
    obtain rfl : data = old := congrArg File.data hsame
    obtain rfl := Sha256.eq_of_digest_eq hfree hfound hold (hdigest'.symm.trans hdigest)
    exact ⟨found, nar, hfile, hnames.compression, hnames.fileSize, hnames.fileHash, hnames.decodes,
      hnames.narSize, hnames.narHash⟩

/-- After a loss the rows are true if and only if it spared what they name. -/
theorem truthful_iff_spares (horder : Order contents dir t) (hfree : Crates.CollisionFree contents)
    (hloss : t.2.Loss kept t.1.1.fs fs) :
    Truthful (Shared.view (({ t.1.1 with fs }, t.1.2) : Shared ι)) ↔ Spares kept t := by
  have hconsistent := horder.1.consistent
  constructor
  · rintro ⟨hrecords, hentries⟩ url (⟨key, record, hrow, rfl⟩ | ⟨narHash, entry, hrow, rfl⟩)
    · exact (honest_of_loss horder hfree hloss (hconsistent.records key record hrow)).mp
        (hrecords key record hrow)
    · exact (honest_of_loss horder hfree hloss (hconsistent.entries narHash entry hrow)).mp
        (hentries narHash entry hrow)
  · intro hspares
    refine ⟨fun key record hrow ↦ ?_, fun narHash entry hrow ↦ ?_⟩
    · exact (honest_of_loss horder hfree hloss (hconsistent.records key record hrow)).mpr
        (hspares record.nar (.inl ⟨key, record, hrow, rfl⟩))
    · exact (honest_of_loss horder hfree hloss (hconsistent.entries narHash entry hrow)).mpr
        (hspares entry.url (.inr ⟨narHash, entry, hrow, rfl⟩))

theorem Order.loss (horder : Order contents dir t) (hfree : Crates.CollisionFree contents)
    (hloss : t.2.Loss kept t.1.1.fs fs) (hspares : Spares kept t) :
    Order contents dir ((({ t.1.1 with fs }, t.1.2), .of fs) : Durable ι) := by
  obtain ⟨hrecords, hentries⟩ := (truthful_iff_spares horder hfree hloss).mpr hspares
  have hconsistent := horder.1.consistent
  have haddressed := addressed_of_loss horder.2 hloss
  have hflat : ∀ path inode, fs.links.lookup path = some inode → path.head? = some Store.staging →
      ∃ name, path = [Store.staging, name] := by
    intro path inode hlink hpath
    have hfile : fs.lookup path = some (fs.files inode) := by
      rw [FileSystem.lookup, hlink, Option.map_some]
    obtain ⟨inode', hmay, -⟩ := hloss.exists_mayName hfile
    exact horder.2.flat path inode' hmay hpath
  refine ⟨⟨⟨hconsistent.keyed, hrecords, hentries, hconsistent.signed⟩, haddressed, hflat⟩, rfl,
    fun _ hmem ↦ absurd hmem List.not_mem_nil, fun url inode hmay ↦ ?_, fun path inode hmay ↦ ?_⟩
  · have hlink := Disk.mayName_of.mp hmay
    have hlt := fs.link_lt hlink
    refine ⟨Finset.mem_range.mpr hlt, hlt, fun path hlink' hpath ↦ ?_, ?_⟩
    · exact not_clears_path hpath url (fs.link_injective hlink hlink')
    · refine haddressed url _ ?_
      rw [Shared.tree_path, FileSystem.lookup, hlink, Option.map_some]
  · exact hflat path inode (Disk.mayName_of.mp hmay)

/-! ## Lives with outages -/

variable [DecidableEq ι] {system system' : System ι (Durable ι)}

/-- What can happen next where every outage spares what the rows name. -/
inductive Step (contents : Set Bytes) (dir : Dir) :
    System ι (Durable ι) → System ι (Durable ι) → Prop
  | work {system system' : System ι (Durable ι)}
      (hstep : System.Step (machine contents) dir system system') : Step contents dir system system'
  | outage {system system' : System ι (Durable ι)} (kept : List Change)
      (houtage : Outage kept system system') (hspares : Spares kept system.shared) :
      Step contents dir system system'

abbrev Steps (contents : Set Bytes) (dir : Dir) :
    System ι (Durable ι) → System ι (Durable ι) → Prop :=
  Relation.ReflTransGen (Step contents dir)

theorem order_of_steps (hround : Crates.EncoderRoundTrips) (hverify : Crates.SignaturesVerify)
    (hfree : Crates.CollisionFree contents)
    (hkept : (machine contents).Kept dir (protocol contents dir) (Order contents dir) system)
    (hsteps : Steps contents dir system system') :
    (machine contents).Kept dir (protocol contents dir) (Order contents dir) system' := by
  have hkeeps : (machine contents : Machine ι (Durable ι)).Keeps dir (protocol contents dir)
      (Order contents dir) := keeps hround hverify hfree
  induction hsteps with
  | refl => exact hkept
  | tail _ hstep ih =>
    cases hstep with
    | work hstep => exact hkeeps.step ih hstep
    | outage kept houtage hspares =>
      have horder := hkeeps.ordered ih
      cases houtage with
      | strike hloss => exact horder.loss hfree hloss hspares

omit [DecidableEq ι] in
theorem order_blank : Order contents dir ((Shared.blank, .of .empty) : Durable ι) := by
  have hnone : ∀ path inode, ¬(Disk.of .empty).MayName path inode := by
    intro path inode hmay
    exact absurd (Disk.mayName_of.mp hmay) (by simp [FileSystem.empty])
  exact ⟨Shared.order_blank, rfl, fun _ hmem ↦ absurd hmem List.not_mem_nil,
    fun url inode hmay ↦ absurd hmay (hnone _ _), fun path inode hmay ↦ absurd hmay (hnone _ _)⟩

omit [Crates] [DecidableEq ι] in
/-- A state of the cache, on a disk on which so much is settled. -/
structure Mounts (settled : Directory) (site : Shared ι × Peer) (mounted : Durable ι × Peer) :
    Prop where
  shared : mounted.1.1 = site.1
  peer : mounted.2 = site.2
  settled : mounted.1.2.settled = settled

omit [Crates] [DecidableEq ι] in
/-- A step of the cache is a step on any disk, and settles no directory. -/
theorem Mounts.step {key : SecretKey} {i : ι} {op : Op} {answer : Ans op}
    {site site' : Shared ι × Peer} {mounted : Durable ι × Peer} {settled : Directory}
    (h : Mounts settled site mounted)
    (hop : Shared.step .hostile contents key i op site answer site') :
    ∃ mounted', step contents key i op mounted answer mounted' ∧ Mounts settled site' mounted' := by
  obtain ⟨⟨s, disk⟩, p⟩ := mounted
  obtain ⟨rfl, rfl, rfl⟩ := h
  refine ⟨((site'.1, op.mark site.1.1.fs disk answer), site'.2), ⟨hop, rfl⟩, rfl, rfl, ?_⟩
  cases op with
  | file op =>
    cases op with
    | create path =>
      cases answer with
      | error error => rfl
      | ok inode =>
        dsimp only [Op.mark]
        split
        · rfl
        · rfl
    | rename path target =>
      cases answer with
      | error error => rfl
      | ok value =>
        dsimp only [Op.mark]
        cases site.1.1.fs.links.lookup path with
        | none => rfl
        | some inode => rfl
    | _ => cases answer <;> rfl
  | _ => rfl

def onDisk (system : System ι (Shared ι)) (disk : Disk) : System ι (Durable ι) :=
  ⟨(system.shared, disk), system.server⟩

theorem exists_steps_onDisk {system system' : System ι (Shared ι)} (disk : Disk)
    (hsteps : System.Steps (Shared.machine contents) dir system system') :
    ∃ disk', Steps contents dir (onDisk system disk) (onDisk system' disk')
      ∧ disk'.settled = disk.settled := by
  induction hsteps with
  | refl => exact ⟨disk, .refl, rfl⟩
  | @tail before after _ hstep ih =>
    obtain ⟨disk₁, hsteps, hsettled⟩ := ih
    suffices h : ∃ disk', System.Step (machine contents) dir (onDisk before disk₁)
        (onDisk after disk') ∧ disk'.settled = disk₁.settled by
      obtain ⟨disk', hstep', hsettled'⟩ := h
      exact ⟨disk', hsteps.tail (.work hstep'), hsettled'.trans hsettled⟩
    have hmounts : ∀ (s : Shared ι) (p : Peer), Mounts disk₁.settled (s, p) ((s, disk₁), p) :=
      fun _ _ ↦ ⟨rfl, rfl, rfl⟩
    cases hstep with
    | @boot s s' peer peer' cache pid i hdir hrun =>
      obtain ⟨⟨⟨_, disk'⟩, _⟩, hrun', rfl, rfl, hsettled'⟩ := hrun.simulate
        (fun _ _ _ _ _ hmounts hop ↦ hmounts.step hop) (hmounts (Shared.restart pid s) peer)
      exact ⟨disk', .boot cache pid i hdir hrun', hsettled'⟩
    | accept i peer' shard turns hdone =>
      exact ⟨disk₁, .accept i peer' shard turns hdone, rfl⟩
    | @turn s s' server threads hstep =>
      cases hstep with
      | @turn l l' s' op next answer i hthread hop =>
        obtain ⟨⟨⟨_, disk'⟩, _⟩, hop', rfl, rfl, hsettled'⟩ := (hmounts s l).step hop
        exact ⟨disk', .turn (.turn i hthread hop'), hsettled'⟩
    | kill => exact ⟨disk₁, .kill, rfl⟩
    | @command s s' peer peer' command secret pid i hvisit =>
      obtain ⟨⟨⟨_, disk'⟩, _⟩, hvisit', rfl, rfl, hsettled'⟩ := hvisit.simulate
        (fun _ _ _ _ _ hmounts hop ↦ hmounts.step hop) (hmounts (Shared.restart pid s) peer)
      exact ⟨disk', .command command secret pid i hvisit', hsettled'⟩

end Durable

open Durable in
/-- As long as every outage spares the names of the artifacts that rows name, every row is true in
every state, and an outage leaves it so if and only if it spares them, too. -/
theorem truthful_iff_spared [Crates] {ι : Type} [DecidableEq ι] {contents : Set Bytes} {dir : Dir}
    (hround : Crates.EncoderRoundTrips) (hverify : Crates.SignaturesVerify)
    (hfree : Crates.CollisionFree contents) {system : System ι (Durable ι)}
    (hsteps : Durable.Steps contents dir ⟨(Shared.blank, .of .empty), none⟩ system) :
    Truthful system.shared.1.view ∧ ∀ kept system', Outage kept system system' →
      (Truthful system'.shared.1.view ↔ Spares kept system.shared) := by
  have hblank : (machine contents).Kept dir (protocol contents dir) (Order contents dir)
      (⟨(Shared.blank, .of .empty), none⟩ : System ι (Durable ι)) := order_blank
  have hkept := order_of_steps hround hverify hfree hblank hsteps
  have horder := (keeps hround hverify hfree).ordered hkept
  have hconsistent := horder.1.consistent
  refine ⟨⟨hconsistent.records, hconsistent.entries⟩, fun kept system' houtage ↦ ?_⟩
  cases houtage with
  | strike hloss => exact truthful_iff_spares horder hfree hloss

section Specimen

open Specimen Durable

/-- Nothing lies outside a directory. -/
private def closed (fs : FileSystem) : Bool :=
  (∀ dir ∈ fs.dirs, ∀ above ∈ dir.inits, above ∈ fs.dirs)
    ∧ ∀ path ∈ fs.links.keys, path.dropLast ∈ fs.dirs

private theorem closed_first : first.map (fun s ↦ (closed s.1.fs, s.view.nar ⟨narDigest⟩))
    = some (true, some entry) := by
  simp only [first, Shared.serveAll, Shared.serveEach, Cache.session, Cache.turn, Cache.attend,
    Http.parse, Text.fromUtf8_eq_decode]
  decide +kernel

/-- After an outage right after the first upload that keeps everything, the row is still true. -/
theorem truthful_kept_outage : ∃ system system' : System ℕ (Durable ℕ), ∃ kept,
    Steps {frame nar} dir ⟨(Shared.blank, .of .empty), none⟩ system ∧ Outage kept system system'
      ∧ system'.shared.1.view.nar ⟨narDigest⟩ = some entry ∧ Truthful system'.shared.1.view := by
  obtain ⟨s, hs, hfirst⟩ := Option.map_eq_some_iff.mp closed_first
  obtain ⟨hclosed, hrow⟩ := Prod.mk.inj hfirst
  obtain ⟨hdirs, hlinks⟩ := of_decide_eq_true hclosed
  obtain ⟨threads, hlife⟩ := Shared.steps_of_serveAll mem_frame hs
  obtain ⟨disk, hsteps, -⟩ := exists_steps_onDisk (.of .empty) hlife
  have hblank : (machine {frame nar}).Kept dir (protocol {frame nar} dir) (Order {frame nar} dir)
      (⟨(Shared.blank, .of .empty), none⟩ : System ℕ (Durable ℕ)) := order_blank
  have horder := (keeps encoderRoundTrips signaturesVerify collisionFree_frame).ordered
    (order_of_steps encoderRoundTrips signaturesVerify collisionFree_frame hblank hsteps)
  have hloss : disk.Loss disk.pending s.1.fs s.1.fs := Disk.loss_pending horder.2.current hdirs
    fun path inode hlink ↦ hlinks path (Finmap.mem_keys.mpr (Finmap.mem_of_lookup_eq_some hlink))
  obtain ⟨htruthful, hiff⟩ := truthful_iff_spared encoderRoundTrips signaturesVerify
    collisionFree_frame hsteps
  have houtage : Outage disk.pending (onDisk ⟨s, some ⟨cache, threads⟩⟩ disk) _ := .strike hloss
  have hspares := (hiff _ _ houtage).mp htruthful
  obtain ⟨htruthful', -⟩ := truthful_iff_spared encoderRoundTrips signaturesVerify
    collisionFree_frame (hsteps.tail (.outage _ houtage hspares))
  exact ⟨_, _, _, hsteps, houtage, hrow, htruthful'⟩

/-- The cache, rebooted after an outage that left no file. -/
private def rebooted : Option (Shared ℕ) := first.bind fun s ↦
  Shared.serveAll [frame nar] plain cache 8 [] ({ s.1 with fs := .empty }, s.2)

private theorem rebooted_rows : rebooted.map (fun s ↦ (s.view.nar ⟨narDigest⟩,
    s.view.artifact entry.url)) = some (some entry, none) := by decide +kernel

/-- An upload is answered and its row written, and then the power goes before the new directories
get to the disk: after the reboot the row names an artifact that is not there. -/
theorem not_truthful_rebooted : ∃ system system' system'' : System ℕ (Durable ℕ),
    Steps {frame nar} dir ⟨(Shared.blank, .of .empty), none⟩ system ∧ Outage [] system system'
      ∧ Steps {frame nar} dir system' system''
      ∧ system''.shared.1.view.nar ⟨narDigest⟩ = some entry
      ∧ system''.shared.1.view.artifact entry.url = none := by
  obtain ⟨s', hs', hrows⟩ := Option.map_eq_some_iff.mp rebooted_rows
  obtain ⟨hrow, hartifact⟩ := Prod.mk.inj hrows
  obtain ⟨s, hs, hreboot⟩ := Option.bind_eq_some_iff.mp hs'
  obtain ⟨threads, hlife⟩ := Shared.steps_of_serveAll mem_frame hs
  obtain ⟨disk, hsteps, hsettled⟩ := exists_steps_onDisk (.of .empty) hlife
  obtain ⟨threads', hlife'⟩ := Shared.steps_of_serveAll mem_frame hreboot
  obtain ⟨disk', hsteps', -⟩ := exists_steps_onDisk (.of .empty) hlife'
  exact ⟨_, _, _, hsteps, .strike (Disk.loss_nil hsettled), hsteps', hrow, hartifact⟩

end Specimen

end Bincache
