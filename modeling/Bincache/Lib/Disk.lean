import Bincache.Lib.FileSystem

/-!
# What a power loss leaves of a file system

A directory entry that was made is on disk only once its directory was synced, and the bytes of a
file only once the file was. `Disk` is a file system as the disk has it: what is there for sure, the
changes of directories that may not be, in order, and the inodes whose bytes are there. Nothing here
syncs a directory.

A loss keeps some of the pending changes, each or not as it happens, and replays them in order. A
file that is still named, in directories that are all still there, holds what was synced, or
anything at all when it was written to since.
-/

/-- The entries and the directories of a file system. -/
@[ext]
structure Directory where
  links : Table FilePath ℕ
  dirs : Finset FilePath

/-- One change of a directory. -/
inductive Change
  | makeDir (path : FilePath)
  | link (path : FilePath) (inode : ℕ)
  | move (path target : FilePath) (inode : ℕ)
  | unlink (path : FilePath)
deriving DecidableEq

namespace Directory

def apply (directory : Directory) : Change → Directory
  | .makeDir path => { directory with dirs := insert path directory.dirs }
  | .link path inode => { directory with links := directory.links.insert path inode }
  | .move path target inode =>
    { directory with links := (directory.links.erase path).insert target inode }
  | .unlink path => { directory with links := directory.links.erase path }

/-- The directory after some changes. -/
def replay (directory : Directory) (changes : List Change) : Directory :=
  changes.foldl apply directory

/-- The directory at a path is there, and so are all those above it. -/
def Reaches (directory : Directory) (path : FilePath) : Prop :=
  ∀ dir ∈ path.inits, dir ∈ directory.dirs

instance (directory : Directory) (path : FilePath) : Decidable (directory.Reaches path) :=
  inferInstanceAs (Decidable (∀ dir ∈ path.inits, dir ∈ directory.dirs))

end Directory

namespace Change

/-- The change gives a path an inode. -/
def Names (path : FilePath) (inode : ℕ) : Change → Prop
  | .link path' inode' => path' = path ∧ inode' = inode
  | .move _ target inode' => target = path ∧ inode' = inode
  | .makeDir _ => False
  | .unlink _ => False

/-- The change takes the entry at a path away. -/
def Clears (path : FilePath) : Change → Prop
  | .move path' _ _ => path' = path
  | .unlink path' => path' = path
  | .link _ _ => False
  | .makeDir _ => False

end Change

namespace Directory

variable {directory : Directory} {path : FilePath} {inode : ℕ} {changes : List Change}

theorem replay_append (directory : Directory) (a b : List Change) :
    directory.replay (a ++ b) = (directory.replay a).replay b := List.foldl_append

theorem mem_dirs_replay : path ∈ (directory.replay changes).dirs
    ↔ path ∈ directory.dirs ∨ .makeDir path ∈ changes := by
  induction changes using List.reverseRecOn with
  | nil => simp [replay]
  | append_singleton changes change ih =>
    rw [replay_append]
    change path ∈ ((directory.replay changes).apply change).dirs ↔ _
    cases change with
    | makeDir path' =>
      rw [apply, Finset.mem_insert, ih, List.mem_append, List.mem_singleton, Change.makeDir.injEq]
      tauto
    | _ => simp [apply, ih]

/-- An entry comes from one of the changes, or was there. -/
theorem names_of_replay (h : (directory.replay changes).links.lookup path = some inode) :
    directory.links.lookup path = some inode ∨ ∃ change ∈ changes, change.Names path inode := by
  induction changes using List.reverseRecOn with
  | nil => exact .inl h
  | append_singleton changes change ih =>
    have hold : (directory.replay changes).links.lookup path = some inode →
        directory.links.lookup path = some inode
          ∨ ∃ change' ∈ changes ++ [change], change'.Names path inode := by
      intro hlink
      obtain hlink | ⟨change', hmem, hnames⟩ := ih hlink
      · exact .inl hlink
      · exact .inr ⟨change', List.mem_append_left _ hmem, hnames⟩
    have hnew : change.Names path inode → directory.links.lookup path = some inode
        ∨ ∃ change' ∈ changes ++ [change], change'.Names path inode :=
      fun hnames ↦ .inr ⟨change, by simp, hnames⟩
    rw [replay_append] at h
    change ((directory.replay changes).apply change).links.lookup path = some inode at h
    cases change with
    | makeDir path' => exact hold h
    | link path' inode' =>
      rw [apply, Table.lookup_insert_eq] at h
      split at h
      · next hpath => exact hnew ⟨hpath.symm, Option.some.inj h⟩
      · exact hold h
    | move path' target inode' =>
      rw [apply, Table.lookup_insert_eq, Table.lookup_erase_eq] at h
      split at h
      · next hpath => exact hnew ⟨hpath.symm, Option.some.inj h⟩
      · split at h
        · exact absurd h (by simp)
        · exact hold h
    | unlink path' =>
      rw [apply, Table.lookup_erase_eq] at h
      split at h
      · exact absurd h (by simp)
      · exact hold h

/-- An entry that is there, or is made by one of the changes, stays unless one takes it away. -/
theorem isSome_replay (hstays : ∀ change ∈ changes, ¬change.Clears path)
    (h : (directory.links.lookup path).isSome
      ∨ ∃ change ∈ changes, ∃ inode, change.Names path inode) :
    ((directory.replay changes).links.lookup path).isSome := by
  induction changes using List.reverseRecOn with
  | nil => simpa [replay] using h
  | append_singleton changes change ih =>
    have hstays' : ∀ change' ∈ changes, ¬change'.Clears path :=
      fun change' hmem ↦ hstays change' (List.mem_append_left _ hmem)
    have hlast : ¬change.Clears path := hstays change (by simp)
    -- a change that does not name the path leaves it as the changes before did
    have hold : (∀ inode, ¬change.Names path inode) →
        ((directory.replay changes).links.lookup path).isSome := by
      intro hnot
      refine ih hstays' (h.imp_right ?_)
      rintro ⟨change', hmem, inode, hnames⟩
      obtain hmem | hmem := List.mem_append.mp hmem
      · exact ⟨change', hmem, inode, hnames⟩
      · obtain rfl := List.mem_singleton.mp hmem
        exact absurd hnames (hnot inode)
    rw [replay_append]
    change (((directory.replay changes).apply change).links.lookup path).isSome
    cases change with
    | makeDir path' => exact hold fun _ hnames ↦ hnames
    | link path' inode' =>
      rw [apply, Table.lookup_insert_eq]
      split
      · rfl
      · next hpath => exact hold fun _ hnames ↦ hpath hnames.1.symm
    | move path' target inode' =>
      rw [apply, Table.lookup_insert_eq, Table.lookup_erase_eq]
      split
      · rfl
      · next hpath =>
        rw [if_neg fun heq ↦ hlast heq.symm]
        exact hold fun _ hnames ↦ hpath hnames.1.symm
    | unlink path' =>
      rw [apply, Table.lookup_erase_eq, if_neg fun heq ↦ hlast heq.symm]
      exact hold fun _ hnames ↦ hnames

end Directory

/-! ## Operations as changes -/

namespace FileSystem

variable (fs : FileSystem)

def directory : Directory := ⟨fs.links, fs.dirs⟩

/-- The directories that creating one and those above it makes. -/
def missing (path : FilePath) : List Change :=
  (path.inits.filter (· ∉ fs.dirs)).map Change.makeDir

theorem directory_createDirAll (path : FilePath) :
    (fs.createDirAll path).directory = fs.directory.replay (fs.missing path) := by
  have hlinks : ∀ (dirs : List FilePath) (directory : Directory),
      directory.links = (directory.replay (dirs.map Change.makeDir)).links := by
    intro dirs
    induction dirs with
    | nil => exact fun _ ↦ rfl
    | cons dir dirs ih => exact fun directory ↦ ih (directory.apply (.makeDir dir))
  refine Directory.ext (hlinks _ fs.directory) (Finset.ext fun dir ↦ ?_)
  rw [Directory.mem_dirs_replay, missing]
  simp only [directory, createDirAll, Finset.mem_union, List.mem_toFinset, List.mem_map,
    List.mem_filter, decide_eq_true_eq, Change.makeDir.injEq, exists_eq_right]
  tauto

theorem directory_addEntry (path : FilePath) :
    (fs.addEntry path).directory = fs.directory.apply (.link path fs.next) := rfl

theorem directory_unlink (path : FilePath) :
    (fs.unlink path).directory = fs.directory.apply (.unlink path) := rfl

theorem directory_rename {path target : FilePath} {fs' : FileSystem}
    (h : fs.rename path target = some fs') : ∃ inode, fs.links.lookup path = some inode
      ∧ fs'.directory = fs.directory.apply (.move path target inode) := by
  obtain ⟨inode, hlink, rfl⟩ := rename_eq_some.mp h
  exact ⟨inode, hlink, rfl⟩

end FileSystem

/-! ## Losses -/

/-- A file system as the disk has it. -/
structure Disk where
  /-- The entries and directories that are on disk. -/
  settled : Directory
  /-- The changes since, none of which has to be. -/
  pending : List Change
  /-- The inodes whose bytes are on disk. -/
  clean : Finset ℕ

namespace Disk

/-- The disk on which everything is settled. -/
def of (fs : FileSystem) : Disk := ⟨fs.directory, [], Finset.range fs.next⟩

/-- Directories change. -/
def note (disk : Disk) (changes : List Change) : Disk :=
  { disk with pending := disk.pending ++ changes }

/-- The bytes of an inode are on disk no more. -/
def soil (disk : Disk) (inode : ℕ) : Disk := { disk with clean := disk.clean.erase inode }

/-- The bytes of an inode are on disk. -/
def settle (disk : Disk) (inode : ℕ) : Disk := { disk with clean := insert inode disk.clean }

/-- What a loss that keeps these changes leaves of the directories. -/
def after (disk : Disk) (kept : List Change) : Directory := disk.settled.replay kept

/-- The entry at a path is on disk, or a change that is kept makes it, and so it is for each
directory above it. -/
def Keeps (disk : Disk) (kept : List Change) (path : FilePath) : Prop :=
  ((disk.settled.links.lookup path).isSome ∨ ∃ change ∈ kept, ∃ inode, change.Names path inode)
    ∧ ∀ dir ∈ path.dropLast.inits, dir ∈ disk.settled.dirs ∨ .makeDir dir ∈ kept

/-- An entry that a loss may leave. -/
def MayName (disk : Disk) (path : FilePath) (inode : ℕ) : Prop :=
  disk.settled.links.lookup path = some inode ∨ ∃ change ∈ disk.pending, change.Names path inode

/-- A loss that keeps these changes turns one file system into another. -/
structure Loss (disk : Disk) (kept : List Change) (fs fs' : FileSystem) : Prop where
  sublist : kept.Sublist disk.pending
  dirs : ∀ dir, dir ∈ fs'.dirs ↔ (disk.after kept).Reaches dir
  gone : ∀ path, ((disk.after kept).Reaches path.dropLast →
    (disk.after kept).links.lookup path = none) → fs'.lookup path = none
  found : ∀ path inode, (disk.after kept).Reaches path.dropLast →
    (disk.after kept).links.lookup path = some inode →
      ∃ file, fs'.lookup path = some file ∧ (inode ∈ disk.clean → file = fs.files inode)

variable {disk : Disk} {kept : List Change} {fs fs' : FileSystem} {path : FilePath}

theorem after_note (changes : List Change) : (disk.note changes).after (disk.note changes).pending
    = (disk.after disk.pending).replay changes := Directory.replay_append ..

theorem mayName_note {changes : List Change} {inode : ℕ} : (disk.note changes).MayName path inode
    ↔ disk.MayName path inode ∨ ∃ change ∈ changes, change.Names path inode := by
  constructor
  · rintro (hlink | ⟨change, hmem, hnames⟩)
    · exact .inl (.inl hlink)
    obtain hmem | hmem := List.mem_append.mp hmem
    · exact .inl (.inr ⟨change, hmem, hnames⟩)
    · exact .inr ⟨change, hmem, hnames⟩
  · rintro ((hlink | ⟨change, hmem, hnames⟩) | ⟨change, hmem, hnames⟩)
    · exact .inl hlink
    · exact .inr ⟨change, List.mem_append_left _ hmem, hnames⟩
    · exact .inr ⟨change, List.mem_append_right _ hmem, hnames⟩

theorem mem_clean_soil {inode inode' : ℕ} :
    inode' ∈ (disk.soil inode).clean ↔ inode' ≠ inode ∧ inode' ∈ disk.clean := Finset.mem_erase

theorem mayName_of {fs : FileSystem} {inode : ℕ} :
    (Disk.of fs).MayName path inode ↔ fs.links.lookup path = some inode := by
  rw [MayName]
  simp [Disk.of, FileSystem.directory]

theorem mayName_of_after (hkept : kept.Sublist disk.pending) {inode : ℕ}
    (h : (disk.after kept).links.lookup path = some inode) : disk.MayName path inode := by
  obtain hlink | ⟨change, hmem, hnames⟩ := Directory.names_of_replay h
  · exact .inl hlink
  · exact .inr ⟨change, hkept.subset hmem, hnames⟩

theorem reaches_after :
    (disk.after kept).Reaches path ↔ ∀ dir ∈ path.inits,
      dir ∈ disk.settled.dirs ∨ .makeDir dir ∈ kept :=
  forall₂_congr fun _ _ ↦ Directory.mem_dirs_replay

/-- A file is there after a loss if and only if the loss keeps its entry and its directories. -/
theorem Loss.isSome_lookup (h : disk.Loss kept fs fs')
    (hstays : ∀ change ∈ disk.pending, ¬change.Clears path) :
    (fs'.lookup path).isSome ↔ disk.Keeps kept path := by
  have hstays' : ∀ change ∈ kept, ¬change.Clears path :=
    fun change hmem ↦ hstays change (h.sublist.subset hmem)
  constructor
  · intro hsome
    have hreaches : (disk.after kept).Reaches path.dropLast
        ∧ (disk.after kept).links.lookup path ≠ none := by
      by_contra hnot
      rw [h.gone path fun hreaches ↦ by_contra fun hne ↦ hnot ⟨hreaches, hne⟩] at hsome
      exact absurd hsome (by simp)
    obtain ⟨inode, hlink⟩ := Option.ne_none_iff_exists'.mp hreaches.2
    refine ⟨?_, reaches_after.mp hreaches.1⟩
    obtain hlink | ⟨change, hmem, hnames⟩ := Directory.names_of_replay hlink
    · exact .inl (by rw [hlink]; rfl)
    · exact .inr ⟨change, hmem, inode, hnames⟩
  · rintro ⟨hentry, hdirs⟩
    obtain ⟨inode, hlink⟩ := Option.isSome_iff_exists.mp
      (Directory.isSome_replay hstays' hentry)
    obtain ⟨file, hfile, -⟩ := h.found path inode (reaches_after.mpr hdirs) hlink
    rw [hfile]
    rfl

/-- A file that is there after a loss was there, or might have been, under an inode it names. -/
theorem Loss.exists_mayName (h : disk.Loss kept fs fs') {file : File}
    (hfile : fs'.lookup path = some file) : ∃ inode, disk.MayName path inode
      ∧ (inode ∈ disk.clean → file = fs.files inode) := by
  have hreaches : (disk.after kept).Reaches path.dropLast
      ∧ (disk.after kept).links.lookup path ≠ none := by
    by_contra hnot
    rw [h.gone path fun hreaches ↦ by_contra fun hne ↦ hnot ⟨hreaches, hne⟩] at hfile
    exact absurd hfile (by simp)
  obtain ⟨inode, hlink⟩ := Option.ne_none_iff_exists'.mp hreaches.2
  obtain ⟨file', hfile', hclean⟩ := h.found path inode hreaches.1 hlink
  obtain rfl := Option.some.inj (hfile.symm.trans hfile')
  exact ⟨inode, mayName_of_after h.sublist hlink, hclean⟩

theorem loss_pending (hcurrent : disk.after disk.pending = fs.directory)
    (hdirs : ∀ dir ∈ fs.dirs, ∀ above ∈ dir.inits, above ∈ fs.dirs)
    (hlinks : ∀ path inode, fs.links.lookup path = some inode → path.dropLast ∈ fs.dirs) :
    disk.Loss disk.pending fs fs := by
  refine ⟨.refl _, fun dir ↦ ?_, fun path h ↦ ?_, fun path inode _ hlink ↦ ?_⟩
  · rw [hcurrent]
    exact ⟨hdirs dir, fun h ↦ h dir ((List.mem_inits _ _).mpr (List.prefix_refl _))⟩
  · rw [hcurrent] at h
    rw [FileSystem.lookup_eq_none]
    by_contra hne
    obtain ⟨inode, hlink⟩ := Option.ne_none_iff_exists'.mp hne
    have hnone : fs.links.lookup path = none := h (hdirs _ (hlinks path inode hlink))
    exact hne hnone
  · rw [hcurrent] at hlink
    have hfile : fs.lookup path = some (fs.files inode) := by
      change (fs.links.lookup path).map fs.files = _
      rw [show fs.links.lookup path = some inode from hlink, Option.map_some]
    exact ⟨fs.files inode, hfile, fun _ ↦ rfl⟩

/-- If nothing is settled and no change gets to the disk, nothing is left. -/
theorem loss_nil (hsettled : disk.settled = FileSystem.empty.directory) :
    disk.Loss [] fs FileSystem.empty := by
  have hreaches : ∀ dir, ¬(disk.after []).Reaches dir := by
    intro dir h
    have hroot := h [] ((List.mem_inits _ _).mpr List.nil_prefix)
    rw [after, hsettled] at hroot
    exact absurd hroot (by simp [Directory.replay, FileSystem.directory, FileSystem.empty])
  refine ⟨List.nil_sublist _, fun dir ↦ ⟨fun h ↦ absurd h (by simp [FileSystem.empty]),
    fun h ↦ absurd h (hreaches dir)⟩, fun path _ ↦ rfl, fun path inode h ↦ absurd h (hreaches _)⟩

end Disk
