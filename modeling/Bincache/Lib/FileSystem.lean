import Bincache.Lib.Text
import Mathlib.Data.Finmap

/-!
# A file system of inodes

A directory entry names an inode and an inode holds a file, so a descriptor — an inode number —
outlives the entry it was opened through, and renaming moves an entry without touching the file.
`FileSystem` carries what every operation here keeps: entries name inodes that were handed out, and
no two entries name one inode. There is no hard link.

Every operation says what it did to `lookup`, the file behind a path, and to `Names`, the entry and
file together, which is what the holder of a descriptor knows.
-/

abbrev Table (α β : Type) := Finmap fun _ : α ↦ β

namespace Table

variable {α β : Type} [DecidableEq α]

theorem lookup_insert_eq (t : Table α β) (a a' : α) (b : β) :
    Finmap.lookup a' (t.insert a b) = if a' = a then some b else Finmap.lookup a' t := by
  split
  · next h => rw [h, Finmap.lookup_insert]
  · next h => rw [Finmap.lookup_insert_of_ne _ h]

theorem lookup_erase_eq (t : Table α β) (a a' : α) :
    Finmap.lookup a' (t.erase a) = if a' = a then none else Finmap.lookup a' t := by
  split
  · next h => rw [h, Finmap.lookup_erase]
  · next h => rw [Finmap.lookup_erase_ne h]

end Table

/-- A path, as its components from the root on. A component is any byte string, also one that is no
text. -/
abbrev FilePath := List Bytes

/-- A file: its bytes, and the length its metadata reports. Every file written here has both agree;
a file cut short behind the back of a reader is one where they do not. -/
structure File where
  data : Bytes
  size : ℕ
deriving DecidableEq

namespace File

def empty : File := ⟨[], 0⟩

/-- The file that holds exactly these bytes. -/
def of (data : Bytes) : File := ⟨data, data.length⟩

/-- The file with bytes written over it from an offset on. -/
def write (file : File) (offset : ℕ) (bytes : Bytes) : File where
  data := file.data.takeD offset 0 ++ bytes ++ file.data.drop (offset + bytes.length)
  size := max file.size (offset + bytes.length)

theorem write_end (data bytes : Bytes) :
    (of data).write data.length bytes = of (data ++ bytes) := by
  have htake : data.takeD data.length 0 = data := by
    rw [List.takeD_eq_take _ le_rfl, List.take_length]
  simp [write, of, htake]

end File

/-- Inodes, the directory entries that name them, and the directories. -/
structure FileSystem where
  files : ℕ → File
  links : Table FilePath ℕ
  dirs : Finset FilePath
  /-- The next inode. -/
  next : ℕ
  link_lt : ∀ {path inode}, links.lookup path = some inode → inode < next
  link_injective : ∀ {path path' inode}, links.lookup path = some inode →
    links.lookup path' = some inode → path = path'

namespace FileSystem

variable (fs : FileSystem)

def empty : FileSystem where
  files _ := .empty
  links := ∅
  dirs := ∅
  next := 0
  link_lt h := by simp at h
  link_injective h := by simp at h

def lookup (path : FilePath) : Option File := (fs.links.lookup path).map fs.files

/-- The entry at `path` names `inode`, which holds `file`. -/
structure Names (path : FilePath) (inode : ℕ) (file : File) : Prop where
  link : fs.links.lookup path = some inode
  file : fs.files inode = file

variable {fs} {path path' : FilePath} {inode inode' : ℕ} {file file' : File}

theorem Names.lookup (h : fs.Names path inode file) : fs.lookup path = some file := by
  rw [FileSystem.lookup, h.link, Option.map_some, h.file]

theorem Names.inode_ne (h : fs.Names path inode file) (h' : fs.Names path' inode' file')
    (hne : path ≠ path') : inode ≠ inode' := by
  rintro rfl
  exact hne (fs.link_injective h.link h'.link)

variable (fs)

/-! ## Operations -/

def createDirAll (path : FilePath) : FileSystem :=
  { fs with dirs := fs.dirs ∪ path.inits.toFinset }

@[simp] theorem lookup_createDirAll (dir path : FilePath) :
    (fs.createDirAll dir).lookup path = fs.lookup path := rfl

theorem names_createDirAll (dir : FilePath) :
    (fs.createDirAll dir).Names path inode file ↔ fs.Names path inode file :=
  ⟨fun h ↦ ⟨h.link, h.file⟩, fun h ↦ ⟨h.link, h.file⟩⟩

def setFile (inode : ℕ) (file : File) : FileSystem :=
  { fs with files := Function.update fs.files inode file }

/-- Adds an entry with a new inode at a path that has none. -/
def addEntry (path : FilePath) : FileSystem where
  files := Function.update fs.files fs.next .empty
  links := fs.links.insert path fs.next
  dirs := fs.dirs
  next := fs.next + 1
  link_lt := by
    intro path' inode h
    rw [Table.lookup_insert_eq] at h
    split at h
    · exact Option.some.inj h ▸ Nat.lt_succ_self _
    · exact Nat.lt_succ_of_lt (fs.link_lt h)
  link_injective := by
    intro a b inode ha hb
    rw [Table.lookup_insert_eq] at ha hb
    split at ha <;> split at hb
    · next ha' hb' => rw [ha', hb']
    · exact absurd (fs.link_lt hb) (Option.some.inj ha ▸ Nat.lt_irrefl _)
    · exact absurd (fs.link_lt ha) (Option.some.inj hb ▸ Nat.lt_irrefl _)
    · exact fs.link_injective ha hb

/-- Opens a file for writing, empty: a new one, or the one that is there, cut to nothing. -/
def create (path : FilePath) : FileSystem × ℕ :=
  match fs.links.lookup path with
  | some inode => (fs.setFile inode .empty, inode)
  | none => (fs.addEntry path, fs.next)

/-- Writes through a descriptor. -/
def writeAt (inode offset : ℕ) (bytes : Bytes) : FileSystem :=
  fs.setFile inode ((fs.files inode).write offset bytes)

def unlink (path : FilePath) : FileSystem :=
  { fs with
    links := fs.links.erase path
    link_lt := by
      intro path' inode h
      rw [Table.lookup_erase_eq] at h
      split at h
      · exact absurd h (by simp)
      · exact fs.link_lt h
    link_injective := by
      intro a b inode ha hb
      rw [Table.lookup_erase_eq] at ha hb
      split at ha <;> split at hb
      · exact absurd ha (by simp)
      · exact absurd ha (by simp)
      · exact absurd hb (by simp)
      · exact fs.link_injective ha hb }

/-- Moves the entry of an inode over whatever is at the target. -/
def moveEntry (path target : FilePath) (inode : ℕ) (h : fs.links.lookup path = some inode) :
    FileSystem where
  files := fs.files
  links := (fs.links.erase path).insert target inode
  dirs := fs.dirs
  next := fs.next
  link_lt := by
    intro path' inode' h'
    rw [Table.lookup_insert_eq, Table.lookup_erase_eq] at h'
    split at h'
    · exact Option.some.inj h' ▸ fs.link_lt h
    · split at h'
      · exact absurd h' (by simp)
      · exact fs.link_lt h'
  link_injective := by
    intro a b inode' ha hb
    rw [Table.lookup_insert_eq, Table.lookup_erase_eq] at ha hb
    split at ha <;> split at hb
    · next ha' hb' => rw [ha', hb']
    · split at hb
      · exact absurd hb (by simp)
      · next hne => exact absurd (fs.link_injective hb (Option.some.inj ha ▸ h)) hne
    · split at ha
      · exact absurd ha (by simp)
      · next hne => exact absurd (fs.link_injective ha (Option.some.inj hb ▸ h)) hne
    · split at ha <;> split at hb
      · exact absurd ha (by simp)
      · exact absurd ha (by simp)
      · exact absurd hb (by simp)
      · exact fs.link_injective ha hb

/-- Moves an entry over whatever is at the target; `none` when there is no entry to move. -/
def rename (path target : FilePath) : Option FileSystem :=
  match h : fs.links.lookup path with
  | none => none
  | some inode => some (fs.moveEntry path target inode h)

/-- The names of the files and directories right under a directory. -/
def children (dir : FilePath) : Finset Bytes :=
  (fs.dirs ∪ fs.links.keys).biUnion fun path ↦
    match path.getLast? with
    | some name => if path.dropLast = dir then {name} else ∅
    | none => ∅

/-! ## What they do to the files -/

@[simp] theorem links_setFile (inode : ℕ) (file : File) :
    (fs.setFile inode file).links = fs.links := rfl

@[simp] theorem files_setFile (inode : ℕ) (file : File) :
    (fs.setFile inode file).files = Function.update fs.files inode file := rfl

@[simp] theorem links_addEntry (path : FilePath) :
    (fs.addEntry path).links = fs.links.insert path fs.next := rfl

@[simp] theorem files_addEntry (path : FilePath) :
    (fs.addEntry path).files = Function.update fs.files fs.next .empty := rfl

@[simp] theorem files_unlink (path : FilePath) : (fs.unlink path).files = fs.files := rfl

@[simp] theorem links_unlink (path : FilePath) : (fs.unlink path).links = fs.links.erase path := rfl

theorem lookup_eq_none : fs.lookup path = none ↔ fs.links.lookup path = none := by
  rw [lookup, Option.map_eq_none_iff]

variable {fs}

/-- Giving the inode behind a path a new file changes that path and no other. -/
theorem lookup_setFile (h : fs.links.lookup path = some inode) (file : File) (path' : FilePath) :
    (fs.setFile inode file).lookup path' = if path' = path then some file else fs.lookup path' := by
  rw [lookup, links_setFile, files_setFile]
  split
  · next heq => rw [heq, h, Option.map_some, Function.update_self]
  · next hne =>
    rw [lookup]
    refine Option.map_congr fun i hi ↦ Function.update_of_ne ?_ _ _
    rintro rfl
    exact hne (fs.link_injective hi h)

theorem Names.setFile (h : fs.Names path inode file) (hne : inode ≠ inode') (file' : File) :
    (fs.setFile inode' file').Names path inode file :=
  ⟨h.link, by rw [files_setFile, Function.update_of_ne hne, h.file]⟩

variable (fs)

theorem lookup_create (path path' : FilePath) :
    (fs.create path).1.lookup path' = if path' = path then some .empty else fs.lookup path' := by
  rw [create]
  split
  · next inode h => exact lookup_setFile h .empty path'
  · rw [lookup, links_addEntry, Table.lookup_insert_eq]
    split
    · simp
    · rw [lookup]
      exact Option.map_congr fun i hi ↦ Function.update_of_ne (fs.link_lt hi).ne _ _

/-- The descriptor a creation returns is the one the path now names. -/
theorem names_create (path : FilePath) :
    (fs.create path).1.Names path (fs.create path).2 .empty := by
  rw [create]
  split
  · next inode h => exact ⟨h, by simp⟩
  · exact ⟨by simp, by simp⟩

variable {fs}

theorem Names.create (h : fs.Names path inode file) (hne : path ≠ path') :
    (fs.create path').1.Names path inode file := by
  rw [FileSystem.create]
  split
  · next inode' h' => exact h.setFile (fun heq ↦ hne (fs.link_injective h.link (heq ▸ h'))) .empty
  · refine ⟨by rw [links_addEntry, Table.lookup_insert_eq, if_neg hne, h.link], ?_⟩
    rw [files_addEntry, Function.update_of_ne (fs.link_lt h.link).ne, h.file]

theorem Names.writeAt (h : fs.Names path inode file) (offset : ℕ) (bytes : Bytes) :
    (fs.writeAt inode offset bytes).Names path inode (file.write offset bytes) :=
  ⟨h.link, by rw [FileSystem.writeAt, files_setFile, Function.update_self, h.file]⟩

theorem Names.writeAt_of_ne (h : fs.Names path inode file) (hne : inode ≠ inode') (offset : ℕ)
    (bytes : Bytes) : (fs.writeAt inode' offset bytes).Names path inode file :=
  h.setFile hne _

/-- Writing through a descriptor changes the file at the path that names it, and no other. -/
theorem Names.lookup_writeAt (h : fs.Names path inode file) (offset : ℕ) (bytes : Bytes)
    (path' : FilePath) : (fs.writeAt inode offset bytes).lookup path'
      = if path' = path then some (file.write offset bytes) else fs.lookup path' := by
  rw [FileSystem.writeAt, h.file]
  exact lookup_setFile h.link _ path'

theorem lookup_unlink (path path' : FilePath) :
    (fs.unlink path).lookup path' = if path' = path then none else fs.lookup path' := by
  rw [lookup, links_unlink, Table.lookup_erase_eq]
  split
  · rfl
  · rfl

theorem Names.unlink (h : fs.Names path inode file) (hne : path ≠ path') :
    (fs.unlink path').Names path inode file :=
  ⟨by rw [links_unlink, Table.lookup_erase_eq, if_neg hne, h.link], h.file⟩

theorem rename_eq_none {path target : FilePath} :
    fs.rename path target = none ↔ fs.lookup path = none := by
  rw [lookup_eq_none, rename]
  split
  · next h => simp [h]
  · next h => simp [h]

theorem rename_eq_some {target : FilePath} {fs' : FileSystem} :
    fs.rename path target = some fs'
      ↔ ∃ inode, ∃ h : fs.links.lookup path = some inode,
        fs' = fs.moveEntry path target inode h := by
  rw [rename]
  split
  · next h => simp [h]
  · next inode h =>
    constructor
    · intro heq
      exact ⟨inode, h, (Option.some.inj heq).symm⟩
    · rintro ⟨inode', h', rfl⟩
      cases Option.some.inj (h.symm.trans h')
      rfl

theorem lookup_rename {target : FilePath} {fs' : FileSystem} (h : fs.rename path target = some fs')
    (path' : FilePath) : fs'.lookup path'
      = if path' = target then fs.lookup path
        else if path' = path then none else fs.lookup path' := by
  obtain ⟨inode, hlink, rfl⟩ := rename_eq_some.mp h
  rw [lookup, moveEntry, Table.lookup_insert_eq, Table.lookup_erase_eq]
  split
  · simp [lookup, hlink]
  · split
    · rfl
    · rfl

theorem Names.rename {target : FilePath} {fs' : FileSystem} (h : fs.Names path inode file)
    (hrename : fs.rename path' target = some fs') (hsource : path ≠ path')
    (htarget : path ≠ target) : fs'.Names path inode file := by
  obtain ⟨inode', hlink, rfl⟩ := rename_eq_some.mp hrename
  refine ⟨?_, h.file⟩
  rw [moveEntry, Table.lookup_insert_eq, if_neg htarget, Table.lookup_erase_eq, if_neg hsource,
    h.link]

theorem entry_create (path : FilePath) (hne : path' ≠ path) :
    (fs.create path).1.links.lookup path' = fs.links.lookup path' := by
  rw [create]
  split
  · rfl
  · rw [links_addEntry, Table.lookup_insert_eq, if_neg hne]

theorem entry_rename {target : FilePath} {fs' : FileSystem} (h : fs.rename path target = some fs')
    (hsource : path' ≠ path) (htarget : path' ≠ target) :
    fs'.links.lookup path' = fs.links.lookup path' := by
  obtain ⟨inode, hlink, rfl⟩ := rename_eq_some.mp h
  rw [moveEntry, Table.lookup_insert_eq, if_neg htarget, Table.lookup_erase_eq, if_neg hsource]

theorem dirs_rename {target : FilePath} {fs' : FileSystem} (h : fs.rename path target = some fs') :
    fs'.dirs = fs.dirs := by
  obtain ⟨inode, hlink, rfl⟩ := rename_eq_some.mp h
  rfl

theorem dirs_create (path : FilePath) : (fs.create path).1.dirs = fs.dirs := by
  rw [create]
  split
  · rfl
  · rfl

theorem mem_children {dir : FilePath} {name : Bytes} :
    name ∈ fs.children dir ↔ dir ++ [name] ∈ fs.dirs ∨ dir ++ [name] ∈ fs.links := by
  rw [children, Finset.mem_biUnion]
  constructor
  · rintro ⟨path, hpath, hname⟩
    split at hname
    · next last hlast =>
      split at hname
      · next hdir =>
        rw [Finset.mem_singleton] at hname
        have heq : path = dir ++ [name] := by
          rw [← hdir, hname, List.dropLast_append_getLast? _ hlast]
        rwa [← heq, ← Finmap.mem_keys, ← Finset.mem_union]
      · exact absurd hname (by simp)
    · exact absurd hname (by simp)
  · intro h
    rw [← Finmap.mem_keys, ← Finset.mem_union] at h
    refine ⟨dir ++ [name], h, ?_⟩
    simp

end FileSystem
