import Bincache.Core.NarInfo
import Bincache.Lib.FileSystem
import Mathlib.Data.Finset.Sort
import Mathlib.Order.Lex

/-!
# The index

Two tables: store path hash to signed record, and NAR hash to the artifact that holds those bytes.
Each function is one transaction of the index, read or write, and the state it takes and returns is
the committed one.
-/

namespace Bincache

namespace StorePath.Hash

private def numbers (hash : Hash) : List ℕ := hash.bytes.1.map UInt8.toNat

private theorem numbers_injective : Function.Injective numbers := by
  rintro ⟨a⟩ ⟨b⟩ h
  refine congrArg mk (Subtype.ext (List.map_injective_iff.mpr ?_ h))
  exact fun x y hxy ↦ UInt8.toNat_inj.mp hxy

/-- Rows are kept in the byte order of their keys. -/
instance : LinearOrder Hash := LinearOrder.lift' numbers numbers_injective

end StorePath.Hash

/-- Where the artifact for a NAR hash ended up. -/
structure Entry where
  /-- Over the stored artifact. Names the file, and therefore the served URL. -/
  fileHash : Sha256
  fileSize : ℕ
  /-- Over the uncompressed NAR. -/
  narSize : ℕ+
  compression : Compression
deriving DecidableEq

def Entry.url (entry : Entry) : NarUrl := ⟨entry.fileHash, entry.compression⟩

structure Index where
  narinfos : Table StorePath.Hash NarInfo
  nars : Table Sha256 Entry

namespace Index

def empty : Index := ⟨∅, ∅⟩

variable (index : Index)

/-- The record for a metadata request. -/
def narinfo (key : StorePath.Hash) : Option NarInfo := index.narinfos.lookup key

/-- Where the NAR with this hash was stored, if it was. -/
def nar (narHash : Sha256) : Option Entry := index.nars.lookup narHash

def putNar (narHash : Sha256) (entry : Entry) : Index :=
  { index with nars := index.nars.insert narHash entry }

/-- The publish. The key is the hash of the record's own store path. -/
def publish (record : NarInfo) : Index :=
  { index with narinfos := index.narinfos.insert record.storePath.hash record }

/-- Republishes many records in one transaction. -/
def republish (records : List NarInfo) : Index := records.foldl publish index

/-- Removes a record, and with it the NAR row of the record's NAR hash. -/
def unpublish (key : StorePath.Hash) : Option NarInfo × Index :=
  match index.narinfo key with
  | none => (none, index)
  | some record =>
    (some record, ⟨index.narinfos.erase key, index.nars.erase record.narHash⟩)

def records : List NarInfo := index.narinfos.keys.sort.filterMap index.narinfo

def count : ℕ := index.narinfos.keys.card

/-! ## Rows after each transaction -/

@[simp] theorem narinfo_empty (key : StorePath.Hash) : empty.narinfo key = none :=
  Finmap.lookup_empty key

@[simp] theorem nar_empty (narHash : Sha256) : empty.nar narHash = none :=
  Finmap.lookup_empty narHash

@[simp] theorem narinfo_putNar (narHash : Sha256) (entry : Entry) (key : StorePath.Hash) :
    (index.putNar narHash entry).narinfo key = index.narinfo key := rfl

theorem nar_putNar (narHash : Sha256) (entry : Entry) (narHash' : Sha256) :
    (index.putNar narHash entry).nar narHash'
      = if narHash' = narHash then some entry else index.nar narHash' :=
  Table.lookup_insert_eq index.nars narHash narHash' entry

theorem narinfo_publish (record : NarInfo) (key : StorePath.Hash) :
    (index.publish record).narinfo key
      = if key = record.storePath.hash then some record else index.narinfo key :=
  Table.lookup_insert_eq index.narinfos record.storePath.hash key record

@[simp] theorem nar_publish (record : NarInfo) (narHash : Sha256) :
    (index.publish record).nar narHash = index.nar narHash := rfl

@[simp] theorem nar_republish (records : List NarInfo) (narHash : Sha256) :
    (index.republish records).nar narHash = index.nar narHash := by
  rw [republish]
  induction records generalizing index with
  | nil => rfl
  | cons record records ih => rw [List.foldl_cons, ih, nar_publish]

/-- A row after a republish is the one before it, or one of the records, under its own key. -/
theorem narinfo_republish {records : List NarInfo} {key : StorePath.Hash} {record : NarInfo}
    (h : (index.republish records).narinfo key = some record) :
    index.narinfo key = some record ∨ record ∈ records ∧ record.storePath.hash = key := by
  rw [republish] at h
  induction records generalizing index with
  | nil => exact .inl h
  | cons first records ih =>
    rw [List.foldl_cons] at h
    obtain hrow | ⟨hmem, hkey⟩ := ih _ h
    · rw [narinfo_publish] at hrow
      split at hrow
      · next hkey =>
        obtain rfl := Option.some.inj hrow
        exact .inr ⟨List.mem_cons_self, hkey.symm⟩
      · exact .inl hrow
    · exact .inr ⟨List.mem_cons_of_mem _ hmem, hkey⟩

variable {index}

theorem unpublish_of_none {key : StorePath.Hash} (h : index.narinfo key = none) :
    index.unpublish key = (none, index) := by
  rw [unpublish, h]

theorem narinfo_unpublish (key key' : StorePath.Hash) :
    (index.unpublish key).2.narinfo key' = if key' = key then none else index.narinfo key' := by
  rw [unpublish]
  split
  · next h =>
    split
    · next heq => rw [heq, h]
    · rfl
  · exact Table.lookup_erase_eq index.narinfos key key'

theorem nar_unpublish {key : StorePath.Hash} {record : NarInfo}
    (h : index.narinfo key = some record) (narHash : Sha256) :
    (index.unpublish key).2.nar narHash
      = if narHash = record.narHash then none else index.nar narHash := by
  rw [unpublish, h]
  exact Table.lookup_erase_eq index.nars record.narHash narHash

theorem mem_records {record : NarInfo} :
    record ∈ index.records ↔ ∃ key, index.narinfo key = some record := by
  rw [records, List.mem_filterMap]
  constructor
  · rintro ⟨key, -, hrow⟩
    exact ⟨key, hrow⟩
  · rintro ⟨key, hrow⟩
    refine ⟨key, ?_, hrow⟩
    rw [Finset.mem_sort, Finmap.mem_keys]
    exact Finmap.mem_of_lookup_eq_some hrow

theorem ext_rows {a b : Index} (hnarinfo : ∀ key, a.narinfo key = b.narinfo key)
    (hnar : ∀ narHash, a.nar narHash = b.nar narHash) : a = b := by
  cases a
  cases b
  rw [mk.injEq]
  exact ⟨Finmap.ext_lookup hnarinfo, Finmap.ext_lookup hnar⟩

end Index

end Bincache
