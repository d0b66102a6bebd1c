import Bincache.Store

/-!
# Operator maintenance

Delete, reconcile and signing-key rotation. None of them runs on the serving path.
-/

namespace Bincache

namespace Maintain

/-- Records re-signed per transaction during a rotation. -/
def batch : ℕ := 1000

inductive Error
  | index (source : IndexError)
  | scan (source : Store.Error)
deriving DecidableEq

inductive Deleted
  | removed
  | absent
deriving DecidableEq

structure Reconciliation where
  orphanArtifacts : List NarUrl
  recordsWithoutArtifacts : List StorePath
  unrecognizedFiles : List FilePath

/-- Forgets the record. The artifact stays. -/
def delete (key : StorePath.Hash) : Call Error Deleted := do
  match ← (indexCall (.unpublish key)).context .index with
  | none => pure .absent
  | some _ => pure .removed

/-- The two directions of the comparison, for the artifacts on disk and the records. -/
def compare (scan : Store.Scan) (records : List NarInfo) : Reconciliation :=
  let claimed := records.map fun record ↦ record.nar.name
  let present := scan.artifacts.map NarUrl.name
  { orphanArtifacts := scan.artifacts.filter fun url ↦ url.name ∉ claimed
    recordsWithoutArtifacts :=
      (records.filter fun record ↦ record.nar.name ∉ present).map NarInfo.storePath
    unrecognizedFiles := scan.unrecognized }

/-- The records in runs of at most `n`. -/
def chunks {α : Type} (n : ℕ) (list : List α) : List (List α) :=
  if _h : list = [] ∨ n = 0 then []
  else list.take n :: chunks n (list.drop n)
termination_by list.length
decreasing_by
  have := List.length_pos_of_ne_nil (not_or.mp _h).1
  rw [List.length_drop]
  omega

variable [Crates]

/-- Compares the file system against the index. Reports rather than acts. -/
def reconcile : Call Error Reconciliation := do
  let scan ← Store.scan.context .scan
  let records ← (indexCall .records).context .index
  pure (compare scan records)

/-- Re-signs every record, in batches. -/
def rotate (dir : Dir) (key : SecretKey) : Call Error ℕ := do
  let records ← (indexCall .records).context .index
  let records := records.map fun record ↦ record.resign dir key
  (chunks batch records).forM fun batch ↦ (indexCall (.republish batch)).context .index
  pure records.length

omit [Crates] in
theorem mem_of_mem_chunks {α : Type} {n : ℕ} {list run : List α} (h : run ∈ chunks n list) {a : α}
    (ha : a ∈ run) : a ∈ list := by
  induction list using chunks.induct n with
  | case1 list hstop =>
    rw [chunks, dif_pos hstop] at h
    exact absurd h List.not_mem_nil
  | case2 list hgo ih =>
    rw [chunks, dif_neg hgo, List.mem_cons] at h
    obtain rfl | hrest := h
    · exact List.mem_of_mem_take ha
    · exact List.mem_of_mem_drop (ih hrest)

end Maintain

end Bincache
