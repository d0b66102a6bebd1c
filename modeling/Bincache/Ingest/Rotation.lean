import Bincache.Ingest.Publishing
import Bincache.Ingest.Maintain

/-!
# Rotating the signing key

A rotation reads every record once, signs them all, and then commits them in batches. Cut off
anywhere it has committed some of the signed records and none of the others, and signing a record
again forgets who signed it before. So an index in the middle of a rotation has the rows of the old
one, each as it was or signed anew, and whatever mixture it is, a rotation that gets to its end
leads from there to the same index.

All of this rests on every record lying under the hash of its own store path, which no transaction
breaks.
-/

namespace Bincache

/-! ## Records under their own key -/

namespace Index

def after (history : List IndexOp) : Index := history.foldl (fun index op ↦ (op.run index).2) empty

/-- Every record lies under the hash of its store path. -/
def Keyed (index : Index) : Prop :=
  ∀ key record, index.narinfo key = some record → record.storePath.hash = key

theorem keyed_empty : empty.Keyed := by
  intro key record h
  exact absurd h (by simp)

variable {index : Index}

theorem Keyed.publish (h : index.Keyed) (record : NarInfo) : (index.publish record).Keyed := by
  intro key record' hrow
  rw [narinfo_publish] at hrow
  split at hrow
  · next hkey =>
    obtain rfl := Option.some.inj hrow
    exact hkey.symm
  · exact h key record' hrow

theorem Keyed.republish (h : index.Keyed) (records : List NarInfo) :
    (index.republish records).Keyed := by
  intro key record hrow
  obtain hrow | ⟨-, hkey⟩ := index.narinfo_republish hrow
  · exact h key record hrow
  · exact hkey

theorem Keyed.unpublish (h : index.Keyed) (key : StorePath.Hash) :
    (index.unpublish key).2.Keyed := by
  intro key' record hrow
  rw [narinfo_unpublish] at hrow
  split at hrow
  · exact absurd hrow (by simp)
  · exact h key' record hrow

theorem Keyed.run (h : index.Keyed) (op : IndexOp) : (op.run index).2.Keyed := by
  cases op with
  | putNar narHash entry => exact fun key record hrow ↦ h key record hrow
  | publish record => exact h.publish record
  | republish records => exact h.republish records
  | unpublish key => exact h.unpublish key
  | narinfo key => exact h
  | nar narHash => exact h
  | records => exact h
  | count => exact h

theorem keyed_after (history : List IndexOp) : (after history).Keyed := by
  rw [after]
  have hstart := keyed_empty
  generalize empty = start at hstart
  induction history generalizing start with
  | nil => exact hstart
  | cons op history ih => exact ih _ (hstart.run op)

/-! ## Counting and committing records -/

theorem length_records (index : Index) : index.records.length = index.count := by
  have hrow : ∀ key ∈ index.narinfos.keys.sort, ∃ record, index.narinfo key = some record := by
    intro key hkey
    rw [Finset.mem_sort, Finmap.mem_keys, Finmap.mem_iff] at hkey
    exact hkey
  rw [records, count, ← Finset.length_sort (· ≤ ·)]
  generalize index.narinfos.keys.sort = keys at hrow
  induction keys with
  | nil => rfl
  | cons key keys ih =>
    obtain ⟨record, hkey⟩ := hrow key List.mem_cons_self
    rw [List.filterMap_cons_some hkey, List.length_cons, List.length_cons,
      ih fun key' h ↦ hrow key' (List.mem_cons_of_mem key h)]

theorem republish_append (index : Index) (a b : List NarInfo) :
    index.republish (a ++ b) = (index.republish a).republish b := List.foldl_append

theorem narinfo_republish_of_mem (index : Index) {records : List NarInfo} {record : NarInfo}
    (h : record ∈ records) :
    ∃ last ∈ records, last.storePath.hash = record.storePath.hash
      ∧ (index.republish records).narinfo record.storePath.hash = some last := by
  induction records using List.reverseRecOn with
  | nil => exact absurd h List.not_mem_nil
  | append_singleton records last ih =>
    rw [republish_append]
    by_cases hkey : record.storePath.hash = last.storePath.hash
    · refine ⟨last, by simp, hkey.symm, ?_⟩
      change ((index.republish records).publish last).narinfo _ = _
      rw [narinfo_publish, if_pos hkey]
    · have hmem : record ∈ records := by
        obtain hmem | hlast := List.mem_append.mp h
        · exact hmem
        · exact absurd (congrArg (·.storePath.hash) (List.mem_singleton.mp hlast)) hkey
      obtain ⟨last', hmem', hhash, hrow⟩ := ih hmem
      refine ⟨last', List.mem_append_left _ hmem', hhash, ?_⟩
      change ((index.republish records).publish last).narinfo _ = _
      rw [narinfo_publish, if_neg hkey, hrow]

theorem narinfo_republish_of_notMem (index : Index) {records : List NarInfo} {key : StorePath.Hash}
    (h : ∀ record ∈ records, record.storePath.hash ≠ key) :
    (index.republish records).narinfo key = index.narinfo key := by
  induction records using List.reverseRecOn with
  | nil => rfl
  | append_singleton records last ih =>
    obtain ⟨hrecords, hlast⟩ := List.forall_mem_append.mp h
    rw [republish_append]
    change ((index.republish records).publish last).narinfo key = _
    rw [narinfo_publish, if_neg (Ne.symm (hlast last (List.mem_singleton_self last))), ih hrecords]

end Index

/-! ## What a rotation is for -/

namespace Maintain

variable [Crates] {dir : Dir} {key : SecretKey}

/-- A record and the same record signed by one key alone. -/
structure Resigned (dir : Dir) (key : SecretKey) (old new : NarInfo) : Prop where
  /-- Every field but the signatures. -/
  fields : { new with sigs := old.sigs } = old
  sigs : new.sigs = [key.sign (new.fingerprint dir)]

theorem resigned_iff {old new : NarInfo} : Resigned dir key old new ↔ new = old.resign dir key := by
  constructor
  · rintro ⟨hfields, hsigs⟩
    rw [← hfields]
    rw [NarInfo.resign, NarInfo.fingerprint_sigs, ← hsigs]
  · rintro rfl
    exact ⟨rfl, rfl⟩

/-- An index whose rows are those of `old`, each record related to the one it was. -/
structure Rows (related : NarInfo → NarInfo → Prop) (old new : Index) : Prop where
  keys : new.narinfos.keys = old.narinfos.keys
  records : ∀ k record record', old.narinfo k = some record → new.narinfo k = some record' →
    related record record'
  nars : new.nars = old.nars

/-- Every record is signed anew. -/
abbrev Rotated (dir : Dir) (key : SecretKey) : Index → Index → Prop := Rows (Resigned dir key)

/-- Every record is as it was, or is signed anew. -/
abbrev Rotating (dir : Dir) (key : SecretKey) : Index → Index → Prop :=
  Rows fun old new ↦ new = old ∨ Resigned dir key old new

/-! ## Batches of signed records -/

def signedRecords (dir : Dir) (key : SecretKey) (index : Index) : List NarInfo :=
  index.records.map fun record ↦ record.resign dir key

omit [Crates] in
theorem flatten_chunks {α : Type} {n : ℕ} (hn : n ≠ 0) (list : List α) :
    (chunks n list).flatten = list := by
  induction list using chunks.induct n with
  | case1 list hstop =>
    rw [chunks, dif_pos hstop, hstop.resolve_right hn]
    rfl
  | case2 list hgo ih =>
    rw [chunks, dif_neg hgo, List.flatten_cons, ih, List.take_append_drop]

theorem mem_signedRecords {index : Index} (hkeyed : index.Keyed) {record : NarInfo}
    (h : record ∈ signedRecords dir key index) :
    ∃ old, index.narinfo record.storePath.hash = some old ∧ record = old.resign dir key := by
  obtain ⟨old, hold, rfl⟩ := List.mem_map.mp h
  obtain ⟨k, hrow⟩ := Index.mem_records.mp hold
  rw [NarInfo.storePath_resign, hkeyed k old hrow]
  exact ⟨old, hrow, rfl⟩

/-- Once some of the signed records are committed, a row is as it was, if its record is not among
them, or signed anew. -/
theorem narinfo_republish_signed {index : Index} (hkeyed : index.Keyed) {committed : List NarInfo}
    (hsubset : committed ⊆ signedRecords dir key index) (k : StorePath.Hash) :
    ((index.republish committed).narinfo k = index.narinfo k
        ∧ ∀ record ∈ committed, record.storePath.hash ≠ k)
      ∨ (index.republish committed).narinfo k
        = (index.narinfo k).map fun record ↦ record.resign dir key := by
  by_cases hmem : ∃ record ∈ committed, record.storePath.hash = k
  · obtain ⟨record, hrecord, rfl⟩ := hmem
    obtain ⟨last, hlast, hhash, hrow⟩ := index.narinfo_republish_of_mem hrecord
    obtain ⟨old, hold, rfl⟩ := mem_signedRecords hkeyed (hsubset hlast)
    rw [hhash] at hold
    rw [hrow, hold]
    exact .inr rfl
  · push Not at hmem
    exact .inl ⟨index.narinfo_republish_of_notMem hmem, hmem⟩

theorem keys_republish_signed {index : Index} (hkeyed : index.Keyed) {committed : List NarInfo}
    (hsubset : committed ⊆ signedRecords dir key index) :
    (index.republish committed).narinfos.keys = index.narinfos.keys := by
  ext k
  rw [Finmap.mem_keys, Finmap.mem_keys, ← Finmap.lookup_isSome, ← Finmap.lookup_isSome]
  change ((index.republish committed).narinfo k).isSome ↔ (index.narinfo k).isSome
  obtain ⟨hrow, -⟩ | hrow := narinfo_republish_signed hkeyed hsubset k
  · rw [hrow]
  · rw [hrow, Option.isSome_map]

omit [Crates] in
theorem nars_republish (index : Index) (records : List NarInfo) :
    (index.republish records).nars = index.nars :=
  Finmap.ext_lookup fun narHash ↦ index.nar_republish records narHash

/-- Wherever the committing stops, the rotation is under way. -/
theorem rotating_republish {index : Index} (hkeyed : index.Keyed) {committed : List NarInfo}
    (hsubset : committed ⊆ signedRecords dir key index) :
    Rotating dir key index (index.republish committed) := by
  refine ⟨keys_republish_signed hkeyed hsubset, fun k old new hold hnew ↦ ?_,
    nars_republish index committed⟩
  obtain ⟨hrow, -⟩ | hrow := narinfo_republish_signed hkeyed hsubset k
  · exact .inl (Option.some.inj (hnew.symm.trans (hrow.trans hold)))
  · rw [hold, hnew] at hrow
    exact .inr (resigned_iff.mpr (Option.some.inj hrow))

theorem rotated_republish {index : Index} (hkeyed : index.Keyed) :
    Rotated dir key index (index.republish (signedRecords dir key index)) := by
  refine ⟨keys_republish_signed hkeyed (List.Subset.refl _), fun k old new hold hnew ↦ ?_,
    nars_republish index _⟩
  obtain ⟨-, hnone⟩ | hrow := narinfo_republish_signed hkeyed (List.Subset.refl _) k
  · have hmem : old.resign dir key ∈ signedRecords dir key index :=
      List.mem_map_of_mem (Index.mem_records.mpr ⟨k, hold⟩)
    exact (hnone _ hmem (hkeyed k old hold)).elim
  · rw [hold, hnew] at hrow
    exact resigned_iff.mpr (Option.some.inj hrow)

/-! ## From one index to the next -/

section Rows

variable {related related' : NarInfo → NarInfo → Prop} {a b c : Index}

omit [Crates] in
theorem Rows.exists_old (h : Rows related a b) {k : StorePath.Hash} {record : NarInfo}
    (hrow : b.narinfo k = some record) : ∃ old, a.narinfo k = some old ∧ related old record := by
  have hkey : k ∈ a.narinfos.keys := by
    rw [← h.keys, Finmap.mem_keys]
    exact Finmap.mem_of_lookup_eq_some hrow
  rw [Finmap.mem_keys, Finmap.mem_iff] at hkey
  obtain ⟨old, hold⟩ := hkey
  exact ⟨old, hold, h.records k old record hold hrow⟩

omit [Crates] in
theorem Rows.trans (hab : Rows related a b) (hbc : Rows related' b c)
    {related'' : NarInfo → NarInfo → Prop}
    (h : ∀ x y z, related x y → related' y z → related'' x z) : Rows related'' a c := by
  refine ⟨hbc.keys.trans hab.keys, fun k x z hx hz ↦ ?_, hbc.nars.trans hab.nars⟩
  obtain ⟨y, hy, hyz⟩ := hbc.exists_old hz
  exact h x y z (hab.records k x y hx hy) hyz

omit [Crates] in
theorem Rows.count (h : Rows related a b) : b.count = a.count := congrArg Finset.card h.keys

/-- Signing leaves the store path, and with it the key, alone. -/
theorem Rows.keyed (h : Rotating dir key a b) (hkeyed : a.Keyed) : b.Keyed := by
  intro k record hrow
  obtain ⟨old, hold, rfl | hsigned⟩ := h.exists_old hrow
  · exact hkeyed k record hold
  · rw [resigned_iff.mp hsigned, NarInfo.storePath_resign]
    exact hkeyed k old hold

/-- A rotation that was cut off and then run to its end is a rotation. -/
theorem Rows.rotated (hab : Rotating dir key a b) (hbc : Rotated dir key b c) :
    Rotated dir key a c := by
  refine hab.trans hbc fun x y z hxy hyz ↦ ?_
  rw [resigned_iff] at hyz ⊢
  obtain rfl | hxy := hxy
  · exact hyz
  · rw [hyz, resigned_iff.mp hxy, NarInfo.resign_resign]

theorem Rows.unique (hb : Rotated dir key a b) (hc : Rotated dir key a c) : b = c := by
  refine Index.ext_rows (fun k ↦ Option.ext fun record ↦ ?_) fun narHash ↦ ?_
  · have hrow : ∀ {d : Index}, Rotated dir key a d → (d.narinfo k = some record
        ↔ ∃ old, a.narinfo k = some old ∧ record = old.resign dir key) := by
      intro d hd
      constructor
      · intro hrow
        obtain ⟨old, hold, hsigned⟩ := hd.exists_old hrow
        exact ⟨old, hold, resigned_iff.mp hsigned⟩
      · rintro ⟨old, hold, rfl⟩
        have hkey : k ∈ d.narinfos.keys := by
          rw [hd.keys, Finmap.mem_keys]
          exact Finmap.mem_of_lookup_eq_some hold
        rw [Finmap.mem_keys, Finmap.mem_iff] at hkey
        obtain ⟨new, hnew⟩ := hkey
        rw [← resigned_iff.mp (hd.records k old new hold hnew)]
        exact hnew
    rw [hrow hb, hrow hc]
  · rw [Index.nar, Index.nar, hb.nars, hc.nars]

end Rows

/-! ## The program -/

section Program

variable {env : Env} {start : Index} {world : World} {peer : Peer}

/-- The invariant of a rotation that began at `start`. -/
abbrev Underway (dir : Dir) (key : SecretKey) (start : Index) (world : World) : Prop :=
  Rotating dir key start world.index

/-- What is committed stays a beginning of the signed records, batch after batch. -/
theorem safe_commits (hkeyed : start.Keyed) (batches : List (List NarInfo))
    (committed : List NarInfo) (hall : committed ++ batches.flatten = signedRecords dir key start)
    (hindex : world.index = start.republish committed) :
    (batches.forM fun batch ↦
        (indexCall (.republish batch)).context Error.index : Call Error Unit).run.Safe
      (.guarded (Underway dir key start)) (fun _ ↦ step env) () (fun result _ world' ↦
        match result with
        | .ok _ => Rotated dir key start world'.index
        | .error _ => env = .hostile) peer world := by
  -- the rows written so far are those of the first batches
  induction batches generalizing committed world peer with
  | nil =>
    refine Program.safe_guarded_done fun _ ↦ ?_
    rw [List.flatten_nil, List.append_nil] at hall
    rw [hindex, hall]
    exact rotated_republish hkeyed
  | cons batch batches ih =>
    have hnext : (committed ++ batch) ++ batches.flatten = signedRecords dir key start := by
      rw [← hall, List.flatten_cons, List.append_assoc]
    rw [List.forM_eq_forM, List.forM_cons, ← List.forM_eq_forM]
    refine Attempt.safe_bind (Attempt.safe_context
      (Program.safe_guarded_call fun hvalid answer world' peer' hop ↦ ?_))
    obtain ⟨henv, rfl, hsite⟩ | ⟨rfl, hsite⟩ := of_step_index hop
    · obtain ⟨rfl, rfl⟩ := Prod.mk.inj hsite
      exact ⟨hvalid, Program.safe_guarded_done fun _ ↦ henv⟩
    · obtain ⟨rfl, rfl⟩ := Prod.mk.inj hsite
      have hindex' : (world.index.republish batch) = start.republish (committed ++ batch) := by
        rw [hindex, Index.republish_append]
      refine ⟨?_, Program.safe_of_later ?_⟩
      · rw [Underway]
        change Rotating dir key start (world.index.republish batch)
        rw [hindex']
        refine rotating_republish hkeyed fun record hrecord ↦ ?_
        rw [← hnext]
        exact List.mem_append_left _ hrecord
      · rintro s' rfl -
        exact Program.safe_guarded_done fun _ ↦ ih (committed ++ batch) hnext hindex'

/-- A rotation is under way wherever it stops, complete if it succeeds, and fails only if a
transaction does. -/
theorem safe_rotate (hkeyed : world.index.Keyed) :
    (rotate dir key).run.Safe (.guarded (Underway dir key world.index)) (fun _ ↦ step env) ()
      (fun result _ world' ↦ match result with
        | .ok n => n = world.index.count ∧ Rotated dir key world.index world'.index
        | .error _ => env = .hostile) peer world := by
  rw [rotate]
  refine Attempt.safe_bind (Attempt.safe_context
    (Program.safe_guarded_call fun hvalid answer world' peer' hop ↦ ?_))
  obtain ⟨henv, rfl, hsite⟩ | ⟨rfl, hsite⟩ := of_step_index hop
  · obtain ⟨rfl, rfl⟩ := Prod.mk.inj hsite
    exact ⟨hvalid, Program.safe_guarded_done fun _ ↦ henv⟩
  obtain ⟨rfl, rfl⟩ := Prod.mk.inj hsite
  refine ⟨hvalid, Program.safe_guarded_done fun _ ↦ ?_⟩
  have hall : [] ++ (chunks batch (signedRecords dir key world.index)).flatten
      = signedRecords dir key world.index := flatten_chunks (by decide) _
  refine Attempt.safe_bind ((safe_commits hkeyed _ [] hall rfl).imp ?_)
  rintro (error | ⟨⟩) peer'' world'' - hresult
  · exact hresult
  · refine Program.safe_guarded_done fun _ ↦ ⟨?_, hresult⟩
    rw [List.length_map]
    exact world.index.length_records

theorem rotating_refl (index : Index) : Rotating dir key index index :=
  ⟨rfl, fun _ _ _ hold hnew ↦ .inl (Option.some.inj (hnew.symm.trans hold)), rfl⟩

variable {site site' : Site}

theorem rotating_of_visits (hkeyed : site.1.index.Keyed)
    (h : (rotate dir key).run.Visits (step env) site site') :
    Rotating dir key site.1.index site'.1.index :=
  (safe_rotate hkeyed).visits (rotating_refl site.1.index) h

theorem rotated_of_runs (hkeyed : site.1.index.Keyed) {n : ℕ}
    (h : (rotate dir key).run.Runs (step env) site (.ok n) site') :
    n = site.1.index.count ∧ Rotated dir key site.1.index site'.1.index :=
  ((safe_rotate hkeyed).runs (rotating_refl site.1.index) h).2

theorem exists_runs_rotate (hkeyed : site.1.index.Keyed) : ∃ site',
    (rotate dir key).run.Runs (step env) site (.ok site.1.index.count) site' := by
  obtain ⟨result, site', hrun⟩ := exists_runs_fair (rotate dir key).run site
  have hresult := ((safe_rotate hkeyed).runs (rotating_refl site.1.index) hrun).2
  cases result with
  | error error =>
    have henv : Env.fair = .hostile := hresult
    exact absurd henv (by decide)
  | ok n =>
    rw [← hresult.1]
    exact ⟨site', runs_of_fair hrun⟩

end Program

/-! ## Rotations -/

/-- What holds of the rotations that begin at a site: they return the number of records and sign
every record anew; cut off, they have signed some of them; run again from there, they end in the
index of one that was not cut off; and run once more, they change nothing. -/
structure Rotates (dir : Dir) (key : SecretKey) (env : Env) (site : Site) : Prop where
  complete : ∀ n site', (rotate dir key).run.Runs (step env) site (.ok n) site' →
    n = site.1.index.count ∧ Rotated dir key site.1.index site'.1.index
  cut : ∀ site', (rotate dir key).run.Visits (step env) site site' →
    Rotating dir key site.1.index site'.1.index
  again : ∀ site' n site'' m whole, (rotate dir key).run.Visits (step env) site site' →
    (rotate dir key).run.Runs (step env) site' (.ok n) site'' →
    (rotate dir key).run.Runs (step env) site (.ok m) whole →
      n = m ∧ site''.1.index = whole.1.index
  twice : ∀ n site' m site'', (rotate dir key).run.Runs (step env) site (.ok n) site' →
    (rotate dir key).run.Runs (step env) site' (.ok m) site'' → site''.1.index = site'.1.index
  succeeds : ∃ site', (rotate dir key).run.Runs (step env) site (.ok site.1.index.count) site'

/-- Rotations are complete, exact and can be started over, whatever the index holds. -/
theorem rotates (history : List IndexOp) (dir : Dir) (key : SecretKey) (env : Env) (world : World)
    (peer : Peer) : Rotates dir key env ({ world with index := .after history }, peer) := by
  have hkeyed := Index.keyed_after history
  -- from wherever a rotation stops, another one ends where the whole one does
  have hagain : ∀ site' n site'',
      (rotate dir key).run.Visits (step env) ({ world with index := .after history }, peer) site' →
      (rotate dir key).run.Runs (step env) site' (.ok n) site'' →
      n = (Index.after history).count ∧ Rotated dir key (.after history) site''.1.index := by
    intro site' n site'' hvisit hrun
    have hrotating := rotating_of_visits hkeyed hvisit
    obtain ⟨hcount, hrotated⟩ := rotated_of_runs (hrotating.keyed hkeyed) hrun
    exact ⟨hcount.trans hrotating.count, hrotating.rotated hrotated⟩
  refine ⟨fun n site' hrun ↦ rotated_of_runs hkeyed hrun, fun site' ↦ rotating_of_visits hkeyed,
    fun site' n site'' m whole hvisit hrun hwhole ↦ ?_, fun n site' m site'' hrun hrun' ↦ ?_,
    exists_runs_rotate hkeyed⟩
  · obtain ⟨hcount, hrotated⟩ := hagain site' n site'' hvisit hrun
    obtain ⟨hcount', hrotated'⟩ := rotated_of_runs hkeyed hwhole
    exact ⟨hcount.trans hcount'.symm, hrotated.unique hrotated'⟩
  · exact (hagain site' m site'' hrun.visits hrun').2.unique (rotated_of_runs hkeyed hrun).2

end Maintain

end Bincache
