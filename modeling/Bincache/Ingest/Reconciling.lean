import Bincache.Ingest.Maintain
import Bincache.Ingest.Publishing
import Bincache.Serve.Answers
import Bincache.Specimen

/-!
# What a reconciliation reports

A scan walks the two levels of the payload tree and files what it finds by name: under its URL if
the name parses, and as unrecognized if it does not. Reading and serving go the other way and build
the path from the URL. `urlOf` is what a scan takes a file for, and the tree is `Placed` where the
two agree on every file. There a reconciliation tells the truth; and a file that is taken for an
artifact it is not, because it is in another shard or its digest is spelled otherwise, is filed
under the artifact's name and hides that the artifact is missing.
-/

namespace Bincache

namespace Store

open Attempt

variable {env : Env} {world : World} {peer : Peer}

/-- A file of the payload tree. -/
def InTree (fs : FileSystem) (path : FilePath) : Prop :=
  ∃ shard name, path = [artifacts, shard, name] ∧ path ∈ fs.links

/-- `nar/` holds directories, and these hold files. -/
structure Payload (fs : FileSystem) : Prop where
  root : [artifacts] ∈ fs.dirs
  shards : ∀ shard, [artifacts, shard] ∉ fs.links
  files : ∀ shard name, [artifacts, shard, name] ∉ fs.dirs
  parents : ∀ shard name, [artifacts, shard, name] ∈ fs.links → [artifacts, shard] ∈ fs.dirs

/-! ## The walk -/

theorem ends_entries (path : FilePath) : Ends env (entries path).run (fun result peer' world' ↦
    world' = world ∧ peer' = peer ∧ match result with
      | .ok paths => paths.Nodup
        ∧ ∀ found, found ∈ paths ↔ ∃ name ∈ world.fs.children path, found = path ++ [name]
      | .error _ => env = .hostile ∨ path ∉ world.fs.dirs) (world, peer) := by
  refine safe_bind (safe_context (ends_call fun answer site' hop ↦ ends_done ?_))
  obtain ⟨rfl, ⟨⟨error, rfl⟩, hreason⟩ | ⟨names, rfl, hnodup, hnames⟩⟩ := of_step_readDir hop
  · exact ⟨rfl, rfl, hreason⟩
  · refine ends_done ⟨rfl, rfl, hnodup.map fun a b h ↦ ?_, fun found ↦ ?_⟩
    · exact (List.cons.inj (List.append_cancel_left h)).1
    · simp only [← hnames, List.mem_toFinset, List.mem_map, eq_comm]

/-- What a walk through some directories finds, each file once. -/
structure Walks (fs : FileSystem) (shards paths : List FilePath) : Prop where
  nodup : paths.Nodup
  mem : ∀ path, path ∈ paths ↔ ∃ shard ∈ shards, ∃ name ∈ fs.children shard, path = shard ++ [name]

theorem Walks.cons {fs : FileSystem} {shard : FilePath} {shards files paths : List FilePath}
    (hnew : shard ∉ shards) (hfiles : files.Nodup)
    (hmem : ∀ path, path ∈ files ↔ ∃ name ∈ fs.children shard, path = shard ++ [name])
    (h : Walks fs shards paths) : Walks fs (shard :: shards) (files ++ paths) := by
  refine ⟨List.nodup_append.mpr ⟨hfiles, h.nodup, fun a ha b hb hab ↦ ?_⟩, fun path ↦ ?_⟩
  · subst hab
    obtain ⟨name, -, rfl⟩ := (hmem a).mp ha
    obtain ⟨other, hother, name', -, heq⟩ := (h.mem _).mp hb
    -- files of different directories differ
    obtain ⟨rfl, -⟩ := List.append_inj' heq rfl
    exact hnew hother
  · rw [List.mem_append, hmem, h.mem]
    simp

variable [Crates]

theorem ends_walk (shards : List FilePath) (hnodup : shards.Nodup)
    (hdirs : ∀ shard ∈ shards, shard ∈ world.fs.dirs) (scan : Scan) :
    Ends env (shards.foldlM (fun scan shard ↦ do
        let files ← entries shard
        pure (files.foldl Scan.add scan) : Scan → FilePath → Call Error Scan) scan).run
      (fun result peer' world' ↦ world' = world ∧ peer' = peer ∧ match result with
        | .ok scan' => ∃ paths, Walks world.fs shards paths ∧ scan' = paths.foldl Scan.add scan
        | .error _ => env = .hostile) (world, peer) := by
  induction shards generalizing scan with
  | nil => exact ends_done ⟨rfl, rfl, [], ⟨List.nodup_nil, fun path ↦ by simp⟩, rfl⟩
  | cons shard shards ih =>
    obtain ⟨hshard, hrest⟩ := List.forall_mem_cons.mp hdirs
    obtain ⟨hnew, hnodup⟩ := List.nodup_cons.mp hnodup
    rw [List.foldlM_cons]
    refine safe_bind (safe_bind ((ends_entries shard).imp ?_))
    rintro (error | files) peer₁ world₁ - ⟨rfl, rfl, hfiles⟩
    · exact ⟨rfl, rfl, hfiles.resolve_right (not_not_intro hshard)⟩
    · refine ends_done ((ih hnodup hrest _).imp ?_)
      rintro (error | scan') peer₂ world₂ - ⟨rfl, rfl, hresult⟩
      · exact ⟨rfl, rfl, hresult⟩
      · obtain ⟨paths, hwalks, rfl⟩ := hresult
        refine ⟨rfl, rfl, files ++ paths, hwalks.cons hnew hfiles.1 hfiles.2, ?_⟩
        rw [List.foldl_append]

/-- What a scan takes a file for. -/
def urlOf (path : FilePath) : Option NarUrl :=
  match (path.getLast?.bind Text.fromUtf8).map NarUrl.parse with
  | some (.ok url) => some url
  | _ => none

theorem foldl_add (paths : List FilePath) (scan : Scan) : paths.foldl Scan.add scan
    = ⟨scan.artifacts ++ paths.filterMap urlOf,
      scan.unrecognized ++ paths.filter (urlOf · = none)⟩ := by
  induction paths generalizing scan with
  | nil => simp
  | cons path paths ih =>
    have hadd : scan.add path = match urlOf path with
        | some url => { scan with artifacts := scan.artifacts ++ [url] }
        | none => { scan with unrecognized := scan.unrecognized ++ [path] } := by
      rw [Scan.add, urlOf]
      rcases (path.getLast?.bind Text.fromUtf8).map NarUrl.parse with _ | error | url
      · rfl
      · rfl
      · rfl
    rw [List.foldl_cons, ih, hadd]
    cases hurl : urlOf path with
    | none =>
      rw [List.filterMap_cons_none hurl, List.filter_cons_of_pos (by simpa using hurl),
        List.append_assoc, List.singleton_append]
    | some url =>
      rw [List.filterMap_cons_some hurl, List.filter_cons_of_neg (by simp [hurl]),
        List.append_assoc, List.singleton_append]

/-- A scan files every file of the payload tree once. -/
theorem ends_scan (h : Payload world.fs) : Ends env Store.scan.run (fun result peer' world' ↦
    world' = world ∧ peer' = peer ∧ match result with
      | .ok scan => ∃ paths : List FilePath, paths.Nodup
        ∧ (∀ path, path ∈ paths ↔ InTree world.fs path)
        ∧ scan = ⟨paths.filterMap urlOf, paths.filter (urlOf · = none)⟩
      | .error _ => env = .hostile) (world, peer) := by
  refine safe_bind ((ends_entries [artifacts]).imp ?_)
  rintro (error | shards) peer₁ world₁ - ⟨rfl, rfl, hshards⟩
  · exact ⟨rfl, rfl, hshards.resolve_right (not_not_intro h.root)⟩
  have hdirs : ∀ shard ∈ shards, ∃ name, shard = [artifacts, name] ∧ shard ∈ world₁.fs.dirs := by
    intro shard hshard
    obtain ⟨name, hname, rfl⟩ := (hshards.2 shard).mp hshard
    exact ⟨name, rfl, (FileSystem.mem_children.mp hname).resolve_right (h.shards name)⟩
  refine (ends_walk shards hshards.1
    (fun shard hshard ↦ (hdirs shard hshard).choose_spec.2) {}).imp ?_
  rintro (error | scan) peer₂ world₂ - ⟨rfl, rfl, hresult⟩
  · exact ⟨rfl, rfl, hresult⟩
  obtain ⟨paths, hwalks, rfl⟩ := hresult
  refine ⟨rfl, rfl, paths, hwalks.nodup, fun path ↦ ?_, by rw [foldl_add]; rfl⟩
  rw [hwalks.mem]
  constructor
  · rintro ⟨shard, hshard, name, hname, rfl⟩
    obtain ⟨shard, rfl, -⟩ := hdirs shard hshard
    exact ⟨shard, name, rfl, (FileSystem.mem_children.mp hname).resolve_left (h.files shard name)⟩
  · rintro ⟨shard, name, rfl, hlink⟩
    refine ⟨[artifacts, shard], (hshards.2 _).mpr ⟨shard, ?_, rfl⟩, name, ?_, rfl⟩
    · exact FileSystem.mem_children.mpr (.inl (h.parents shard name hlink))
    · exact FileSystem.mem_children.mpr (.inr hlink)

theorem urlOf_path (url : NarUrl) : urlOf (path url) = some url := by
  have hlast : (path url).getLast?.bind Text.fromUtf8 = some url.name :=
    (Option.bind_some ..).trans (Text.fromUtf8_utf8 url.name)
  rw [urlOf, hlast, Option.map_some, NarUrl.parse_name]

/-- Every file that is taken for an artifact is where that artifact is looked for. -/
def Placed (fs : FileSystem) : Prop :=
  ∀ path url, InTree fs path → urlOf path = some url → Store.path url = path

omit [Crates] in
theorem inTree_path {fs : FileSystem} {url : NarUrl} :
    InTree fs (path url) ↔ (fs.lookup (path url)).isSome := by
  rw [FileSystem.lookup, Option.isSome_map, Finmap.lookup_isSome]
  constructor
  · rintro ⟨shard, name, -, hlink⟩
    exact hlink
  · exact fun hlink ↦ ⟨_, _, rfl, hlink⟩

/-- What a scan of a tree reports where every file is placed: as an artifact each that is looked for
where it is, and the rest as it is. -/
theorem mem_artifacts {fs : FileSystem} {paths : List FilePath}
    (hpaths : ∀ path, path ∈ paths ↔ InTree fs path) (hplaced : Placed fs) (url : NarUrl) :
    url ∈ paths.filterMap urlOf ↔ (fs.lookup (path url)).isSome := by
  rw [← inTree_path, List.mem_filterMap]
  constructor
  · rintro ⟨found, hfound, hurl⟩
    rw [hpaths] at hfound
    rwa [hplaced found url hfound hurl]
  · exact fun hholds ↦ ⟨path url, (hpaths _).mpr hholds, urlOf_path url⟩

theorem map_path_artifacts {fs : FileSystem} {paths : List FilePath}
    (hpaths : ∀ path ∈ paths, InTree fs path) (hplaced : Placed fs) :
    (paths.filterMap urlOf).map path = paths.filter (urlOf · ≠ none) := by
  induction paths with
  | nil => rfl
  | cons found paths ih =>
    obtain ⟨hfound, hrest⟩ := List.forall_mem_cons.mp hpaths
    cases hurl : urlOf found with
    | none =>
      rw [List.filterMap_cons_none hurl, List.filter_cons_of_neg (by simp [hurl]), ih hrest]
    | some url =>
      rw [List.filterMap_cons_some hurl, List.filter_cons_of_pos (by simp [hurl]), List.map_cons,
        hplaced found url hfound hurl, ih hrest]

end Store

/-! ## The report -/

namespace Maintain

open Attempt
open Store (InTree Placed urlOf)

variable [Crates] {world : World} {peer : Peer}

def Absent (world : World) (url : NarUrl) : Prop := world.fs.lookup (Store.path url) = none

instance (url : NarUrl) : Decidable (Absent world url) :=
  inferInstanceAs (Decidable (_ = none))

/-- A report that is right in both directions, and names every file that is no artifact. -/
structure Truthful (world : World) (found : Reconciliation) : Prop where
  missing : found.recordsWithoutArtifacts
    = (world.index.records.filter fun record ↦ Absent world record.nar).map NarInfo.storePath
  orphans : found.orphanArtifacts.Nodup ∧ ∀ url, url ∈ found.orphanArtifacts
    ↔ ¬Absent world url ∧ ∀ record ∈ world.index.records, record.nar ≠ url
  unrecognized : found.unrecognizedFiles.Nodup ∧ ∀ path, path ∈ found.unrecognizedFiles
    ↔ InTree world.fs path ∧ ∀ url, Store.path url ≠ path

/-- Where nothing fails, a reconciliation tells the truth, absent is what cannot be read, and the
scan it rests on accounts for every file of the tree once: as an artifact at its path or as
unrecognized. -/
structure Reconciles (world : World) (peer : Peer) : Prop where
  reports : ∀ result site', reconcile.run.Runs (step .fair) (world, peer) result site' →
    ∃ found, result = .ok found ∧ Truthful world found
  absent : ∀ url result site', (Store.read url).run.Runs (step .fair) (world, peer) result site' →
    (result = .ok none ↔ Absent world url)
  accounts : ∀ result site', Store.scan.run.Runs (step .fair) (world, peer) result site' →
    ∃ scan, result = .ok scan ∧ (scan.artifacts.map Store.path ++ scan.unrecognized).Nodup
      ∧ ∀ path, path ∈ scan.artifacts.map Store.path ++ scan.unrecognized ↔ InTree world.fs path

/-- A reconciliation compares what a scan filed with the records. -/
theorem ends_reconcile (h : Store.Payload world.fs) :
    Ends .fair reconcile.run (fun result _ _ ↦ ∃ paths : List FilePath, paths.Nodup
      ∧ (∀ path, path ∈ paths ↔ InTree world.fs path)
      ∧ result = .ok (compare ⟨paths.filterMap urlOf, paths.filter (urlOf · = none)⟩
        world.index.records)) (world, peer) := by
  refine safe_bind (safe_context ((Store.ends_scan h).imp ?_))
  rintro (error | scan) peer₁ world₁ - ⟨rfl, rfl, hscan⟩
  · cases hscan
  obtain ⟨paths, hnodup, hpaths, rfl⟩ := hscan
  refine safe_bind (safe_context ((ends_indexCall .records (world₁, peer₁)).imp ?_))
  rintro (error | records) peer₂ world₂ - ⟨rfl, hrecords⟩
  · cases hrecords.2
  obtain ⟨rfl, -⟩ := hrecords
  exact ends_done ⟨paths, hnodup, hpaths, rfl⟩

theorem truthful_of_placed {paths : List FilePath} (hnodup : paths.Nodup)
    (hpaths : ∀ path, path ∈ paths ↔ InTree world.fs path) (hplaced : Placed world.fs) :
    Truthful world (compare ⟨paths.filterMap urlOf, paths.filter (urlOf · = none)⟩
      world.index.records) := by
  have hartifacts := Store.mem_artifacts hpaths hplaced
  have hpresent : ∀ url, url ∈ paths.filterMap urlOf ↔ ¬Absent world url := fun url ↦
    (hartifacts url).trans Option.isSome_iff_ne_none
  have hname : ∀ (url : NarUrl) (urls : List NarUrl), url.name ∈ urls.map NarUrl.name
    ↔ url ∈ urls :=
    fun url urls ↦ List.mem_map_of_injective NarUrl.name_injective
  have hrecords : world.index.records.map (fun record ↦ record.nar.name)
      = (world.index.records.map NarInfo.nar).map NarUrl.name := by
    rw [List.map_map]
    rfl
  refine ⟨?_, ⟨?_, fun url ↦ ?_⟩, hnodup.filter _, fun path ↦ ?_⟩
  · refine congrArg (List.map NarInfo.storePath) (List.filter_congr fun record _ ↦ ?_)
    rw [decide_eq_decide, hname, hpresent, not_not]
  · -- one file lies at each path, so no artifact is listed twice
    have hmap := Store.map_path_artifacts (fun path hpath ↦ (hpaths path).mp hpath) hplaced
    refine List.Nodup.filter _ (List.Nodup.of_map Store.path ?_)
    rw [hmap]
    exact hnodup.filter _
  · change url ∈ List.filter _ _ ↔ _
    rw [List.mem_filter, hpresent, decide_eq_true_iff, hrecords, hname, List.mem_map]
    refine and_congr_right fun _ ↦ ⟨fun hnone record hrecord heq ↦ hnone ⟨record, hrecord, heq⟩, ?_⟩
    rintro hnone ⟨record, hrecord, heq⟩
    exact hnone record hrecord heq
  · change path ∈ List.filter _ _ ↔ _
    rw [List.mem_filter, hpaths, decide_eq_true_iff]
    refine and_congr_right fun hholds ↦ ⟨fun hnone url heq ↦ ?_, fun hnone ↦ ?_⟩
    · rw [← heq, Store.urlOf_path] at hnone
      cases hnone
    · rw [Option.eq_none_iff_forall_ne_some]
      exact fun url hurl ↦ hnone url (hplaced path url hholds hurl)

/-- A file that is taken for an artifact elsewhere is neither at that artifact's path nor
unrecognized. -/
theorem placed_of_reconciles (h : Store.Payload world.fs) (htruth : Reconciles world peer) :
    Placed world.fs := by
  intro path url hholds hurl
  obtain ⟨result, site', hrun⟩ := exists_runs_fair (reconcile.run) (world, peer)
  obtain ⟨found, rfl, htruthful⟩ := htruth.reports result site' hrun
  obtain ⟨paths, -, -, hfound⟩ := (ends_reconcile h).runs hrun
  by_contra hmisplaced
  -- the file is at no URL's path, so it has to be unrecognized, but its name parses
  have hmem : path ∈ found.unrecognizedFiles := by
    refine (htruthful.unrecognized.2 path).mpr ⟨hholds, fun other hother ↦ ?_⟩
    rw [← hother, Store.urlOf_path] at hurl
    obtain rfl := Option.some.inj hurl
    exact hmisplaced hother
  rw [Except.ok.inj hfound] at hmem
  have hnone := of_decide_eq_true (List.mem_filter.mp hmem).2
  exact absurd (hnone.symm.trans hurl) (by simp)

/-- A reconciliation tells the truth of a payload tree and an index exactly if every file that is
taken for an artifact is where that artifact is looked for. -/
theorem reconciles_iff (h : Store.Payload world.fs) : Reconciles world peer ↔ Placed world.fs := by
  refine ⟨placed_of_reconciles h, fun hplaced ↦ ?_⟩
  refine ⟨fun result site' hrun ↦ ?_, fun url result site' hrun ↦ ?_, fun result site' hrun ↦ ?_⟩
  · obtain ⟨paths, hnodup, hpaths, rfl⟩ := (ends_reconcile h).runs hrun
    exact ⟨_, rfl, truthful_of_placed hnodup hpaths hplaced⟩
  · have hread : Ends .fair _ _ _ := Cache.ends_read (world, peer) url
    obtain ⟨-, -, hresult⟩ := hread.runs hrun
    rcases result with error | _ | reader
    · cases hresult
    · exact iff_of_true rfl hresult
    · refine iff_of_false (by simp) fun habsent ↦ ?_
      rw [Absent, hresult.1] at habsent
      cases habsent
  · obtain ⟨-, -, hresult⟩ := (Store.ends_scan h).runs hrun
    rcases result with error | scan
    · cases hresult
    obtain ⟨paths, hnodup, hpaths, rfl⟩ := hresult
    have hmap := Store.map_path_artifacts (fun path hpath ↦ (hpaths path).mp hpath) hplaced
    -- every file is either where its own name says, or has no name of an artifact
    have hperm : (List.map Store.path (paths.filterMap urlOf)
        ++ paths.filter (urlOf · = none)).Perm paths := by
      rw [hmap]
      refine (List.perm_append_comm).trans ?_
      have := List.filter_append_perm (fun path ↦ decide (urlOf path = none)) paths
      simpa using this
    refine ⟨_, rfl, hperm.nodup_iff.mpr hnodup, fun path ↦ ?_⟩
    exact hperm.mem_iff.trans (hpaths path)

end Maintain

/-! ## A tree with one file -/

namespace Store

/-- A payload tree with one empty file. -/
def single (shard name : Bytes) : FileSystem :=
  ((FileSystem.empty.createDirAll [artifacts, shard]).create [artifacts, shard, name]).1

theorem inTree_single {shard name : Bytes} {path : FilePath} :
    InTree (single shard name) path ↔ path = [artifacts, shard, name] := by
  have hmem : path ∈ (single shard name).links ↔ path = [artifacts, shard, name] := by
    change path ∈ Finmap.insert _ _ (∅ : Table FilePath ℕ) ↔ _
    rw [Finmap.mem_insert]
    exact or_iff_left (Finmap.notMem_empty)
  rw [InTree, hmem]
  constructor
  · rintro ⟨_, _, -, heq⟩
    exact heq
  · exact fun heq ↦ ⟨shard, name, heq, heq⟩

theorem payload_single (shard name : Bytes) : Payload (single shard name) := by
  have hdirs : (single shard name).dirs = [artifacts, shard].inits.toFinset := by
    rw [single, FileSystem.dirs_create]
    exact Finset.empty_union _
  have hlinks : ∀ path, path ∈ (single shard name).links → path = [artifacts, shard, name] := by
    intro path hlink
    change path ∈ Finmap.insert _ _ (∅ : Table FilePath ℕ) at hlink
    exact (Finmap.mem_insert.mp hlink).resolve_right Finmap.notMem_empty
  refine ⟨?_, fun other hlink ↦ ?_, fun other file hdir ↦ ?_, fun other file hlink ↦ ?_⟩
  · rw [hdirs]
    simp
  · simpa using congrArg List.length (hlinks _ hlink)
  · rw [hdirs] at hdir
    simp at hdir
  · rw [hdirs]
    obtain ⟨rfl, -⟩ := List.cons.inj (List.cons.inj (hlinks _ hlink)).2
    simp

end Store

namespace Maintain

open Specimen

/-- The specimen is published, and a shard holds one file, under the name of its artifact. -/
def shelved (shard : Text) : World :=
  world (uploaded.publish (ingest.record declared entry))
    (Store.single (Text.utf8 shard) (Text.utf8 entry.url.name))

theorem reconciles_shelved : Store.Payload (shelved ['0', 'a']).fs
    ∧ Reconciles (shelved ['0', 'a']) ⟨[], []⟩ := by
  have hpath : Store.path entry.url
      = [Store.artifacts, Text.utf8 ['0', 'a'], Text.utf8 entry.url.name] := by decide +kernel
  have hpayload : Store.Payload (shelved ['0', 'a']).fs := Store.payload_single _ _
  refine ⟨hpayload, (reconciles_iff hpayload).mpr fun path url hholds hurl ↦ ?_⟩
  rw [Store.inTree_single.mp hholds, ← hpath, Store.urlOf_path] at hurl
  rw [Store.inTree_single.mp hholds, ← hpath, Option.some.inj hurl]

/-- In a shard that is not its own the file is not served, and hides that the artifact is
missing. -/
theorem not_reconciles_shelved : Store.Payload (shelved ['z', 'z']).fs
    ∧ ¬Reconciles (shelved ['z', 'z']) ⟨[], []⟩ := by
  have hpath : Store.path entry.url
      ≠ [Store.artifacts, Text.utf8 ['z', 'z'], Text.utf8 entry.url.name] := by decide +kernel
  have hpayload : Store.Payload (shelved ['z', 'z']).fs := Store.payload_single _ _
  refine ⟨hpayload, fun htruth ↦ hpath ?_⟩
  refine placed_of_reconciles hpayload htruth _ _ (Store.inTree_single.mpr rfl) ?_
  -- only the name counts for what a file is taken for
  exact Store.urlOf_path entry.url

end Maintain

end Bincache
