import Bincache.Provenance
import Bincache.Serve.Landing
import Bincache.SharedPush
import Bincache.Siblings

/-!
# Pushes converge

Where pushes end does not depend on the way there. `Confluent` is about pushes that run at once:
each interleaving ends where any serial order does. `Converges` is about one push that is cut off
and made again: the retry ends where the uninterrupted push does, and from then on it changes
nothing.

## The construction

Both come from one reading of a cache in which pushes are underway: a pool of them over the plain
state, with nobody else. `Pool.Steps.simulate` follows it on the state with a ledger, where whatever
is already staged belongs to a participant of its own, who does nothing (`attributed`). A push that
runs alone and is cut off somewhere is a pool of one whose steps stop there, so that being cut off
needs no argument of its own.

## The invariant

What a push writes is known before it starts: `writesOf` says which rows and which artifacts, given
what comes of its chunks. `Underway` is what holds at every moment: tables and payload tree have
come nearer to having all of this, from where they started (`Approaches`), and a push that ended
well has landed. Two states that have it all are the same cache (`unique_of_landed`).

What the results quantify over, any state of any life with a server running, enters only as
`Orderly`, and as `Vacant` where the server rests.
-/

namespace Bincache

/-! ## Directories stay -/

/-- No operation takes a directory away. -/
theorem dirs_of_step {env : Env} {op : Op} {world : World} {peer : Peer} {site : Site}
    {answer : Ans op} (h : step env op (world, peer) answer site) :
    world.fs.dirs ⊆ site.1.fs.dirs := by
  by_cases hquiet : op.Quiet
  · obtain ⟨stats, hsteady⟩ := steady_of_quiet hquiet h
    rw [hsteady]
  cases op with
  | index op =>
    obtain ⟨-, -, rfl⟩ | ⟨-, rfl⟩ := of_step_index h
    · exact Finset.Subset.refl _
    · exact Finset.Subset.refl _
  | nextOrdinal =>
    obtain ⟨-, rfl⟩ := of_step_nextOrdinal h
    exact Finset.Subset.refl _
  | file op =>
    cases op with
    | createDirAll path =>
      obtain ⟨-, -, rfl⟩ | ⟨-, rfl⟩ := of_step_createDirAll h
      · exact Finset.Subset.refl _
      · exact Finset.subset_union_left
    | create path =>
      obtain ⟨-, rfl, -⟩ | ⟨-, rfl⟩ := of_step_create h
      · exact Finset.Subset.refl _
      · rw [FileSystem.dirs_create]
    | writeAt inode offset bytes =>
      obtain ⟨-, -, count, rfl⟩ | ⟨-, rfl⟩ := of_step_writeAt h
      · exact Finset.Subset.refl _
      · exact Finset.Subset.refl _
    | rename path target =>
      obtain ⟨-, rfl, -⟩ | ⟨-, fs, hrename, rfl⟩ := of_step_rename h
      · exact Finset.Subset.refl _
      · exact (FileSystem.dirs_rename hrename).symm ▸ Finset.Subset.refl _
    | remove path =>
      obtain ⟨-, rfl, -⟩ | ⟨-, rfl⟩ := of_step_remove h
      · exact Finset.Subset.refl _
      · exact Finset.Subset.refl _
    | _ => exact absurd trivial hquiet
  | _ => exact absurd trivial hquiet

theorem dirs_of_visits {α : Type} {env : Env} {program : Program Ans α} {site site' : Site}
    (h : program.Visits (step env) site site') : site.1.fs.dirs ⊆ site'.1.fs.dirs := by
  let inv (later : Site) : Prop := site.1.fs.dirs ⊆ later.1.fs.dirs
  have hstart : inv site := Finset.Subset.refl _
  have hfinal : inv site' := by
    refine program.uses_any.visits (fun op later answer later' _ hlater hop ↦ ?_) hstart h
    exact hlater.trans (dirs_of_step hop)
  exact hfinal

theorem dirs_of_boot {env : Env} {site site' : Site}
    (h : Boot.serve.run.Runs (step env) site (.ok ()) site') :
    [Store.staging] ∈ site'.1.fs.dirs := by
  -- a directory is there once it was made without an error
  have hmake : ∀ path site, Ends env
      ((fileCall (.createDirAll path)).context (Store.Error.createDir path)).run
      (fun result _ world ↦ result = .ok () → path ∈ world.fs.dirs) site := by
    intro path site
    refine Attempt.safe_context (ends_call fun answer site' hop ↦ ends_done ?_)
    obtain ⟨-, rfl, -⟩ | ⟨-, rfl⟩ := of_step_createDirAll hop
    · exact fun heq ↦ absurd heq (by rintro ⟨⟩)
    · exact fun _ ↦ Finset.mem_union_right _ (by simp)
  have hopen : Ends env Boot.open.run (fun result _ world ↦
      result = .ok () → [Store.staging] ∈ world.fs.dirs) site := by
    refine Attempt.safe_context (Attempt.safe_bind ((hmake [] site).imp ?_))
    rintro (error | ⟨⟩) peer world - -
    · exact fun heq ↦ absurd heq (by rintro ⟨⟩)
    refine Attempt.safe_bind ((hmake [Store.artifacts] (world, peer)).imp ?_)
    rintro (error | ⟨⟩) peer world - -
    · exact fun heq ↦ absurd heq (by rintro ⟨⟩)
    refine Attempt.safe_bind ((hmake [Store.staging] (world, peer)).imp ?_)
    rintro (error | ⟨⟩) peer world - hdir
    · exact fun heq ↦ absurd heq (by rintro ⟨⟩)
    · exact ends_done fun _ ↦ hdir rfl
  have hends : Ends env Boot.serve.run (fun result _ world ↦
      result = .ok () → [Store.staging] ∈ world.fs.dirs) site := by
    refine Attempt.safe_bind (hopen.imp ?_)
    rintro (error | ⟨⟩) peer world - hdir
    · exact fun heq ↦ absurd heq (by rintro ⟨⟩)
    · refine @ends_of_runs _ env _ _ (world, peer) fun result site' hrun _ ↦ ?_
      exact dirs_of_visits hrun.visits (hdir rfl)
  exact hends.runs h rfl

/-! ## Worlds in which a push can start -/

/-- What of a world outlives a push. -/
def World.view (world : World) : View :=
  ⟨world.index.narinfo, world.index.nar, Shared.tree world.fs, fun _ ↦ none⟩

/-- The staging directory is there, and what is staged was named by this process. -/
structure Orderly (world : World) : Prop where
  dirs : [Store.staging] ∈ world.fs.dirs
  drawn : ∀ path inode, world.fs.links.lookup path = some inode →
    path.head? = some Store.staging → ∃ n < world.sequence, path = Store.stagedPath world.pid n

/-- What is staged is what was. -/
def SameStaging (world world' : World) : Prop := ∀ path, path.head? = some Store.staging →
  world'.fs.links.lookup path = world.fs.links.lookup path

/-- Nothing is staged. -/
def Vacant (world : World) : Prop := ∀ path inode, world.fs.links.lookup path = some inode →
  path.head? ≠ some Store.staging

/-- No connection is being served. -/
def Server.Rests {ι : Type} (server : Server ι) : Prop :=
  ∀ i, ∃ peer result, server.threads i = (peer, .done result)

theorem SameStaging.vacant {world world' : World} (h : SameStaging world world')
    (hvacant : Vacant world) : Vacant world' := by
  intro path inode hlink hpath
  rw [h path hpath] at hlink
  exact hvacant path inode hlink hpath

namespace Shared

variable {ι : Type} {env : Env} {contents : Set Bytes} {key : SecretKey} {i : ι} {s s' : Shared ι}
  {p p' : Peer}

/-- The directories are made, and they stay. -/
def rooted : Protocol ι (Shared ι) where
  valid s := [Store.staging] ∈ s.1.fs.dirs
  rely _ _ _ := True
  rely_refl _ _ := trivial
  rely_trans _ _ := trivial

theorem keeps_rooted [Crates] {dir : Dir} : (machine contents : Machine ι (Shared ι)).Keeps dir
    rooted (fun _ ↦ True) where
  boots := by
    intro cache pid i s p s' p' _ _ hrun
    let world (site : Shared ι × Peer) : Site := (site.1.1, site.2)
    have hplain : Boot.serve.run.Runs (Bincache.step .hostile) (world (restart pid s, p)) (.ok ())
        (world (s', p')) := hrun.map fun _ _ _ _ hop ↦ hop.1
    exact dirs_of_boot hplain
  serves := by
    intro cache shard turns i p s _
    refine ((cache.session shard turns {}).run.uses_any.safe ?_).imp fun _ _ _ _ _ ↦ trivial
    intro op s p answer s' p' _ hvalid hop
    exact ⟨dirs_of_step hop.1 hvalid, fun _ _ ↦ trivial⟩
  dies := fun _ ↦ trivial
  commands := fun _ _ ↦ trivial

theorem view_of_boot {result : Except Boot.Error Unit}
    (h : Boot.serve.run.Runs (step env contents key i) (s, p) result (s', p')) :
    s'.view = s.view := by
  let inv (site : Shared ι × Peer) : Prop := site.1.view = s.view
  have hstart : inv (s, p) := rfl
  have hfinal : inv (s', p') := by
    refine starting_serve.runs (fun op t answer t' hstarting ht hop ↦ ?_) hstart h
    obtain ⟨-, hview | ⟨k, rfl, -⟩⟩ := view_of_upkeep hstarting.upkeep hop
    · exact hview.trans ht
    · exact hstarting.elim
  exact hfinal

theorem orderly_of_steps [Crates] [DecidableEq ι] {dir : Dir} {server : Server ι}
    (hsteps : System.Steps (machine contents) dir ⟨(blank : Shared ι), none⟩ ⟨s, some server⟩) :
    Orderly s.1 := by
  have hstart : (machine contents).Kept dir rooted (fun _ ↦ True)
      (⟨blank, none⟩ : System ι (Shared ι)) := trivial
  obtain ⟨-, hrooted⟩ := keeps_rooted.steps hstart hsteps
  have hstaging : Staging s := staging_of_steps hsteps
  refine ⟨hrooted.valid, fun path inode hlink hpath ↦ ?_⟩
  obtain ⟨n, hn, howner⟩ := hstaging.drawn path inode hlink hpath
  exact ⟨n, hstaging.fresh n howner, hn⟩

/-! ### At rest -/

/-- The cache, in runs in which no operation fails. -/
def calm (contents : Set Bytes) : Machine ι (Shared ι) where
  perform key i := step .fair contents key i
  restart := restart

/-- The connections of a server clear up before they end. -/
def Neat [Crates] (contents : Set Bytes) (system : System ι (Shared ι)) : Prop :=
  match system.server with
  | none => Shelved contents system.shared
  | some server => Pool.Ok (protocol (provenance contents))
    (step .fair contents server.cache.ingest.key) (fun i _ _ s ↦ Tidy .fair i ∅ s)
    ⟨system.shared, server.threads⟩

theorem Neat.step [Crates] [DecidableEq ι] {dir : Dir} {system system' : System ι (Shared ι)}
    (h : Neat contents system) (hstep : System.Step (calm contents) dir system system') :
    Neat contents system' := by
  cases hstep with
  | @boot s s' peer peer' cache pid i hdir hrun =>
    have hshelved : Shelved contents s' := shelved_of_visits
      (upkeep_serve.imp fun _ ↦ Op.Upkeep.settled) (Shelved.restart h pid) hrun.visits
    -- nobody has drawn an ordinal, so nobody has anything to clear up
    refine ⟨⟨staging_of_boot h.2 hrun, hshelved.1⟩, fun j t hrely _ _ n hn _ ↦ ?_⟩
    have hdrawn : s'.2.owner n = some j := (hrely.1.owner n).mp hn
    exact absurd ((owner_of_boot hrun n).symm.trans hdrawn) (by simp)
  | @accept s server peer result i peer' shard turns hdone =>
    refine ⟨h.valid, fun j ↦ ?_⟩
    by_cases hj : j = i
    · subst hj
      dsimp only
      rw [Function.update_self]
      exact upholds_session (permits_provenance j _) shard turns _ (h.post_of_done hdone)
    · dsimp only
      rw [Function.update_of_ne hj]
      exact h.safe j
  | turn hstep => exact Pool.Ok.turn h hstep
  | kill => exact ⟨h.valid.2, h.valid.1.flat⟩
  | command command secret pid i hvisit =>
    exact shelved_of_visits (settled_program _ _ _) (Shelved.restart h pid) hvisit

theorem Neat.steps [Crates] [DecidableEq ι] {dir : Dir} {system system' : System ι (Shared ι)}
    (h : Neat contents system) (hsteps : System.Steps (calm contents) dir system system') :
    Neat contents system' := by
  induction hsteps with
  | refl => exact h
  | tail _ hstep ih => exact ih.step hstep

/-- Where no operation has failed and no connection is served, nothing is staged. -/
theorem vacant_of_rests [Crates] [DecidableEq ι] {dir : Dir} {server : Server ι}
    (hsteps : System.Steps (calm contents) dir ⟨(blank : Shared ι), none⟩ ⟨s, some server⟩)
    (hrests : server.Rests) : Vacant s.1 := by
  have hblank : Neat contents (⟨blank, none⟩ : System ι (Shared ι)) := shelved_blank
  have hneat : Neat contents (⟨s, some server⟩ : System ι (Shared ι)) := hblank.steps hsteps
  intro path inode hlink hpath
  obtain ⟨n, rfl, howner⟩ := hneat.valid.1.drawn path inode hlink hpath
  obtain ⟨i, howner⟩ := Option.ne_none_iff_exists'.mp howner
  obtain ⟨peer, result, hdone⟩ := hrests i
  have hgone := hneat.post_of_done hdone rfl n howner (Set.notMem_empty n)
  exact absurd (hlink.symm.trans hgone) (by simp)

end Shared

/-! ## Pushes underway -/

section Underway

open Shared

variable [Crates] {ι : Type} {env : Env} {ingest : Ingest} {push : ι → Push}
  {outcome : ι → Outcome} {writes : Writes} {world : World}

abbrev Pushes (ι : Type) : Type := Pool Ans ι World Peer (Except Ingest.Error NarInfo)

def launch (ingest : Ingest) (push : ι → Push) (world : World) : Pushes ι where
  shared := world
  threads i := (⟨[], []⟩, (ingest.push (push i)).run)

/-- A thread has come to its end with a result. -/
def Pool.Ended (pool : Pushes ι) (i : ι) (result : Except Ingest.Error NarInfo) : Prop :=
  ∃ peer, pool.threads i = (peer, .done result)

/-- What holds of pushes at any moment, and of each when it is done. -/
structure Underway (env : Env) (ingest : Ingest) (outcome : ι → Outcome) (writes : Writes)
    (world : World) (pool : Pushes ι) : Prop where
  orderly : Orderly pool.shared
  approaches : world.view.Approaches writes pool.shared.view
  succeeded : ∀ i record, Pool.Ended pool i (.ok record) →
    record = (outcome i).record ingest ∧ (outcome i).Landed ingest pool.shared.view
  failed : ∀ i error, Pool.Ended pool i (.error error) → Shared.Fault env
  staging : env = .fair → (∀ i, ∃ result, Pool.Ended pool i result) →
    SameStaging world pool.shared

/-- The same pushes, among one more participant, to whom belongs what is staged already. -/
def attributed (pool : Pushes ι) :
    Pool Ans (Option ι) (Shared (Option ι)) Peer (Except Ingest.Error NarInfo) where
  shared := (pool.shared,
    ⟨fun n ↦ if n < pool.shared.sequence then some none else none, fun _ ↦ none⟩)
  threads
    | none => (⟨[], []⟩, .done (.error (.index .failed)))
    | some i => pool.threads i

/-- What each participant comes to. -/
def Attained (env : Env) (ingest : Ingest) (outcome : ι → Outcome) (start : Shared (Option ι)) :
    Option ι → Except Ingest.Error NarInfo → Peer → Shared (Option ι) → Prop
  | none, _, _, s => Unstaged none start s
  | some i, result, _, s => Tidy env (some i) ∅ s ∧ match result with
    | .ok record => record = (outcome i).record ingest ∧ (outcome i).Landed ingest s.view
    | .error _ => Shared.Fault env

theorem ok_attributed (hagree : writes.Agree) (hcover : ∀ i, writes.Cover ingest (outcome i))
    (hyields : ∀ i, ingest.Yields (push i) (outcome i)) (horderly : Orderly world) :
    (attributed (launch ingest push world)).Ok (protocol (settling writes world.view))
      (fun i ↦ Shared.step env Set.univ ingest.key i)
      (Attained env ingest outcome (attributed (launch ingest push world)).shared) := by
  have howner : ∀ n i,
      (attributed (launch ingest push world)).shared.2.owner n ≠ some (some i) := by
    intro n i
    dsimp only [attributed]
    split
    · exact fun h ↦ absurd (Option.some.inj h) (by simp)
    · simp
  refine ⟨⟨⟨fun n hn ↦ ?_, fun path inode hlink hpath ↦ ?_⟩, ?_⟩, fun i ↦ ?_⟩
  · by_contra hlt
    exact hn (if_neg hlt)
  · obtain ⟨n, hlt, hn⟩ := horderly.drawn path inode hlink hpath
    refine ⟨n, hn, ?_⟩
    dsimp only [attributed]
    rw [launch, if_pos hlt]
    simp
  · exact world.view.approaches_refl writes
  · rcases i with _ | i
    · exact fun s' hrely _ ↦ hrely.1
    · refine (upholds_push hagree (hcover i) (hyields i) ?_ horderly.dirs).imp ?_
      · exact fun _ n hn ↦ absurd hn (howner n i)
      · exact fun _ _ _ _ h ↦ h

omit [Crates] in
private theorem commits_univ (fs : FileSystem) (op : Op) : Commits Set.univ fs op := by
  cases op with
  | file op =>
    cases op with
    | rename path target => exact fun _ _ ↦ Set.mem_univ _
    | _ => trivial
  | _ => trivial

omit [Crates] in
private theorem attributed_of_steps [DecidableEq ι] {pool pool' : Pushes ι} (key : SecretKey)
    (hsteps : Pool.Steps (fun _ ↦ step env) pool pool') : ∃ later,
      Pool.Steps (fun i ↦ Shared.step env Set.univ key i) (attributed pool) later
        ∧ later.shared.1 = pool'.shared ∧ (∀ i, later.threads (some i) = pool'.threads i)
        ∧ later.threads none = (attributed pool).threads none := by
  -- the ledger follows the world, and constrains nothing: any artifact may be committed
  have hfollow : ∀ (i : ι) op world p answer world' p' (s : Shared (Option ι)), s.1 = world →
      step env op (world, p) answer (world', p') → ∃ s',
        Shared.step env Set.univ key (some i) op (s, p) answer (s', p') ∧ s'.1 = world' := by
    rintro i op _ p answer world' p' ⟨world, ledger⟩ rfl hop
    exact ⟨(world', ledger.track key (some i) op answer), ⟨hop, rfl, commits_univ _ _⟩, rfl⟩
  have hshared : (attributed pool).shared.1 = pool.shared := rfl
  have hthreads : ∀ i, (attributed pool).threads (some i) = pool.threads i := fun _ ↦ rfl
  obtain ⟨later, hlater, hshared, hthreads, hidle⟩ :=
    hsteps.simulate (Option.some_injective ι) hfollow hshared hthreads
  exact ⟨later, hlater, hshared, hthreads, hidle none (by simp)⟩

/-- Whatever pushes do, what is written is what was to be written; and those that are done have
written all of it. -/
theorem underway_of_steps {pool : Pushes ι} [DecidableEq ι] (hagree : writes.Agree)
    (hcover : ∀ i, writes.Cover ingest (outcome i))
    (hyields : ∀ i, ingest.Yields (push i) (outcome i)) (horderly : Orderly world)
    (hsteps : Pool.Steps (fun _ ↦ step env) (launch ingest push world) pool) :
    Underway env ingest outcome writes world pool := by
  have hdirs : (launch ingest push world).shared.fs.dirs ⊆ pool.shared.fs.dirs := by
    induction hsteps with
    | refl => exact Finset.Subset.refl _
    | tail _ hturn ih =>
      cases hturn with
      | turn i hthread hop => exact ih.trans (dirs_of_step hop)
  obtain ⟨⟨s, threads⟩, hlater, hshared, hthreads, hidle⟩ := attributed_of_steps ingest.key hsteps
  obtain ⟨world', ledger⟩ := s
  obtain rfl : world' = pool.shared := hshared
  have hok := (ok_attributed hagree hcover hyields horderly).steps hlater
  obtain ⟨hstaging, happroaches⟩ := hok.valid
  have hended : ∀ i result, Pool.Ended pool i result → Tidy env (some i) ∅ (pool.shared, ledger)
      ∧ match result with
        | .ok record => record = (outcome i).record ingest
          ∧ (outcome i).Landed ingest (Shared.view (pool.shared, ledger))
        | .error _ => Shared.Fault env := by
    rintro i result ⟨peer, hdone⟩
    exact hok.post_of_done ((hthreads i).trans hdone)
  -- the participant who does nothing still has what was staged at the start
  have hidle' : Unstaged none (attributed (launch ingest push world)).shared
      (pool.shared, ledger) :=
    hok.post_of_done hidle
  refine ⟨⟨hdirs horderly.dirs, fun path inode hlink hpath ↦ ?_⟩,
    ⟨happroaches.narinfo, happroaches.nar, happroaches.tree⟩, fun i record hdone ↦ ?_,
    fun i error hdone ↦ ?_, fun hfair hall path hpath ↦ ?_⟩
  · obtain ⟨n, hn, howner⟩ := hstaging.drawn path inode hlink hpath
    exact ⟨n, hstaging.fresh n howner, hn⟩
  · obtain ⟨-, hrecord, hlanded⟩ := hended i _ hdone
    exact ⟨hrecord, ⟨hlanded.nar, hlanded.tree⟩, hlanded.narinfo⟩
  · exact (hended i _ hdone).2
  · -- what the pushes staged is gone, and the rest was there before
    cases hlink : pool.shared.fs.links.lookup path with
    | some inode =>
      obtain ⟨n, rfl, howner⟩ := hstaging.drawn path inode hlink hpath
      obtain ⟨owner, howner⟩ := Option.ne_none_iff_exists'.mp howner
      rcases owner with _ | i
      · have hentry := hidle'.entry n ((hidle'.owner n).mp howner)
        rw [← hidle'.pid] at hentry
        exact hlink.symm.trans hentry
      · obtain ⟨result, hdone⟩ := hall i
        have hnone := (hended i result hdone).1 hfair n howner (Set.notMem_empty n)
        exact absurd (hlink.symm.trans hnone) (by simp)
    | none =>
      symm
      rw [Option.eq_none_iff_forall_ne_some]
      intro inode hbefore
      obtain ⟨n, hlt, rfl⟩ := horderly.drawn path inode hbefore hpath
      have hentry := hidle'.entry n (if_pos hlt)
      exact absurd ((hlink.symm.trans hentry).trans hbefore) (by simp)

/-! ## What pushes write -/

/-- All that a family of pushes writes. -/
def writesOf (ingest : Ingest) (outcome : ι → Outcome) : Writes where
  narinfo key record :=
    ∃ i, (outcome i).declared.storePath.hash = key ∧ (outcome i).record ingest = record
  nar narHash entry := ∃ i, (outcome i).declared.narHash = narHash ∧ (outcome i).entry = entry
  tree path file := ∃ i, Store.path (outcome i).url = path ∧ File.of (outcome i).artifact = file

theorem cover_writesOf (i : ι) : (writesOf ingest outcome).Cover ingest (outcome i) :=
  ⟨⟨i, rfl, rfl⟩, ⟨i, rfl, rfl⟩, ⟨i, rfl, rfl⟩⟩

/-- Once they have all landed, the view is determined. -/
theorem unique_of_landed {start view view' : View}
    (h : start.Approaches (writesOf ingest outcome) view)
    (h' : start.Approaches (writesOf ingest outcome) view')
    (hlanded : ∀ i, (outcome i).Landed ingest view)
    (hlanded' : ∀ i, (outcome i).Landed ingest view') :
    view.narinfo = view'.narinfo ∧ view.nar = view'.nar ∧ view.tree = view'.tree := by
  have hnarinfo : ∀ {view : View}, (∀ i, (outcome i).Landed ingest view) →
      Settled (writesOf ingest outcome).narinfo view.narinfo := by
    rintro view hlanded _ _ ⟨i, rfl, rfl⟩
    exact (hlanded i).narinfo
  have hnar : ∀ {view : View}, (∀ i, (outcome i).Landed ingest view) →
      Settled (writesOf ingest outcome).nar view.nar := by
    rintro view hlanded _ _ ⟨i, rfl, rfl⟩
    exact (hlanded i).nar
  have htree : ∀ {view : View}, (∀ i, (outcome i).Landed ingest view) →
      Settled (writesOf ingest outcome).tree view.tree := by
    rintro view hlanded _ _ ⟨i, rfl, rfl⟩
    exact (hlanded i).tree
  exact ⟨h.narinfo.unique h'.narinfo (hnarinfo hlanded) (hnarinfo hlanded'),
    h.nar.unique h'.nar (hnar hlanded) (hnar hlanded'),
    h.tree.unique h'.tree (htree hlanded) (htree hlanded')⟩

/-- The same rows, and the same files under `nar/`. -/
structure SameCache (world world' : World) : Prop where
  index : world.index = world'.index
  tree : Shared.tree world.fs = Shared.tree world'.fs

theorem sameCache_of_landed {pool pool' : World}
    (h : world.view.Approaches (writesOf ingest outcome) pool.view)
    (h' : world.view.Approaches (writesOf ingest outcome) pool'.view)
    (hlanded : ∀ i, (outcome i).Landed ingest pool.view)
    (hlanded' : ∀ i, (outcome i).Landed ingest pool'.view) : SameCache pool pool' := by
  obtain ⟨hnarinfo, hnar, htree⟩ := unique_of_landed h h' hlanded hlanded'
  exact ⟨Index.ext_rows (congrFun hnarinfo) (congrFun hnar), htree⟩

theorem exists_artifact (hsucceeds : Crates.EncoderSucceeds) (level : ℤ) (chunks : List Bytes) :
    ∃ artifact, Crates.compress level chunks = some artifact := by
  -- the encoder is asked chunk by chunk, and never fails
  have hemitted : ∀ (encoder : Crates.Encoder) (chunks : List Bytes),
      ∃ output, Crates.emitted encoder chunks = some output := by
    intro encoder chunks
    induction chunks generalizing encoder with
    | nil => exact Option.isSome_iff_exists.mp (hsucceeds.finish encoder)
    | cons chunk chunks ih =>
      obtain ⟨⟨next, start⟩, hwrite⟩ := Option.isSome_iff_exists.mp (hsucceeds.write encoder chunk)
      obtain ⟨rest, hrest⟩ := ih next
      exact ⟨start ++ rest, by rw [Crates.emitted, hwrite]; simp [hrest]⟩
  obtain ⟨encoder, hnew⟩ := Option.isSome_iff_exists.mp (hsucceeds.new level)
  obtain ⟨output, houtput⟩ := hemitted encoder chunks
  exact ⟨output, by rw [Crates.compress, hnew]; exact houtput⟩

/-! ## Pushes that run at once -/

/-- Everything that is hashed when these are pushed. -/
def hashed (ingest : Ingest) (push : ι → Push) : Set Bytes :=
  {bytes | ∃ i, bytes = (push i).nar
    ∨ Crates.compress ingest.level.get (push i).chunks = some bytes}

/-- Pushes that agree on each record agree on everything, if no digest is hit twice. -/
theorem agree_writesOf (hignores : Crates.EncoderIgnoresChunking)
    (hfree : Crates.CollisionFree (hashed ingest push))
    (hyields : ∀ i, ingest.Yields (push i) (outcome i))
    (hsame : ∀ i j, (outcome i).declared.storePath.hash = (outcome j).declared.storePath.hash →
      Cache.Retains (outcome i).declared (outcome j).declared) :
    (writesOf ingest outcome).Agree := by
  have hentry : ∀ i j, (outcome i).declared.narHash = (outcome j).declared.narHash →
      (outcome i).entry = (outcome j).entry := by
    intro i j hnarHash
    -- one digest, one NAR; one NAR, one artifact
    have hnar : (push i).nar = (push j).nar := by
      rw [(hyields i).narHash, (hyields j).narHash] at hnarHash
      exact Sha256.eq_of_digest_eq hfree ⟨i, .inl rfl⟩ ⟨j, .inl rfl⟩ hnarHash
    have hartifact : (outcome i).artifact = (outcome j).artifact := by
      have hcompressed := (hyields i).compressed
      rw [hignores, ← Push.nar, hnar, Push.nar, ← hignores] at hcompressed
      exact Option.some.inj (hcompressed.symm.trans (hyields j).compressed)
    have hnarSize : (outcome i).declared.narSize = (outcome j).declared.narSize :=
      PNat.eq (by rw [(hyields i).narSize, (hyields j).narSize, hnar])
    rw [Outcome.entry, Outcome.entry, hartifact, hnarSize]
  refine ⟨?_, ?_, ?_⟩
  · rintro _ _ _ ⟨i, rfl, rfl⟩ ⟨j, hkey, rfl⟩
    have hretains := hsame i j hkey.symm
    rw [Outcome.record, Outcome.record, hentry i j hretains.narHash.symm, Ingest.record,
      Ingest.record, hretains.storePath, hretains.narHash, hretains.narSize, hretains.references,
      hretains.deriver, hretains.ca]
  · rintro _ _ _ ⟨i, rfl, rfl⟩ ⟨j, hnarHash, rfl⟩
    exact hentry i j hnarHash.symm
  · rintro _ _ _ ⟨i, rfl, rfl⟩ ⟨j, hpath, rfl⟩
    have hurl := congrArg NarUrl.fileHash (Store.path_injective hpath)
    rw [Sha256.eq_of_digest_eq hfree ⟨j, .inr (hyields j).compressed⟩
      ⟨i, .inr (hyields i).compressed⟩ hurl]

/-- The pushes of a list are made one after the other. -/
def Serially (ingest : Ingest) (push : ι → Push) : List ι → World → World → Prop
  | [], world, world' => world' = world
  | i :: rest, world, world' => ∃ result world₁ peer,
    (ingest.push (push i)).run.Runs (step .fair) (world, ⟨[], []⟩) result (world₁, peer)
      ∧ Serially ingest push rest world₁ world'

/-- Pushes that run at once neither fail nor interfere: none gets stuck, each succeeds, and however
their operations interleave they end where any serial order does. -/
structure Confluent [DecidableEq ι] (ingest : Ingest) (push : ι → Push) (world : World) : Prop where
  proceeds : ∀ pool, Pool.Steps (fun _ ↦ step .fair) (launch ingest push world) pool →
    ∀ i, (∃ result, Pool.Ended pool i result) ∨
      ∃ shared thread, Pool.Step (fun _ ↦ step .fair) pool
        ⟨shared, Function.update pool.threads i thread⟩
  succeeds : ∀ pool, Pool.Steps (fun _ ↦ step .fair) (launch ingest push world) pool →
    ∀ i result, Pool.Ended pool i result → ∃ record, result = .ok record
  serial : ∀ pool, Pool.Steps (fun _ ↦ step .fair) (launch ingest push world) pool →
    (∀ i, ∃ result, Pool.Ended pool i result) → ∀ order : List ι, order.Nodup → (∀ i, i ∈ order) →
      ∀ world', Serially ingest push order world world' → SameCache pool.shared world'

/-- A serial order is one of the interleavings. -/
theorem steps_of_serially [DecidableEq ι] {order : List ι} {world' : World} {pool : Pushes ι}
    (hnodup : order.Nodup) (h : Serially ingest push order pool.shared world')
    (hwaiting : ∀ i ∈ order, pool.threads i = (⟨[], []⟩, (ingest.push (push i)).run)) :
    ∃ pool', Pool.Steps (fun _ ↦ step .fair) pool pool' ∧ pool'.shared = world'
      ∧ (∀ i ∈ order, ∃ result, Pool.Ended pool' i result)
      ∧ ∀ i ∉ order, pool'.threads i = pool.threads i := by
  -- the pushes that are still to be made wait at their start, untouched by the others
  induction order generalizing pool with
  | nil => exact ⟨pool, .refl, h.symm, fun _ hi ↦ absurd hi List.not_mem_nil, fun _ _ ↦ rfl⟩
  | cons i rest ih =>
    obtain ⟨result, world₁, peer, hrun, hrest⟩ := h
    obtain ⟨hi, hnodup⟩ := List.nodup_cons.mp hnodup
    let pool₁ : Pushes ι := ⟨world₁, Function.update pool.threads i (peer, .done result)⟩
    have hsteps : Pool.Steps (fun _ ↦ step .fair) pool pool₁ :=
      Pool.steps_of_runs (hwaiting i List.mem_cons_self) hrun
    have hother : ∀ j, j ≠ i → pool₁.threads j = pool.threads j :=
      fun j hj ↦ Function.update_of_ne hj ..
    have hwaiting₁ : ∀ j ∈ rest, pool₁.threads j = (⟨[], []⟩, (ingest.push (push j)).run) := by
      intro j hj
      rw [hother j (ne_of_mem_of_not_mem hj hi)]
      exact hwaiting j (List.mem_cons_of_mem i hj)
    obtain ⟨pool', hsteps', hshared, hended, hidle⟩ := @ih pool₁ hnodup hrest hwaiting₁
    refine ⟨pool', hsteps.trans hsteps', hshared, fun j hj ↦ ?_, fun j hj ↦ ?_⟩
    · obtain rfl | hj := List.mem_cons.mp hj
      · exact ⟨result, peer, (hidle j hi).trans (Function.update_self ..)⟩
      · exact hended j hj
    · obtain ⟨hne, hj⟩ := not_or.mp (mt List.mem_cons.mpr hj)
      exact (hidle j hj).trans (hother j hne)

theorem exists_outcomes (hsucceeds : Crates.EncoderSucceeds) {declared : ι → NarInfo}
    (hdescribes : ∀ i, ingest.Describes (push i) (declared i)) :
    ∃ outcome : ι → Outcome, ∀ i, (outcome i).declared = declared i
      ∧ ingest.Yields (push i) (outcome i) := by
  choose artifact hartifact using fun i ↦ exists_artifact hsucceeds ingest.level.get (push i).chunks
  exact ⟨fun i ↦ ⟨declared i, artifact i⟩, fun i ↦ ⟨rfl, hdescribes i, hartifact i⟩⟩

/-- In a fair environment with an encoder that does not fail, a push that is done has landed. -/
theorem Underway.landed {pool : Pushes ι} (h : Underway .fair ingest outcome writes world pool)
    (hsucceeds : Crates.EncoderSucceeds) {i : ι} {result : Except Ingest.Error NarInfo}
    (hended : Pool.Ended pool i result) :
    result = .ok ((outcome i).record ingest) ∧ (outcome i).Landed ingest pool.shared.view := by
  rcases result with error | record
  · obtain hhostile | hfails := h.failed i error hended
    · exact absurd hhostile Env.noConfusion
    · exact absurd hsucceeds hfails
  · obtain ⟨rfl, hlanded⟩ := h.succeeded i record hended
    exact ⟨rfl, hlanded⟩

theorem confluent_of_orderly [DecidableEq ι] (hsucceeds : Crates.EncoderSucceeds)
    (hignores : Crates.EncoderIgnoresChunking)
    (hfree : Crates.CollisionFree (hashed ingest push)) {declared : ι → NarInfo}
    (hdescribes : ∀ i, ingest.Describes (push i) (declared i))
    (hsame : ∀ i j, (declared i).storePath.hash = (declared j).storePath.hash →
      Cache.Retains (declared i) (declared j)) (horderly : Orderly world) :
    Confluent ingest push world := by
  obtain ⟨outcome, houtcome⟩ := exists_outcomes hsucceeds hdescribes
  have hyields : ∀ i, ingest.Yields (push i) (outcome i) := fun i ↦ (houtcome i).2
  have hagree : (writesOf ingest outcome).Agree := by
    refine agree_writesOf hignores hfree hyields fun i j ↦ ?_
    rw [(houtcome i).1, (houtcome j).1]
    exact hsame i j
  have hunderway : ∀ pool, Pool.Steps (fun _ ↦ step .fair) (launch ingest push world) pool →
      Underway .fair ingest outcome (writesOf ingest outcome) world pool :=
    fun pool hsteps ↦ underway_of_steps hagree cover_writesOf hyields horderly hsteps
  refine ⟨fun pool _ i ↦ ?_, fun pool hsteps i result hended ↦ ?_,
    fun pool hsteps hended order hnodup hall world' hserial ↦ ?_⟩
  · cases hthread : pool.threads i with
    | mk peer program =>
      cases program with
      | done result => exact .inl ⟨result, peer, hthread⟩
      | call op next =>
        obtain ⟨answer, ⟨shared, peer'⟩, hop⟩ := exists_step_fair op (pool.shared, peer)
        exact .inr ⟨shared, _, .turn i hthread hop⟩
  · exact ⟨_, ((hunderway pool hsteps).landed hsucceeds hended).1⟩
  · obtain ⟨pool', hsteps', rfl, hended', -⟩ :=
      @steps_of_serially _ _ _ _ _ order world' (launch ingest push world) hnodup hserial
        fun _ _ ↦ rfl
    have hunder := hunderway pool hsteps
    have hunder' := hunderway pool' hsteps'
    refine sameCache_of_landed hunder.approaches hunder'.approaches (fun i ↦ ?_) fun i ↦ ?_
    · obtain ⟨result, hdone⟩ := hended i
      exact (hunder.landed hsucceeds hdone).2
    · obtain ⟨result, hdone⟩ := hended' i (hall i)
      exact (hunder'.landed hsucceeds hdone).2

/-- From any state in which a server runs, pushes that agree wherever their store paths have one
hash can run at once in any way. -/
theorem confluent_of_steps {κ : Type} [DecidableEq κ] [DecidableEq ι] {contents : Set Bytes}
    {dir : Dir} {s : Shared κ} {server : Server κ} (hsucceeds : Crates.EncoderSucceeds)
    (hignores : Crates.EncoderIgnoresChunking)
    (hfree : Crates.CollisionFree (hashed server.cache.ingest push))
    (hsteps : System.Steps (Shared.machine contents) dir ⟨Shared.blank, none⟩ ⟨s, some server⟩)
    {declared : ι → NarInfo}
    (hdescribes : ∀ i, server.cache.ingest.Describes (push i) (declared i))
    (hsame : ∀ i j, (declared i).storePath.hash = (declared j).storePath.hash →
      Cache.Retains (declared i) (declared j)) : Confluent server.cache.ingest push s.1 :=
  confluent_of_orderly hsucceeds hignores hfree hdescribes hsame (Shared.orderly_of_steps hsteps)

/-! ## A push that is made again -/

/-- The same NAR, in whatever chunks, and the same body. -/
structure Push.Repeats (push push' : Push) : Prop where
  nar : push'.nar = push.nar
  body : push'.body = push.body

/-- The push is made, in some chunks, and nothing fails. -/
def Pushed (ingest : Ingest) (push : Push) (world : World)
    (result : Except Ingest.Error NarInfo) (world' : World) : Prop :=
  ∃ push' peer, push.Repeats push'
    ∧ (ingest.push push').run.Runs (step .fair) (world, ⟨[], []⟩) result (world', peer)

/-- The process dies somewhere in the push, and the server is started again. -/
def CutOff (ingest : Ingest) (push : Push) (world world' : World) : Prop :=
  ∃ push' cut peer pid peer', push.Repeats push'
    ∧ (ingest.push push').run.Visits (step .hostile) (world, ⟨[], []⟩) (cut, peer)
    ∧ Boot.serve.run.Runs (step .hostile)
      ({ cut with pid, sequence := 0, stats := fun _ ↦ {} }, ⟨[], []⟩) (.ok ()) (world', peer')

/-- A push ends in one state, whether it is made once, or is cut off any number of times and then
made any number of times. -/
structure Converges (ingest : Ingest) (push : Push) (world : World) : Prop where
  succeeds : ∀ result direct, Pushed ingest push world result direct →
    (∃ record, result = .ok record) ∧ SameStaging world direct
  retried : ∀ record direct, Pushed ingest push world (.ok record) direct →
    ∀ cut, Relation.TransGen (CutOff ingest push) world cut →
    ∀ result final, Pushed ingest push cut result final → result = .ok record
      ∧ ∀ later, Relation.ReflTransGen (fun world world' ↦
          ∃ result, Pushed ingest push world result world') final later →
        SameCache direct later ∧ Vacant later

section Retry

variable {push push' : Push} {outcome : Outcome} {world' : World} {peer peer' : Peer}

omit [Crates] in
theorem Push.repeats_refl (push : Push) : push.Repeats push := ⟨rfl, rfl⟩

theorem Ingest.Yields.repeats (hignores : Crates.EncoderIgnoresChunking)
    (h : ingest.Yields push outcome) (hrepeats : push.Repeats push') :
    ingest.Yields push' outcome := by
  refine ⟨⟨?_, ?_, ?_⟩, ?_⟩
  · rw [hrepeats.body]
    exact h.parsed
  · rw [hrepeats.nar]
    exact h.narHash
  · rw [hrepeats.nar]
    exact h.narSize
  · rw [hignores, ← Push.nar, hrepeats.nar, Push.nar, ← hignores]
    exact h.compressed

abbrev writesOfOne (ingest : Ingest) (outcome : Outcome) : Writes :=
  writesOf ingest fun _ : Unit ↦ outcome

theorem agree_writesOfOne : (writesOfOne ingest outcome).Agree := by
  refine ⟨?_, ?_, ?_⟩
  · rintro _ _ _ ⟨-, -, rfl⟩ ⟨-, -, rfl⟩
    rfl
  · rintro _ _ _ ⟨-, -, rfl⟩ ⟨-, -, rfl⟩
    rfl
  · rintro _ _ _ ⟨-, -, rfl⟩ ⟨-, -, rfl⟩
    rfl

theorem underway_of_visits (hyields : ingest.Yields push outcome) (horderly : Orderly world)
    (hvisit : (ingest.push push).run.Visits (step env) (world, ⟨[], []⟩) (world', peer)) :
    Orderly world' ∧ world.view.Approaches (writesOfOne ingest outcome) world'.view := by
  let alone : Pushes Unit := launch ingest (fun _ ↦ push) world
  have hthread : alone.threads () = (⟨[], []⟩, (ingest.push push).run) := rfl
  have hcut : ∃ rest, Pool.Steps (fun _ ↦ step env) alone
      ⟨world', Function.update alone.threads () (peer, rest)⟩ := Pool.steps_of_visits hthread hvisit
  obtain ⟨rest, hsteps⟩ := hcut
  have hunder :=
    underway_of_steps agree_writesOfOne cover_writesOf (fun _ ↦ hyields) horderly hsteps
  exact ⟨hunder.orderly, hunder.approaches⟩

/-- A push that is made whole. -/
structure Made (ingest : Ingest) (outcome : Outcome) (world : World)
    (result : Except Ingest.Error NarInfo) (world' : World) : Prop where
  result : result = .ok (outcome.record ingest)
  orderly : Orderly world'
  approaches : world.view.Approaches (writesOfOne ingest outcome) world'.view
  landed : outcome.Landed ingest world'.view
  staging : SameStaging world world'

theorem made_of_pushed (hsucceeds : Crates.EncoderSucceeds)
    (hignores : Crates.EncoderIgnoresChunking) (hyields : ingest.Yields push outcome)
    (horderly : Orderly world) {result : Except Ingest.Error NarInfo}
    (h : Pushed ingest push world result world') : Made ingest outcome world result world' := by
  obtain ⟨push', peer, hrepeats, hrun⟩ := h
  let alone : Pushes Unit := launch ingest (fun _ ↦ push') world
  let finished : Pushes Unit := ⟨world', Function.update alone.threads () (peer, .done result)⟩
  have hthread : alone.threads () = (⟨[], []⟩, (ingest.push push').run) := rfl
  have hsteps : Pool.Steps (fun _ ↦ step .fair) alone finished := Pool.steps_of_runs hthread hrun
  have hended : Pool.Ended finished () result :=
    ⟨peer, Function.update_self () (peer, Program.done result) alone.threads⟩
  have hunder := underway_of_steps agree_writesOfOne cover_writesOf
    (fun _ ↦ hyields.repeats hignores hrepeats) horderly hsteps
  obtain ⟨hresult, hlanded⟩ := hunder.landed hsucceeds hended
  exact ⟨hresult, hunder.orderly, hunder.approaches, hlanded,
    hunder.staging rfl fun _ ↦ ⟨result, hended⟩⟩

omit [Crates] in
theorem vacant_of_boot {pid : ℕ} {cut : World} (key : SecretKey) (horderly : Orderly cut)
    (h : Boot.serve.run.Runs (step env)
      ({ cut with pid, sequence := 0, stats := fun _ ↦ {} }, peer) (.ok ()) (world', peer')) :
    Vacant world' ∧ world'.view = cut.view := by
  let start : Shared Unit := (cut, ⟨fun _ ↦ none, fun _ ↦ none⟩)
  have hfollow : ∀ op (site : Site) (t : Shared Unit × Peer) answer site', (t.1.1, t.2) = site →
      step env op site answer site' →
        ∃ t', Shared.step env Set.univ key () op t answer t' ∧ (t'.1.1, t'.2) = site' := by
    rintro op _ ⟨⟨world, ledger⟩, p⟩ answer ⟨world', p'⟩ rfl hop
    exact ⟨((world', ledger.track key () op answer), p'), ⟨hop, rfl, commits_univ _ _⟩, rfl⟩
  let booting : Shared Unit × Peer := (Shared.restart pid start, peer)
  have hstart : (booting.1.1, booting.2)
      = ({ cut with pid, sequence := 0, stats := fun _ ↦ {} }, peer) := rfl
  obtain ⟨⟨later, _⟩, hrun, hsite⟩ := h.simulate hfollow hstart
  obtain ⟨rfl, rfl⟩ := Prod.mk.inj hsite
  -- what is left of the push is a plain file under `staging/`, which the sweep takes
  have hflat : Flat start := by
    intro path inode hlink hpath
    obtain ⟨n, -, rfl⟩ := horderly.drawn path inode hlink hpath
    exact ⟨_, rfl⟩
  have hflat' : Flat (Shared.restart pid start) := hflat
  obtain ⟨-, -, hclean⟩ := (attains_serve hflat').runs trivial hrun
  have hview := view_of_boot hrun
  refine ⟨hclean rfl, View.ext ?_ ?_ ?_ rfl⟩
  · show later.view.narinfo = (Shared.restart pid start).view.narinfo
    rw [hview]
  · show later.view.nar = (Shared.restart pid start).view.nar
    rw [hview]
  · show later.view.tree = (Shared.restart pid start).view.tree
    rw [hview]

theorem underway_of_cutOff (hignores : Crates.EncoderIgnoresChunking)
    (hyields : ingest.Yields push outcome) (horderly : Orderly world)
    (h : CutOff ingest push world world') : Orderly world' ∧ Vacant world'
      ∧ world.view.Approaches (writesOfOne ingest outcome) world'.view := by
  obtain ⟨push', cut, peer, pid, peer', hrepeats, hvisit, hboot⟩ := h
  obtain ⟨hcut, happroaches⟩ :=
    underway_of_visits (hyields.repeats hignores hrepeats) horderly hvisit
  obtain ⟨hvacant, hview⟩ := vacant_of_boot ingest.key hcut hboot
  refine ⟨⟨dirs_of_boot hboot, fun path inode hlink hpath ↦ ?_⟩, hvacant, hview ▸ happroaches⟩
  exact absurd hpath (hvacant path inode hlink)

theorem underway_of_cutOffs (hignores : Crates.EncoderIgnoresChunking)
    (hyields : ingest.Yields push outcome) (horderly : Orderly world)
    (h : Relation.TransGen (CutOff ingest push) world world') : Orderly world' ∧ Vacant world'
      ∧ world.view.Approaches (writesOfOne ingest outcome) world'.view := by
  induction h with
  | single hcut => exact underway_of_cutOff hignores hyields horderly hcut
  | tail _ hcut ih =>
    obtain ⟨horderly', -, happroaches⟩ := ih
    obtain ⟨horderly'', hvacant, happroaches'⟩ := underway_of_cutOff hignores hyields horderly' hcut
    exact ⟨horderly'', hvacant, happroaches.trans happroaches'⟩

theorem Made.repeated (hsucceeds : Crates.EncoderSucceeds)
    (hignores : Crates.EncoderIgnoresChunking) (hyields : ingest.Yields push outcome)
    {result : Except Ingest.Error NarInfo} {later : World}
    (h : Made ingest outcome world result world')
    (hlater : Relation.ReflTransGen (fun world world' ↦
      ∃ result, Pushed ingest push world result world') world' later) :
    Made ingest outcome world result later := by
  induction hlater with
  | refl => exact h
  | tail _ hpushed ih =>
    obtain ⟨result', hpushed⟩ := hpushed
    have hmade := made_of_pushed hsucceeds hignores hyields ih.orderly hpushed
    exact ⟨ih.result, hmade.orderly, ih.approaches.trans hmade.approaches, hmade.landed,
      fun path hpath ↦ (hmade.staging path hpath).trans (ih.staging path hpath)⟩

theorem converges_of_orderly (hsucceeds : Crates.EncoderSucceeds)
    (hignores : Crates.EncoderIgnoresChunking) {declared : NarInfo}
    (hdescribes : ingest.Describes push declared) (horderly : Orderly world) :
    Converges ingest push world := by
  obtain ⟨artifact, hartifact⟩ := exists_artifact hsucceeds ingest.level.get push.chunks
  have hyields : ingest.Yields push ⟨declared, artifact⟩ := ⟨hdescribes, hartifact⟩
  constructor
  · intro result direct h
    have hmade := made_of_pushed hsucceeds hignores hyields horderly h
    exact ⟨⟨_, hmade.result⟩, hmade.staging⟩
  intro record direct h cut hcut result final hfinal
  -- the uninterrupted push, and the one that was cut off and made again
  have hdirect := made_of_pushed hsucceeds hignores hyields horderly h
  obtain ⟨horderly', hvacant, happroaches⟩ := underway_of_cutOffs hignores hyields horderly hcut
  have hmade := made_of_pushed hsucceeds hignores hyields horderly' hfinal
  refine ⟨by rw [hmade.result, hdirect.result], fun later hlater ↦ ?_⟩
  have hlast := hmade.repeated hsucceeds hignores hyields hlater
  refine ⟨?_, hlast.staging.vacant hvacant⟩
  -- both are what the world was, with everything that the push writes
  exact sameCache_of_landed hdirect.approaches (happroaches.trans hlast.approaches)
    (fun _ ↦ hdirect.landed) fun _ ↦ hlast.landed

/-- From any state in which a server runs, a push converges. What else was in flight dies with the
process, or has nothing to do with it; and if nothing is in flight, and nothing ever failed, then
a push that is made once leaves nothing staged either. -/
theorem converges_of_steps {κ : Type} [DecidableEq κ] {contents : Set Bytes} {dir : Dir}
    {s : Shared κ} {server : Server κ} (hsucceeds : Crates.EncoderSucceeds)
    (hignores : Crates.EncoderIgnoresChunking)
    (hsteps : System.Steps (Shared.machine contents) dir ⟨Shared.blank, none⟩ ⟨s, some server⟩)
    {declared : NarInfo} (hdescribes : server.cache.ingest.Describes push declared) :
    Converges server.cache.ingest push s.1
      ∧ (System.Steps (Shared.calm contents) dir ⟨Shared.blank, none⟩ ⟨s, some server⟩ →
        server.Rests → ∀ result direct, Pushed server.cache.ingest push s.1 result direct →
          Vacant direct) := by
  have hconverges : Converges server.cache.ingest push s.1 :=
    converges_of_orderly hsucceeds hignores hdescribes (Shared.orderly_of_steps hsteps)
  refine ⟨hconverges, fun hcalm hrests result direct h ↦ ?_⟩
  obtain ⟨-, hstaging⟩ := hconverges.succeeds result direct h
  exact hstaging.vacant (Shared.vacant_of_rests hcalm hrests)

end Retry

/-! ## Pushes that clash -/

/-- In any order, the last push to be made has landed. -/
theorem exists_serially (hsucceeds : Crates.EncoderSucceeds)
    (hignores : Crates.EncoderIgnoresChunking)
    (hyields : ∀ i, ingest.Yields (push i) (outcome i)) (horderly : Orderly world) (order : List ι)
    (last : ι) : ∃ world', Serially ingest push (order ++ [last]) world world'
      ∧ (outcome last).Landed ingest world'.view := by
  induction order generalizing world with
  | nil =>
    obtain ⟨result, ⟨world', peer⟩, hrun⟩ :=
      exists_runs_fair (ingest.push (push last)).run (world, ⟨[], []⟩)
    have hmade := made_of_pushed hsucceeds hignores (hyields last) horderly
      ⟨push last, peer, Push.repeats_refl _, hrun⟩
    exact ⟨world', ⟨result, world', peer, hrun, rfl⟩, hmade.landed⟩
  | cons i rest ih =>
    obtain ⟨result, ⟨world₁, peer⟩, hrun⟩ :=
      exists_runs_fair (ingest.push (push i)).run (world, ⟨[], []⟩)
    have hmade := made_of_pushed hsucceeds hignores (hyields i) horderly
      ⟨push i, peer, Push.repeats_refl _, hrun⟩
    obtain ⟨world', hserial, hlanded⟩ := ih hmade.orderly
    exact ⟨world', ⟨result, world₁, peer, hrun, hserial⟩, hlanded⟩

/-- Two pushes under one hash that come to different records: whichever is last wins. -/
theorem not_confluent_of_clash [DecidableEq ι] (hsucceeds : Crates.EncoderSucceeds)
    (hignores : Crates.EncoderIgnoresChunking)
    (hyields : ∀ i, ingest.Yields (push i) (outcome i)) (horderly : Orderly world)
    {others : List ι} {i j : ι} (hnodup : (others ++ [i, j]).Nodup)
    (hall : ∀ k, k ∈ others ++ [i, j])
    (hhash : (outcome i).declared.storePath.hash = (outcome j).declared.storePath.hash)
    (hclash : (outcome i).record ingest ≠ (outcome j).record ingest) :
    ¬Confluent ingest push world := by
  intro hconfluent
  obtain ⟨world₁, hserial₁, hlanded₁⟩ :=
    exists_serially hsucceeds hignores hyields horderly (others ++ [i]) j
  obtain ⟨world₂, hserial₂, hlanded₂⟩ :=
    exists_serially hsucceeds hignores hyields horderly (others ++ [j]) i
  have horder₁ : others ++ [i] ++ [j] = others ++ [i, j] := List.append_assoc ..
  have hperm : (others ++ [j] ++ [i]).Perm (others ++ [i, j]) := by
    rw [List.append_assoc]
    exact (List.Perm.swap i j []).append_left others
  rw [horder₁] at hserial₁
  obtain ⟨pool, hsteps, hshared, hended, -⟩ :=
    @steps_of_serially _ _ _ _ _ _ world₁ (launch ingest push world) hnodup hserial₁ fun _ _ ↦ rfl
  -- the first order as an interleaving, against the second as a serial order
  have hsame : SameCache pool.shared world₂ :=
    hconfluent.serial pool hsteps (fun k ↦ hended k (hall k)) _ (hperm.nodup_iff.mpr hnodup)
      (fun k ↦ hperm.mem_iff.mpr (hall k)) world₂ hserial₂
  have hlast₁ : world₁.index.narinfo (outcome j).declared.storePath.hash
      = some ((outcome j).record ingest) := hlanded₁.narinfo
  have hlast₂ : world₂.index.narinfo (outcome i).declared.storePath.hash
      = some ((outcome i).record ingest) := hlanded₂.narinfo
  rw [hshared] at hsame
  rw [← hsame.index, hhash, hlast₁] at hlast₂
  exact hclash (Option.some.inj hlast₂).symm

end Underway

section Specimen

open Specimen

namespace Specimen

/-- A push of the NAR under each of two bodies. -/
def pushes (body body' : Text) (second : Bool) : Push := ⟨[nar], if second then body' else body⟩

/-- What the body of the other path declares. -/
def siblingDeclared : NarInfo := { declared with storePath := ⟨stranger, path.name⟩ }

theorem parse_siblingBody : NarInfo.parse siblingBody dir = .ok siblingDeclared := by decide +kernel

private theorem legal_other : StorePath.LegalName ['b'] := by
  have hutf8 : Text.utf8 ['b'] = [98] := by decide
  refine ⟨by decide, by decide, by decide, ?_⟩
  rw [hutf8, List.forall_mem_singleton]
  decide

/-- The body for a path with the same hash and another name. -/
def renamedBody : Text :=
  "StorePath: /nix/store/".toList ++ stem ++ "-b".toList ++ body.dropWhile (· ≠ '\n')

def renamedDeclared : NarInfo :=
  { declared with storePath := ⟨path.hash, ⟨['b'], legal_other⟩⟩ }

theorem parse_renamedBody : NarInfo.parse renamedBody dir = .ok renamedDeclared := by decide +kernel

theorem describes_nar {body : Text} {declared : NarInfo}
    (hparse : NarInfo.parse body dir = .ok declared) (hnarHash : declared.narHash = ⟨narDigest⟩)
    (hnarSize : declared.narSize = 1) :
    ingest.Describes ⟨[nar], body⟩ declared :=
  ⟨hparse, hnarHash, by rw [hnarSize]; rfl⟩

end Specimen

/-- Once the NAR is uploaded, the push of it converges; and it can be made. -/
theorem converges_first : ∃ (s : Shared ℕ) (server : Server ℕ) (record : NarInfo) (direct : World),
    System.Steps (Shared.machine {frame nar}) dir ⟨Shared.blank, none⟩ ⟨s, some server⟩
      ∧ server.cache = cache ∧ Converges ingest ⟨[nar], body⟩ s.1
      ∧ Pushed ingest ⟨[nar], body⟩ s.1 (.ok record) direct := by
  obtain ⟨s, hs, -⟩ := Option.bind_eq_some_iff.mp nar_first
  obtain ⟨threads, hsteps⟩ := Shared.steps_of_serveAll mem_frame hs
  have hconverges : Converges ingest ⟨[nar], body⟩ s.1 :=
    (converges_of_steps encoderSucceeds encoderIgnoresChunking hsteps
      (describes_nar parse_body rfl rfl)).1
  obtain ⟨result, ⟨direct, peer⟩, hrun⟩ :=
    exists_runs_fair (ingest.push ⟨[nar], body⟩).run (s.1, ⟨[], []⟩)
  have hpushed : Pushed ingest ⟨[nar], body⟩ s.1 result direct :=
    ⟨_, peer, Push.repeats_refl _, hrun⟩
  obtain ⟨⟨record, rfl⟩, -⟩ := hconverges.succeeds result direct hpushed
  exact ⟨s, _, record, direct, hsteps, rfl, hconverges, hpushed⟩

/-- Two paths that share the NAR can be pushed at once. -/
theorem confluent_siblings : ∃ (s : Shared ℕ) (server : Server ℕ),
    System.Steps (Shared.machine {frame nar}) dir ⟨Shared.blank, none⟩ ⟨s, some server⟩
      ∧ server.cache = cache ∧ Confluent ingest (pushes body siblingBody) s.1 := by
  obtain ⟨s, hs, -⟩ := Option.bind_eq_some_iff.mp nar_first
  obtain ⟨threads, hsteps⟩ := Shared.steps_of_serveAll mem_frame hs
  refine ⟨s, _, hsteps, rfl, ?_⟩
  have hhashed : hashed ingest (pushes body siblingBody) ⊆ {nar, frame nar} := by
    rintro bytes ⟨second, rfl | hcompressed⟩
    · exact .inl rfl
    · exact .inr (Option.some.inj (hcompressed.symm.trans (compress_eq _ _)))
  have hfree : Crates.CollisionFree (hashed ingest (pushes body siblingBody)) := by
    intro bytes hbytes bytes' hbytes' hdigest
    rcases hhashed hbytes with rfl | rfl <;> rcases hhashed hbytes' with rfl | rfl
    · rfl
    · exact absurd hdigest (by decide)
    · exact absurd hdigest (by decide)
    · rfl
  have hdescribes : ∀ second, ingest.Describes (pushes body siblingBody second)
      (if second then siblingDeclared else declared) := by
    rintro (_ | _)
    · exact describes_nar parse_body rfl rfl
    · exact describes_nar parse_siblingBody rfl rfl
  refine confluent_of_steps encoderSucceeds encoderIgnoresChunking hfree hsteps hdescribes ?_
  rintro (_ | _) (_ | _) hhash
  · exact ⟨rfl, rfl, rfl, rfl, rfl, rfl⟩
  · exact absurd hhash (by decide)
  · exact absurd hhash (by decide)
  · exact ⟨rfl, rfl, rfl, rfl, rfl, rfl⟩

/-- Two paths with one hash but different names cannot, even though each is pushed with one content
only. -/
theorem not_confluent_renamed : ∃ (s : Shared ℕ) (server : Server ℕ) (declared : Bool → NarInfo),
    System.Steps (Shared.machine {frame nar}) dir ⟨Shared.blank, none⟩ ⟨s, some server⟩
      ∧ server.cache = cache
      ∧ (∀ second, ingest.Describes (pushes body renamedBody second) (declared second))
      ∧ (∀ i j, (declared i).storePath = (declared j).storePath →
        Cache.Retains (declared i) (declared j))
      ∧ ¬Confluent ingest (pushes body renamedBody) s.1 := by
  obtain ⟨s, hs, -⟩ := Option.bind_eq_some_iff.mp nar_first
  obtain ⟨threads, hsteps⟩ := Shared.steps_of_serveAll mem_frame hs
  have hdescribes : ∀ second, ingest.Describes (pushes body renamedBody second)
      (if second then renamedDeclared else declared) := by
    rintro (_ | _)
    · exact describes_nar parse_body rfl rfl
    · exact describes_nar parse_renamedBody rfl rfl
  refine ⟨s, _, _, hsteps, rfl, hdescribes, ?_, ?_⟩
  · rintro (_ | _) (_ | _) hpath
    · exact ⟨rfl, rfl, rfl, rfl, rfl, rfl⟩
    · exact absurd hpath (by decide)
    · exact absurd hpath (by decide)
    · exact ⟨rfl, rfl, rfl, rfl, rfl, rfl⟩
  · obtain ⟨outcome, houtcome⟩ := exists_outcomes encoderSucceeds hdescribes
    have hpath : ∀ second, ((outcome second).record ingest).storePath
        = (if second then renamedDeclared else declared).storePath := by
      intro second
      rw [← (houtcome second).1]
      rfl
    have hall : ∀ second, second ∈ ([] : List Bool) ++ [false, true] := by decide
    refine not_confluent_of_clash encoderSucceeds encoderIgnoresChunking
      (fun second ↦ (houtcome second).2) (Shared.orderly_of_steps hsteps) (by decide) hall ?_ ?_
    · rw [(houtcome false).1, (houtcome true).1]
      rfl
    · intro hrecord
      have hsame :=
        (hpath false).symm.trans ((congrArg NarInfo.storePath hrecord).trans (hpath true))
      exact absurd hsame (by decide)

end Specimen

end Bincache
