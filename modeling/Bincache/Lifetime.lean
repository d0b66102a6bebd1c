import Bincache.Consistency
import Bincache.Specimen
import Bincache.System

/-!
# The index is right in every state of every life

`Shared.machine` is the cache as it runs, with the ledger beside it. That it keeps the discipline is
shown program by program: a session by `upholds_session`, upkeep one operation at a time, and a
rotation along its batches. What is left is that a crash, a boot and a new process do not disturb
it.
-/

namespace Bincache

namespace Shared

variable {ι : Type}

/-- A new process on the same directory: nobody has drawn an ordinal yet. -/
def restart (pid : ℕ) (s : Shared ι) : Shared ι :=
  ({ s.1 with pid, sequence := 0, stats := fun _ ↦ {} }, { s.2 with owner := fun _ ↦ none })

/-- The cache, in runs in which any operation may fail and whose artifacts are `contents`. -/
def machine (contents : Set Bytes) : Machine ι (Shared ι) where
  perform key i := step .hostile contents key i
  restart := restart

/-- The data directory before anything was done to it. -/
def blank : Shared ι := (⟨.empty, .empty, 0, 0, fun _ ↦ {}⟩, ⟨fun _ ↦ none, fun _ ↦ none⟩)

variable [Crates] {contents : Set Bytes} {dir : Dir}

/-- The directory is in order: the index is right, and the staging directory holds files only. -/
structure Order (contents : Set Bytes) (dir : Dir) (s : Shared ι) : Prop where
  consistent : Consistent dir s.view
  addressed : Addressed contents s.view.tree
  flat : Flat s

variable {env : Env} {key : SecretKey} {i : ι} {s s' : Shared ι} {p p' : Peer}

theorem order_blank : Order contents dir (blank : Shared ι) := by
  refine ⟨⟨?_, ?_, ?_, ?_⟩, ?_, ?_⟩
  · exact fun key record h ↦ absurd h (by simp [view, blank])
  · exact fun key record h ↦ absurd h (by simp [view, blank])
  · exact fun narHash entry h ↦ absurd h (by simp [view, blank])
  · exact fun key record h ↦ absurd h (by simp [view, blank])
  · exact fun url file h ↦ absurd h
      (by simp [view, blank, tree, FileSystem.lookup, FileSystem.empty])
  · exact fun path inode h ↦ absurd h (by simp [blank, FileSystem.empty])

theorem Order.restart (h : Order contents dir s) (pid : ℕ) : Order contents dir (restart pid s) :=
  ⟨h.consistent, h.addressed, h.flat⟩

/-! ## Upkeep -/

omit [Crates] in
theorem view_unpublish {k : StorePath.Hash} (hfs : s'.1.fs = s.1.fs)
    (hindex : s'.1.index = (s.1.index.unpublish k).2) (hledger : s'.2 = s.2) :
    s'.view = s.view.unpublish k := by
  have hnarinfo : s.view.narinfo k = s.1.index.narinfo k := rfl
  rw [View.unpublish, hnarinfo]
  split
  · next hnone =>
    rw [Index.unpublish_of_none hnone] at hindex
    rw [view, view, hfs, hindex, hledger]
  · next record hrow =>
    rw [view, hfs, hindex, hledger]
    refine View.ext (funext fun k' ↦ ?_) (funext fun narHash ↦ ?_) rfl rfl
    · exact (Index.narinfo_unpublish k k').trans (Function.update_apply ..).symm
    · exact (Index.nar_unpublish hrow narHash).trans (Function.update_apply ..).symm

omit [Crates] in
/-- What upkeep does to the view, and who drew which ordinal. -/
theorem view_of_upkeep {op : Op} {answer : Ans op} (hupkeep : op.Upkeep)
    (h : step env contents key i op (s, p) answer (s', p')) :
    s'.2.owner = s.2.owner ∧ (s'.view = s.view
      ∨ ∃ k, op = .index (.unpublish k) ∧ s'.view = s.view.unpublish k) := by
  by_cases hquiet : op.Quiet
  · have hsame := same_of_quiet hquiet h
    exact ⟨by rw [hsame.ledger], .inl hsame.view⟩
  obtain ⟨hstep, hledger, -⟩ := h
  obtain ⟨world, ledger⟩ := s
  obtain ⟨world', ledger'⟩ := s'
  cases op with
  | file op =>
    obtain rfl : ledger' = ledger := hledger
    refine ⟨rfl, .inl ?_⟩
    cases op with
    | createDirAll path =>
      obtain ⟨-, -, hsite⟩ | ⟨-, hsite⟩ := of_step_createDirAll hstep
      · obtain ⟨rfl, -⟩ := Prod.mk.inj hsite
        rfl
      · obtain ⟨rfl, -⟩ := Prod.mk.inj hsite
        rfl
    | remove path =>
      obtain ⟨-, hsite, -⟩ | ⟨-, hsite⟩ := of_step_remove hstep
      · obtain ⟨rfl, -⟩ := Prod.mk.inj hsite
        rfl
      · obtain ⟨rfl, -⟩ := Prod.mk.inj hsite
        -- only staged files are removed, and the view does not show them
        have hpath : path.head? = some Store.staging := hupkeep
        rw [view, view, tree_congr fun path' hpath' ↦ ?_]
        rw [FileSystem.lookup_unlink, if_neg]
        rintro rfl
        exact absurd (Option.some.inj (hpath'.symm.trans hpath)) (by decide)
    | _ => exact absurd hupkeep hquiet
  | index op =>
    cases op with
    | unpublish k =>
      obtain ⟨-, rfl, hsite⟩ | ⟨rfl, hsite⟩ := of_step_index hstep
      · obtain ⟨rfl, -⟩ := Prod.mk.inj hsite
        obtain rfl : ledger' = ledger := hledger
        exact ⟨rfl, .inl rfl⟩
      · obtain ⟨rfl, -⟩ := Prod.mk.inj hsite
        obtain rfl : ledger' = ledger := hledger
        exact ⟨rfl, .inr ⟨k, rfl, view_unpublish rfl rfl rfl⟩⟩
    | _ => exact absurd hupkeep hquiet
  | _ => exact absurd hupkeep hquiet

theorem Order.upkeep {contents' : Set Bytes} {op : Op} {answer : Ans op} (hs : Order contents dir s)
    (hupkeep : op.Upkeep) (h : step env contents' key i op (s, p) answer (s', p')) :
    Order contents dir s' := by
  have hflat := hs.flat.clears (clears_of_upkeep hupkeep h)
  obtain ⟨-, hview | ⟨k, -, hview⟩⟩ := view_of_upkeep hupkeep h
  · exact ⟨hview ▸ hs.consistent, hview ▸ hs.addressed, hflat⟩
  · have htree : s'.view.tree = s.view.tree := by
      rw [hview, View.unpublish]
      split
      · rfl
      · rfl
    exact ⟨hview ▸ hs.consistent.unpublish k, htree ▸ hs.addressed, hflat⟩

theorem order_of_visits {α : Type} {program : Program Ans α} (huses : program.Uses Op.Upkeep)
    (hs : Order contents dir s)
    (hvisit : program.Visits (step env contents key i) (s, p) (s', p')) :
    Order contents dir s' := by
  let inv (site : Shared ι × Peer) : Prop := Order contents dir site.1
  have hstart : inv (s, p) := hs
  have hfinal : inv (s', p') :=
    huses.visits (fun op t answer t' hupkeep ht hop ↦ ht.upkeep hupkeep hop) hstart hvisit
  exact hfinal

theorem upkeep_program {command : Command} {secret : SecretKey} (h : command ≠ .rotate) :
    (command.program dir secret).Uses Op.Upkeep := by
  cases command with
  | serve =>
    refine Program.Uses.bind upkeep_serve ?_
    exact fun _ ↦ trivial
  | delete k =>
    refine Program.Uses.bind (upkeep_delete k) ?_
    exact fun _ ↦ trivial
  | reconcile =>
    refine Program.Uses.bind upkeep_reconcile ?_
    exact fun _ ↦ trivial
  | rotate => exact absurd rfl h

/-! ## Rotations -/

/-- A record that may be committed: what it says is true, and it is signed under `key`. -/
def Genuine (dir : Dir) (key : SecretKey) (tree : FilePath → Option File) (record : NarInfo) :
    Prop := record.entry.Honest record.narHash tree ∧ record.SignedBy dir key

omit [Crates] in
theorem view_republish {records : List NarInfo} (hfs : s'.1.fs = s.1.fs)
    (hindex : s'.1.index = s.1.index.republish records) (hledger : s'.2 = s.2.sign key records) :
    s'.view = records.foldl (·.publish · key) s.view := by
  induction records generalizing s with
  | nil => rw [view, view, hfs, hindex, hledger]; rfl
  | cons record records ih =>
    have hfirst : view (({ s.1 with index := s.1.index.publish record }, s.2.sign key [record])
        : Shared ι) = s.view.publish record key := view_publish s _ rfl rfl rfl
    rw [List.foldl_cons, ← hfirst]
    exact ih hfs hindex hledger

omit [Crates] in
theorem tree_publishAll (records : List NarInfo) (key : SecretKey) (view : View) :
    (records.foldl (·.publish · key) view).tree = view.tree := by
  induction records generalizing view with
  | nil => rfl
  | cons record records ih => exact ih (view.publish record key)

theorem consistent_publishAll {view : View} (h : Consistent dir view) {records : List NarInfo}
    (hrecords : ∀ record ∈ records, Genuine dir key view.tree record) :
    Consistent dir (records.foldl (·.publish · key) view) := by
  induction records generalizing view with
  | nil => exact h
  | cons record records ih =>
    obtain ⟨hhonest, hsigned⟩ := hrecords record List.mem_cons_self
    exact ih (h.publish hhonest hsigned) fun record' hmem ↦
      hrecords record' (List.mem_cons_of_mem record hmem)

/-- What is asked of an invariant so that a rotation keeps it: upkeep does, and so does publishing
records that are good for the artifacts that are there, as every record is once it is signed
again. -/
structure Endures (dir : Dir) (key : SecretKey) (inv : Shared ι → Prop)
    (good : (FilePath → Option File) → NarInfo → Prop) : Prop where
  upkeep : ∀ {env contents i} {s s' : Shared ι} {p p' op} {answer : Ans op}, inv s → op.Upkeep →
    step env contents key i op (s, p) answer (s', p') → inv s'
  resigned : ∀ {s : Shared ι} {k record}, inv s → s.view.narinfo k = some record →
    good s.view.tree (record.resign dir key)
  publishes : ∀ {s s' : Shared ι} {records : List NarInfo}, inv s →
    (∀ record ∈ records, good s.view.tree record) → s'.1.fs = s.1.fs →
    s'.view = records.foldl (·.publish · key) s.view → inv s'

variable {inv : Shared ι → Prop} {good : (FilePath → Option File) → NarInfo → Prop}

theorem Endures.commits (h : Endures dir key inv good) (batches : List (List NarInfo))
    (hrecords : ∀ batch ∈ batches, ∀ record ∈ batch, good s.view.tree record) :
    (batches.forM fun batch ↦ (indexCall (.republish batch)).context Maintain.Error.index :
      Call Maintain.Error Unit).run.Safe (.guarded inv) (fun _ ↦ step env contents key i) ()
      (fun _ _ _ ↦ True) p s := by
  induction batches generalizing p s with
  | nil => exact Program.safe_guarded_done fun _ ↦ trivial
  | cons batch batches ih =>
    rw [List.forM_eq_forM, List.forM_cons, ← List.forM_eq_forM]
    refine Attempt.safe_bind (Attempt.safe_context
      (Program.safe_guarded_call fun hs answer s₁ p₁ hop ↦ ?_))
    obtain ⟨hstep, hledger, -⟩ := hop
    obtain ⟨world, ledger⟩ := s
    obtain ⟨world', ledger'⟩ := s₁
    obtain ⟨-, rfl, hsite⟩ | ⟨rfl, hsite⟩ := of_step_index hstep
    · obtain ⟨rfl, -⟩ := Prod.mk.inj hsite
      obtain rfl : ledger' = ledger := hledger
      exact ⟨hs, Program.safe_guarded_done fun _ ↦ trivial⟩
    obtain ⟨rfl, -⟩ := Prod.mk.inj hsite
    obtain rfl : ledger' = ledger.sign key batch := hledger
    have hview : view (({ world with index := world.index.republish batch },
        ledger.sign key batch) : Shared ι) = batch.foldl (·.publish · key) (view (world, ledger)) :=
      view_republish rfl rfl rfl
    refine ⟨h.publishes hs (hrecords batch List.mem_cons_self) rfl hview, Program.safe_of_later ?_⟩
    rintro s' rfl -
    -- A transaction leaves the files alone, so the records to come are as good as before.
    refine Program.safe_guarded_done fun _ ↦ ih fun batch' hmem ↦ ?_
    exact hrecords batch' (List.mem_cons_of_mem batch hmem)

theorem Endures.rotate (h : Endures dir key inv good) :
    (Boot.rotate dir key).run.Safe (.guarded inv) (fun _ ↦ step env contents key i) ()
      (fun _ _ _ ↦ True) p s := by
  have hopen : Boot.open.run.Safe (.guarded inv) (fun _ ↦ step env contents key i) ()
      (fun _ _ _ ↦ True) p s :=
    upkeep_open.safe fun op t l answer t' l' hupkeep ht hop ↦
      ⟨h.upkeep ht hupkeep hop, fun j hj ↦ absurd rfl hj⟩
  refine Attempt.safe_bind (hopen.imp ?_)
  rintro (error | ⟨⟩) p₁ s₁ - -
  · trivial
  refine Attempt.safe_context (Attempt.safe_bind (Attempt.safe_context
    (Program.safe_guarded_call fun hs answer s₂ p₂ hop ↦ ?_)))
  have hlists : Op.Quiet (.index .records) := trivial
  refine ⟨h.upkeep hs hlists.upkeep hop, Program.safe_of_later ?_⟩
  rintro s' rfl hs₂
  have hsame := same_of_quiet hlists hop
  obtain ⟨-, rfl, -⟩ | ⟨rfl, -⟩ := of_step_index hop.1
  · exact Program.safe_guarded_done fun _ ↦ trivial
  refine Program.safe_guarded_done fun _ ↦ Attempt.safe_bind ((h.commits _ ?_).imp ?_)
  · intro batch hbatch record hrecord
    obtain ⟨old, hold, rfl⟩ := List.mem_map.mp (Maintain.mem_of_mem_chunks hbatch hrecord)
    obtain ⟨k, hrow⟩ := Index.mem_records.mp hold
    rw [hsame.view]
    exact h.resigned hs hrow
  · rintro (error | ⟨⟩) p₃ s₃ - -
    · trivial
    · exact Program.safe_guarded_done fun _ ↦ trivial

/-- What endures a rotation survives every command. -/
theorem Endures.command {command : Command} {secret : SecretKey} (h : Endures dir secret inv good)
    (hs : inv s)
    (hvisit : (command.program dir secret).Visits (step env contents secret i) (s, p) (s', p')) :
    inv s' := by
  by_cases hrotate : command = .rotate
  · subst hrotate
    have hsafe : (Command.rotate.program dir secret).Safe (.guarded inv)
        (fun _ : Unit ↦ step env contents secret i) () (fun _ _ _ ↦ True) p s :=
      Program.Safe.bind (h.rotate.imp fun _ _ _ _ _ ↦ Program.safe_guarded_done fun _ ↦ trivial)
    exact hsafe.visits hs hvisit
  · let held (site : Shared ι × Peer) : Prop := inv site.1
    have hstart : held (s, p) := hs
    have hfinal : held (s', p') := (upkeep_program hrotate).visits
      (fun op t answer t' hupkeep ht hop ↦ h.upkeep ht hupkeep hop) hstart hvisit
    exact hfinal

theorem endures_order (hverify : Crates.SignaturesVerify) :
    Endures dir key (Order contents dir : Shared ι → Prop) (Genuine dir key) where
  upkeep := Order.upkeep
  resigned := by
    intro s k record hs hrow
    have hhonest := hs.consistent.records k record hrow
    exact ⟨hhonest, signedBy_resign hverify record dir key⟩
  publishes := by
    intro s s' records hs hrecords hfs hview
    have htree : s'.view.tree = s.view.tree := by rw [hview, tree_publishAll]
    refine ⟨hview ▸ consistent_publishAll hs.consistent hrecords, htree ▸ hs.addressed, ?_⟩
    rw [Flat, hfs]
    exact hs.flat

/-! ## Lives -/

omit [Crates] in
theorem owner_of_boot {result : Except Boot.Error Unit} {pid : ℕ}
    (hrun : Boot.serve.run.Runs (step env contents key i) (restart pid s, p) result (s', p'))
    (n : ℕ) :
    s'.2.owner n = none := by
  let inv (site : Shared ι × Peer) : Prop := site.1.2.owner = fun _ ↦ none
  have hstart : inv (restart pid s, p) := rfl
  have hfinal : inv (s', p') := by
    refine upkeep_serve.runs (fun op t answer t' hupkeep ht hop ↦ ?_) hstart hrun
    exact (view_of_upkeep hupkeep hop).1.trans ht
  exact congrFun hfinal n

omit [Crates] in
theorem staging_of_boot {pid : ℕ} (hflat : Flat s)
    (hrun : Boot.serve.run.Runs (step env contents key i) (restart pid s, p) (.ok ()) (s', p')) :
    Staging s' := by
  obtain ⟨-, -, hclean⟩ := (attains_serve (s := restart pid s) hflat).runs trivial hrun
  refine ⟨fun n hn ↦ absurd (owner_of_boot hrun n) hn, fun path inode hlink hpath ↦ ?_⟩
  exact absurd hpath (hclean rfl path inode hlink)

omit [Crates] in
theorem Staging.flat (h : Staging s) : Flat s := by
  intro path inode hlink hpath
  obtain ⟨n, rfl, -⟩ := h.drawn path inode hlink hpath
  exact ⟨_, rfl⟩

/-- What the cache keeps, whatever its processes do and wherever they die. -/
theorem keeps (hround : Crates.EncoderRoundTrips) (hverify : Crates.SignaturesVerify)
    (hfree : Crates.CollisionFree contents) : (machine contents : Machine ι (Shared ι)).Keeps dir
      (protocol (discipline contents dir)) (Order contents dir) where
  boots := by
    intro cache pid i s p s' p' hdir hs hrun
    have horder := order_of_visits upkeep_serve (hs.restart pid) hrun.visits
    exact ⟨staging_of_boot hs.flat hrun, horder.consistent, horder.addressed⟩
  serves := by
    intro cache shard turns i p s hdir
    refine (upholds_session (permits_discipline hround hverify hfree hdir) shard turns _ ?_).imp
      fun _ _ _ _ _ ↦ trivial
    exact fun henv ↦ absurd henv (by decide)
  dies := fun ⟨hstaging, hconsistent, haddressed⟩ ↦ ⟨hconsistent, haddressed, hstaging.flat⟩
  commands hs hvisit := (endures_order hverify).command (hs.restart _) hvisit

end Shared

section

variable [Crates] {ι : Type} [DecidableEq ι] {contents : Set Bytes} {dir : Dir}

/-- In every state of every life of a cache that began with an empty directory, what the index says
is true. -/
theorem consistent_of_steps (hround : Crates.EncoderRoundTrips)
    (hverify : Crates.SignaturesVerify) (hfree : Crates.CollisionFree contents)
    {system : System ι (Shared ι)}
    (hsteps : System.Steps (Shared.machine contents) dir ⟨Shared.blank, none⟩ system) :
    Consistent dir system.shared.view :=
  ((Shared.keeps hround hverify hfree).reachable Shared.order_blank hsteps).consistent

end

/-! ## Lives, evaluated -/

namespace Shared

variable {ι : Type} {env : Env}

/-- Of the files, only artifacts are renamed. -/
def commitsOnly (artifacts : List Bytes) (fs : FileSystem) : Op → Bool
  | .file (.rename path _) => (fs.lookup path).all fun file ↦ file.data ∈ artifacts
  | _ => true

/-- Performs an operation the way `choose` says, in a run that has these artifacts only. -/
def attempt (artifacts : List Bytes) (choose : Op → Choice) (key : SecretKey) (i : ι) (op : Op)
    (site : Shared ι × Peer) : Option (Ans op × Shared ι × Peer) :=
  if commitsOnly artifacts site.1.1.fs op then
    (effect (choose op) op (site.1.1, site.2)).map fun (answer, world, peer) ↦
      (answer, (world, site.1.2.track key i op answer), peer)
  else none

variable {artifacts : List Bytes} {contents : Set Bytes}

theorem step_of_attempt (hartifacts : ∀ data ∈ artifacts, data ∈ contents) {choose : Op → Choice}
    {key : SecretKey} {i : ι} {op : Op} {site site' : Shared ι × Peer} {answer : Ans op}
    (hallows : env.Allows (choose op))
    (h : attempt artifacts choose key i op site = some (answer, site')) :
    step env contents key i op site answer site' := by
  rw [attempt] at h
  split at h
  · next honly =>
    obtain ⟨⟨answer', world, peer⟩, heffect, hsite⟩ := Option.map_eq_some_iff.mp h
    obtain ⟨rfl, rfl⟩ := Prod.mk.inj hsite
    refine ⟨⟨choose op, hallows, heffect⟩, rfl, ?_⟩
    cases op with
    | file op =>
      cases op with
      | rename path target =>
        intro file hfile
        change (site.1.1.fs.lookup path).all (fun file ↦ file.data ∈ artifacts) = true at honly
        rw [hfile] at honly
        exact hartifacts _ (of_decide_eq_true honly)
      | _ => trivial
    | _ => trivial
  · exact absurd h (by simp)

theorem runs_of_attempt (hartifacts : ∀ data ∈ artifacts, data ∈ contents) {α : Type}
    {choose : Op → Choice} {key : SecretKey} {i : ι} {program : Program Ans α}
    {site site' : Shared ι × Peer} {value : α} (hallows : ∀ op, env.Allows (choose op))
    (h : program.evaluate (attempt artifacts choose key i) site = some (value, site')) :
    program.Runs (step env contents key i) site value site' := by
  refine Program.runs_of_evaluate ?_ h
  exact fun op _ _ _ hop ↦ step_of_attempt hartifacts (hallows op) hop

variable [Crates] (artifacts : List Bytes) (choose : Op → Choice) (cache : Cache)

/-- Serves some connections, one after the other, for a turn each. -/
def serveEach : List Bytes → Shared ℕ → Option (Shared ℕ)
  | [], s => some s
  | unread :: rest, s =>
    ((cache.session 0 1 {}).run.evaluate (attempt artifacts choose cache.ingest.key 0)
      (s, { unread })).bind fun (_, s', _) ↦ serveEach rest s'

/-- Starts a server and serves some connections. -/
def serveAll (pid : ℕ) (unread : List Bytes) (s : Shared ℕ) : Option (Shared ℕ) :=
  match Boot.serve.run.evaluate (attempt artifacts choose cache.ingest.key 0)
    (restart pid s, { unread := [] }) with
  | some (.ok (), s', _) => serveEach artifacts choose cache unread s'
  | _ => none

variable {artifacts} {choose : Op → Choice} {cache : Cache}

theorem steps_of_serveEach (hartifacts : ∀ data ∈ artifacts, data ∈ contents)
    {unread : List Bytes} {s s' : Shared ℕ} {server : Server ℕ} (hcache : server.cache = cache)
    (hdone : ∃ peer result, server.threads 0 = (peer, .done result))
    (h : serveEach artifacts choose cache unread s = some s') :
    ∃ threads, System.Steps (machine contents) cache.ingest.dir ⟨s, some server⟩
      ⟨s', some { server with threads }⟩ := by
  induction unread generalizing s server with
  | nil =>
    obtain rfl := Option.some.inj h
    exact ⟨server.threads, .refl⟩
  | cons unread rest ih =>
    obtain ⟨⟨result, s₁, peer₁⟩, heval, hrest⟩ := Option.bind_eq_some_iff.mp h
    have hallows : ∀ op, Env.hostile.Allows (choose op) := fun _ ↦ trivial
    have hrun := runs_of_attempt hartifacts hallows heval
    subst hcache
    obtain ⟨peer, before, hthread⟩ := hdone
    have hserved : System.Steps (machine contents) server.cache.ingest.dir ⟨s, some server⟩
        ⟨s₁, some { server with
          threads := Function.update server.threads 0 (peer₁, .done result) }⟩ :=
      System.steps_of_session hthread hrun
    let later : Server ℕ := { server with
      threads := Function.update server.threads 0 (peer₁, .done result) }
    have hlater : later.threads 0 = (peer₁, .done result) := by
      dsimp only [later]
      rw [Function.update_self]
    obtain ⟨threads, hsteps⟩ := @ih s₁ later rfl ⟨peer₁, result, hlater⟩ hrest
    exact ⟨threads, hserved.trans hsteps⟩

theorem steps_of_serveAll (hartifacts : ∀ data ∈ artifacts, data ∈ contents) {pid : ℕ}
    {unread : List Bytes} {s s' : Shared ℕ}
    (h : serveAll artifacts choose cache pid unread s = some s') :
    ∃ threads, System.Steps (machine contents) cache.ingest.dir ⟨s, none⟩
      ⟨s', some ⟨cache, threads⟩⟩ := by
  rw [serveAll] at h
  split at h
  · next s₁ peer heval =>
    let server : Server ℕ := ⟨cache, System.idle⟩
    have hidle : ∃ peer result, server.threads 0 = (peer, .done result) := ⟨_, _, rfl⟩
    obtain ⟨threads, hsteps⟩ := steps_of_serveEach hartifacts rfl hidle h
    have hallows : ∀ op, Env.hostile.Allows (choose op) := fun _ ↦ trivial
    have hrun := runs_of_attempt hartifacts hallows heval
    exact ⟨threads, .head (.boot cache pid 0 rfl hrun) hsteps⟩
  · exact absurd h (by simp)

end Shared

section Specimen

open Specimen

namespace Specimen

/-- Reads deliver all there is, and every directory is empty. -/
def plain (_ : Op) : Choice := { count := 65535 }

/-- The request that pushes a NAR of one byte under a hash. -/
def uploading (hash : Text) (nar : Bytes) : Bytes := Text.utf8 (
  "PUT /nar/".toList ++ hash ++ ".nar HTTP/1.1\r\n".toList
    ++ "Authorization: Bearer t\r\n".toList ++ "Content-Length: 1\r\n\r\n".toList) ++ nar

def upload : Bytes := uploading digits nar

/-- The request that publishes a body of the specimen's length under a hash. -/
def publication (hash body : Text) : Bytes := Text.utf8 (
  "PUT /".toList ++ hash ++ ".narinfo HTTP/1.1\r\n".toList
    ++ "Authorization: Bearer t\r\n".toList ++ "Content-Length: 316\r\n\r\n".toList ++ body)

/-- The cache after its first upload. -/
def first : Option (Shared ℕ) := Shared.serveAll [frame nar] plain cache 7 [upload] Shared.blank

theorem nar_first : first.bind (·.view.nar ⟨narDigest⟩) = some entry := by
  simp only [first, Shared.serveAll, Shared.serveEach, Cache.session, Cache.turn, Cache.attend,
    Http.parse, Text.fromUtf8_eq_decode]
  decide +kernel

theorem mem_frame : ∀ data ∈ [frame nar], data ∈ ({frame nar} : Set Bytes) := by
  rintro data hdata
  exact List.mem_singleton.mp hdata

/-- Another NAR, with a digest that is its own bytes. -/
def otherNar : Bytes := [121]

def otherEntry : Entry := { entry with fileHash := ⟨fill (frame otherNar)⟩ }

def otherDigits : Text := List.replicate 50 '0' ++ ['3', 'r']

def otherUpload : Bytes := uploading otherDigits otherNar

/-- The body for another path with that NAR. -/
def otherBody : Text :=
  "StorePath: /nix/store/".toList ++ strangerStem ++ "-a\n".toList
    ++ "URL: nar/".toList ++ otherDigits ++ ".nar\nCompression: none\n".toList
    ++ "FileHash: sha256:".toList ++ otherDigits ++ "\nFileSize: 1\n".toList
    ++ "NarHash: sha256:".toList ++ otherDigits ++ "\nNarSize: 1\n".toList
    ++ "References: \n".toList

def frames : Set Bytes := {frame nar, frame otherNar}

theorem mem_frames : ∀ data ∈ [frame nar, frame otherNar], data ∈ frames := by
  rintro data hdata
  exact List.mem_pair.mp hdata

/-- The cache after two paths with different contents were pushed. -/
def neighbours : Option (Shared ℕ) := Shared.serveAll [frame nar, frame otherNar] plain cache 7
  [upload, publication stem body,
    otherUpload, publication strangerStem otherBody] Shared.blank

theorem rows_neighbours : neighbours.map (fun s ↦ (s.1.index.narinfos.keys,
      s.1.index.nar ⟨narDigest⟩,
      (s.1.index.narinfo path.hash).map NarInfo.narHash,
      (s.1.index.narinfo stranger).map NarInfo.narHash))
    = some ({path.hash, stranger}, some entry, some ⟨narDigest⟩, some ⟨fill otherNar⟩) := by
  simp only [neighbours, Shared.serveAll, Shared.serveEach, Cache.session, Cache.turn, Cache.attend,
    Cache.handle, Cache.dispatch, Cache.publish, Http.parse, Text.fromUtf8_eq_decode]
  decide +kernel

end Specimen

theorem collisionFree_frame : Crates.CollisionFree {frame nar} := by
  rintro _ rfl _ rfl -
  rfl

theorem collisionFree_frames : Crates.CollisionFree frames :=
  Set.injOn_pair.mpr fun hdigest ↦ absurd hdigest (by decide)

/-- After two pushes, what the records and rows of both say is true. -/
theorem consistent_uploaded : ∃ (system : System ℕ (Shared ℕ)) (record other : NarInfo),
    System.Steps (Shared.machine frames) dir ⟨Shared.blank, none⟩ system
      ∧ system.shared.view.narinfo path.hash = some record ∧ record.narHash = ⟨narDigest⟩
      ∧ system.shared.view.narinfo stranger = some other ∧ other.narHash = ⟨fill otherNar⟩
      ∧ system.shared.view.nar ⟨narDigest⟩ = some entry ∧ Consistent dir system.shared.view := by
  obtain ⟨s, hs, hrows⟩ := Option.map_eq_some_iff.mp rows_neighbours
  obtain ⟨-, hrest⟩ := Prod.mk.inj hrows
  obtain ⟨hrow, hrest⟩ := Prod.mk.inj hrest
  obtain ⟨hrecord, hother⟩ := Prod.mk.inj hrest
  obtain ⟨record, hrecord, hnar⟩ := Option.map_eq_some_iff.mp hrecord
  obtain ⟨other, hother, hnar'⟩ := Option.map_eq_some_iff.mp hother
  obtain ⟨threads, hsteps⟩ := Shared.steps_of_serveAll mem_frames hs
  exact ⟨_, record, other, hsteps, hrecord, hnar, hother, hnar', hrow,
    consistent_of_steps encoderRoundTrips signaturesVerify collisionFree_frames hsteps⟩

end Specimen

end Bincache
