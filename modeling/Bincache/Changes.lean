import Bincache.PowerLoss
import Bincache.Provenance

/-!
# What a step of a life can do to the tables and the artifacts

`View.Change` lists it: nothing, the commit of an artifact, the row of a NAR, the publication of a
record, the removal of one, or a batch of records signed anew. `change_of_step` says that there is
nothing else, for every step of every life, and what follows from it about histories is a case
analysis over the list.

A rename or a write is harmless because of whose file it acts on. So beside the tables an invariant
is carried over the connections: each does only what a session may do next, and what it has in its
hands is its own.
-/

namespace Bincache

section

variable [Crates] {contents : Set Bytes} {dir : Dir}

omit [Crates] in
/-- Every record lies under the hash of its store path. -/
def View.Keyed (view : View) : Prop :=
  ∀ key record, view.narinfo key = some record → record.storePath.hash = key

/-- What a record is signed anew from lies under its own key. -/
def View.Renews (dir : Dir) (key : SecretKey) (view : View) (record : NarInfo) : Prop :=
  ∃ old, view.narinfo record.storePath.hash = some old ∧ record = old.resign dir key

/-- What a server does to a view. -/
inductive View.Served (contents : Set Bytes) : View → View → Prop
  | stay {view : View} : Served contents view view
  | commit {view : View} {level : ℤ} {chunks : List Bytes} {artifact : Bytes}
      (hmem : artifact ∈ contents) (hcompress : Crates.compress level chunks = some artifact) :
      Served contents view (view.commit ⟨.digest artifact, storedAs⟩ (.of artifact))
  | putNar {view : View} (narHash : Sha256) (entry : Entry) :
      Served contents view (view.putNar narHash entry)
  | publish {view : View} (record : NarInfo) (key : SecretKey)
      (hknown : (view.nar record.narHash).isSome) : Served contents view (view.publish record key)

/-- What a step of a life does to a view. -/
inductive View.Change (contents : Set Bytes) (dir : Dir) : View → View → Prop
  | served {view view' : View} (h : view.Served contents view') : Change contents dir view view'
  | unpublish {view : View} (key : StorePath.Hash) :
      Change contents dir view (view.unpublish key)
  | resign {view : View} (key : SecretKey) (records : List NarInfo)
      (hrenews : ∀ record ∈ records, view.Renews dir key record) :
      Change contents dir view (records.foldl (·.publish · key) view)

/-- A server takes no row of a NAR away. -/
theorem View.Served.nar {view view' : View} (h : view.Served contents view') (narHash : Sha256)
    (hsome : (view.nar narHash).isSome) : (view'.nar narHash).isSome := by
  cases h with
  | stay => exact hsome
  | commit hmem hcompress => exact hsome
  | publish record key hknown => exact hsome
  | putNar narHash' entry =>
    rw [View.putNar]
    dsimp only
    rw [Function.update_apply]
    split
    · rfl
    · exact hsome

theorem View.Change.stay {view : View} : View.Change contents dir view view := .served .stay

omit [Crates] in
theorem View.Keyed.publish {view : View} (h : view.Keyed) (record : NarInfo) (key : SecretKey) :
    (view.publish record key).Keyed := by
  intro key' record' hrow
  rw [View.publish] at hrow
  dsimp only at hrow
  rw [Function.update_apply] at hrow
  split at hrow
  · next hkey =>
    obtain rfl := Option.some.inj hrow
    exact hkey.symm
  · exact h key' record' hrow

omit [Crates] in
theorem View.Keyed.publishAll {view : View} (h : view.Keyed) (records : List NarInfo)
    (key : SecretKey) : (records.foldl (·.publish · key) view).Keyed := by
  induction records generalizing view with
  | nil => exact h
  | cons record records ih => exact ih (h.publish record key)

theorem View.Change.keyed {view view' : View} (h : View.Change contents dir view view')
    (hkeyed : view.Keyed) : view'.Keyed := by
  cases h with
  | served h =>
    cases h with
    | stay => exact hkeyed
    | commit hmem hcompress => exact hkeyed
    | putNar narHash entry => exact hkeyed
    | publish record key hknown => exact hkeyed.publish record key
  | unpublish key =>
    intro key' record hrow
    rw [View.unpublish] at hrow
    split at hrow
    · exact hkeyed key' record hrow
    · exact hkeyed key' record (of_update_none hrow)
  | resign key records hrenews => exact hkeyed.publishAll records key

end

/-- Operations of which a view shows nothing. -/
def Op.Idle (op : Op) : Prop := op.Starting ∨ op.Quiet

namespace Shared

variable {ι : Type} {contents : Set Bytes} {dir : Dir} {env : Env} {key : SecretKey} {i : ι}
  {hand : Hand} {s s' : Shared ι} {p p' : Peer} {op : Op} {answer : Ans op}

/-! ## What a connection has in its hands -/

/-- What a session has in its hands is its own. -/
def Grips (i : ι) (hand : Hand) (s : Shared ι) : Prop := ∃ disk, Durable.Bond i hand (s, disk)

theorem grips_empty (i : ι) (s : Shared ι) : Grips i {} s :=
  ⟨.of s.1.fs, fun _ h ↦ absurd h (by simp), fun _ h ↦ absurd h (by simp),
    fun _ h ↦ absurd h (by simp)⟩

theorem Grips.later (h : Grips i hand s) (hrely : Unstaged i s s') : Grips i hand s' := by
  obtain ⟨disk, hdrawn, hpid, hheld⟩ := h
  refine ⟨disk, fun n hn ↦ (hrely.owner n).mpr (hdrawn n hn),
    fun pid h ↦ (hpid pid h).trans hrely.pid.symm, fun held h ↦ ?_⟩
  obtain ⟨⟨n, hpath, hn⟩, hlink, hclean⟩ := hheld held h
  have hentry := hrely.entry n hn
  refine ⟨⟨n, by rw [hpath, hrely.pid], (hrely.owner n).mpr hn⟩, ?_, hclean⟩
  rw [hpath] at hlink ⊢
  exact hentry.trans hlink

theorem Grips.next (h : Grips i hand s) (hallows : hand.Allows op)
    (hstep : step .hostile contents key i op (s, p) answer (s', p')) :
    Grips i (hand.next op answer) s' := by
  obtain ⟨disk, hbond⟩ := h
  have hmarked : Durable.step contents key i op ((s, disk), p) answer
      ((s', op.mark s.1.fs disk answer), p') := ⟨hstep, rfl⟩
  exact ⟨_, hbond.next hallows hmarked⟩

theorem Grips.staged {held : Held} (h : Grips i hand s) (hheld : hand.held = some held) :
    ∃ n, held.path = Store.stagedPath s.1.pid n ∧ s.2.owner n = some i
      ∧ s.1.fs.Names held.path held.inode (s.1.fs.files held.inode) := by
  obtain ⟨disk, -, -, hbond⟩ := h
  obtain ⟨⟨n, hpath, hn⟩, hlink, -⟩ := hbond held hheld
  exact ⟨n, hpath, hn, hlink, rfl⟩

/-- The row that a session last found is there. -/
def Finds (hand : Hand) (s : Shared ι) : Prop :=
  ∀ narHash, hand.found = some narHash → (s.view.nar narHash).isSome

theorem Finds.later (h : Finds hand s)
    (hrows : ∀ narHash, (s.view.nar narHash).isSome → (s'.view.nar narHash).isSome) :
    Finds hand s' := fun narHash hfound ↦ hrows narHash (h narHash hfound)

theorem Finds.next (h : Finds hand s)
    (hrows : ∀ narHash, (s.view.nar narHash).isSome → (s'.view.nar narHash).isSome)
    (hstep : step .hostile contents key i op (s, p) answer (s', p')) :
    Finds (hand.next op answer) s' := by
  have hafter := h.later hrows
  cases op with
  | index op =>
    cases op with
    | nar narHash =>
      rcases answer with error | _ | entry
      · exact hafter
      · exact hafter
      rintro narHash' hfound
      obtain rfl := Option.some.inj hfound
      obtain ⟨-, hanswer, -⟩ | ⟨hanswer, -⟩ := of_step_index hstep.1
      · cases hanswer
      have hrow : s.view.nar narHash = some entry := (Except.ok.inj hanswer).symm
      exact hrows narHash (by rw [hrow]; rfl)
    | _ => exact hafter
  | file op =>
    cases op with
    | create path => cases answer <;> exact hafter
    | sync inode => cases answer <;> exact hafter
    | rename path target => cases answer <;> exact hafter
    | _ => exact hafter
  | _ => exact hafter

/-- Each connection does only what a session may do next, has nothing in its hands but its own, and
goes by a row that is there. -/
def Conducted (s : Shared ι) (threads : ι → Peer × Program Ans (Except Handler.Error Unit)) :
    Prop :=
  ∀ i, ∃ hand, Grips i hand s ∧ Finds hand s
    ∧ (threads i).2.Follows conduct (fun _ _ ↦ True) hand

/-! ## What each process does -/

/-- What an operation of a session that behaves does to the view. -/
theorem served_of_allows [Crates] (hgrips : Grips i hand s) (hfinds : Finds hand s)
    (hallows : hand.Allows op)
    (hs : Staging s) (hencoded : Encoded contents s'.view.tree)
    (hop : step .hostile contents key i op (s, p) answer (s', p')) :
    View.Served contents s.view s'.view := by
  have hstay : s'.view = s.view → View.Served contents s.view s'.view := by
    intro hview
    rw [hview]
    exact .stay
  by_cases hquiet : op.Quiet
  · exact hstay (same_of_quiet hquiet hop).view
  cases op with
  | file op =>
    cases op with
    | createDirAll path =>
      obtain ⟨-, -, hview, -⟩ := step_createDirAll (n := 0) hs hop
      exact hstay hview
    | create path =>
      obtain ⟨ordinal, pid, hordinal, hpid, rfl⟩ := hallows
      obtain ⟨disk, hbond⟩ := hgrips
      obtain rfl : pid = s.1.pid := hbond.pid pid hpid
      obtain ⟨-, hview, -⟩ := step_create hs (hbond.drawn ordinal hordinal) hop
      exact hstay hview
    | writeAt inode offset bytes =>
      obtain ⟨held, hheld, rfl⟩ := hallows
      obtain ⟨n, hpath, hn, hnames⟩ := hgrips.staged hheld
      rw [hpath] at hnames
      obtain ⟨-, hview, -⟩ := step_writeAt hs hn hnames hop
      exact hstay hview
    | rename path target =>
      obtain ⟨held, url, hheld, rfl, -, rfl⟩ := hallows
      obtain ⟨n, hpath, hn, hnames⟩ := hgrips.staged hheld
      rw [hpath] at hnames hop
      obtain ⟨-, -, ⟨-, rfl, -⟩ | ⟨-, hview, -⟩⟩ := step_rename hs hn hnames hop
      · exact .stay
      · -- what is at the place of an artifact now says how it was made and what it is called
        have hfile : s'.view.tree (Store.path url) = some (s.1.fs.files held.inode) := by
          rw [hview]
          exact (View.artifact_commit _ _ _ _).trans (if_pos rfl)
        obtain ⟨level, chunks, artifact, hmem, hcompress, rfl, hdata⟩ := hencoded url _ hfile
        rw [hview, hdata]
        exact .commit hmem hcompress
    | remove path =>
      obtain ⟨held, hheld, rfl⟩ := hallows
      obtain ⟨n, hpath, hn, -⟩ := hgrips.staged hheld
      rw [hpath] at hop
      obtain ⟨-, hview, -⟩ := step_remove hs hn hop
      exact hstay hview
    | _ => exact absurd trivial hquiet
  | index op =>
    obtain ⟨-, -, hfs, ⟨-, -, rfl⟩ | ⟨-, hindex, hledger⟩⟩ := step_index (n := 0) hs hop
    · exact .stay
    cases op with
    | putNar narHash entry =>
      rw [view_putNar s s' hfs hindex hledger]
      exact .putNar narHash entry
    | publish record =>
      rw [view_publish s s' hfs hindex hledger]
      exact .publish record key (hfinds _ hallows)
    | republish records => exact hallows.elim
    | unpublish k => exact hallows.elim
    | _ => exact absurd trivial hquiet
  | nextOrdinal => exact hstay (step_nextOrdinal hs hop).2.1
  | _ => exact absurd trivial hquiet

theorem view_of_idle (hidle : op.Idle) (h : step env contents key i op (s, p) answer (s', p')) :
    s'.view = s.view := by
  obtain hstarting | hquiet := hidle
  · obtain ⟨-, hview | ⟨k, rfl, -⟩⟩ := view_of_upkeep hstarting.upkeep h
    · exact hview
    · exact hstarting.elim
  · exact (same_of_quiet hquiet h).view

theorem view_of_visits {α : Type} {program : Program Ans α} (huses : program.Uses Op.Idle)
    (hvisit : program.Visits (step env contents key i) (s, p) (s', p')) : s'.view = s.view := by
  let inv (site : Shared ι × Peer) : Prop := site.1.view = s.view
  have hstart : inv (s, p) := rfl
  have hfinal : inv (s', p') := by
    refine huses.visits (fun op t answer t' hidle ht hop ↦ ?_) hstart hvisit
    exact (view_of_idle hidle hop).trans ht
  exact hfinal

/-- A deletion, wherever it is cut off. -/
theorem view_of_delete [Crates] {k : StorePath.Hash}
    (hvisit : ((Command.delete k).program dir key).Visits (step env contents key i) (s, p)
      (s', p')) : s'.view = s.view ∨ s'.view = s.view.unpublish k := by
  let inv (site : Shared ι × Peer) : Prop :=
    site.1.view = s.view ∨ site.1.view = s.view.unpublish k
  have huses : ((Command.delete k).program dir key).Uses
      fun op : Op ↦ op.Idle ∨ op = .index (.unpublish k) := by
    refine Program.Uses.bind (Attempt.uses_bind (starting_open.imp fun _ h ↦ .inl (.inl h)) fun _ ↦
      Attempt.uses_context (Attempt.uses_bind
        (Attempt.uses_context ⟨.inr rfl, fun _ ↦ trivial⟩) ?_)) fun _ ↦ trivial
    rintro (_ | record)
    · trivial
    · trivial
  have hagain : ∀ view : View, (view.unpublish k).unpublish k = view.unpublish k := by
    intro view
    have hgone : (view.unpublish k).narinfo k = none := by
      rw [View.unpublish]
      split
      · next hnone => exact hnone
      · exact Function.update_self ..
    rw [View.unpublish, hgone]
  have hstart : inv (s, p) := .inl rfl
  have hfinal : inv (s', p') := by
    refine huses.visits (fun op t answer t' hallowed ht hop ↦ ?_) hstart hvisit
    obtain hidle | rfl := hallowed
    · have hsame := view_of_idle hidle hop
      rcases ht with ht | ht
      · exact .inl (hsame.trans ht)
      · exact .inr (hsame.trans ht)
    obtain ⟨-, hview | ⟨k', hk', hview⟩⟩ := view_of_upkeep (by trivial) hop
    · rcases ht with ht | ht
      · exact .inl (hview.trans ht)
      · exact .inr (hview.trans ht)
    · obtain rfl : k = k' := by injection hk' with hk'; injection hk'
      refine .inr (hview.trans ?_)
      rcases ht with ht | ht
      · rw [ht]
      · rw [ht, hagain]
  exact hfinal

/-- Operations of which the view shows nothing keep whatever is asked of it. -/
theorem guarded_of_idle {α : Type} {inv : View → Prop} {program : Program Ans α}
    (h : program.Uses Op.Idle) :
    program.Safe (.guarded fun t : Shared ι ↦ inv t.view) (fun _ ↦ step env contents key i) ()
      (fun _ _ t ↦ t.view = s.view) p s := by
  induction program generalizing p s with
  | done value => exact Program.safe_guarded_done fun _ ↦ rfl
  | call op next ih =>
    refine Program.safe_guarded_call fun hs answer s₁ p₁ hop ↦ ?_
    have hview := view_of_idle h.1 hop
    refine ⟨hview ▸ hs, (ih answer (h.2 answer)).imp fun _ _ t _ ht ↦ ht.trans hview⟩

variable [Crates] {start : View}

/-- Some records are signed anew, and nothing else shows. -/
def Renewed (dir : Dir) (key : SecretKey) (start view : View) : Prop :=
  ∃ records : List NarInfo, (∀ record ∈ records, start.Renews dir key record)
    ∧ view = records.foldl (·.publish · key) start

theorem guarded_renewals (batches : List (List NarInfo))
    (hbatches : ∀ batch ∈ batches, ∀ record ∈ batch, start.Renews dir key record) :
    (batches.forM fun batch ↦ (indexCall (.republish batch)).context Maintain.Error.index :
      Call Maintain.Error Unit).run.Safe
      (.guarded fun t : Shared ι ↦ Renewed dir key start t.view)
      (fun _ ↦ step env contents key i) () (fun _ _ _ ↦ True) p s := by
  induction batches generalizing p s with
  | nil => exact Program.safe_guarded_done fun _ ↦ trivial
  | cons batch batches ih =>
    rw [List.forM_eq_forM, List.forM_cons, ← List.forM_eq_forM]
    refine Attempt.safe_bind (Attempt.safe_context
      (Program.safe_guarded_call fun hs answer s₁ p₁ hop ↦ ?_))
    obtain ⟨hstep, hledger, -⟩ := hop
    obtain ⟨world, ledger⟩ := s
    obtain ⟨world', ledger'⟩ := s₁
    obtain ⟨-, rfl, hsite⟩ | ⟨rfl, hsite⟩ := of_step_index hstep
    · obtain ⟨rfl, -⟩ := Prod.mk.inj hsite
      obtain rfl : ledger' = ledger := hledger
      exact ⟨hs, Program.safe_guarded_done fun _ ↦ trivial⟩
    obtain ⟨rfl, -⟩ := Prod.mk.inj hsite
    obtain rfl : ledger' = ledger.sign key batch := hledger
    obtain ⟨committed, hcommitted, hview⟩ := hs
    refine ⟨⟨committed ++ batch, fun record hmem ↦ ?_, ?_⟩, Program.safe_of_later ?_⟩
    · obtain hmem | hmem := List.mem_append.mp hmem
      · exact hcommitted record hmem
      · exact hbatches batch List.mem_cons_self record hmem
    · rw [List.foldl_append, ← hview]
      exact view_republish rfl rfl rfl
    · rintro s' rfl -
      refine Program.safe_guarded_done fun _ ↦ ih fun batch' hmem ↦ ?_
      exact hbatches batch' (List.mem_cons_of_mem batch hmem)

theorem renewed_of_rotate (hkeyed : s.view.Keyed)
    (hvisit : (Command.rotate.program dir key).Visits (step env contents key i) (s, p) (s', p')) :
    Renewed dir key s.view s'.view := by
  have hsafe : (Boot.rotate dir key).run.Safe
      (.guarded fun t : Shared ι ↦ Renewed dir key s.view t.view)
      (fun _ ↦ step env contents key i) () (fun _ _ _ ↦ True) p s := by
    refine Attempt.safe_bind ((guarded_of_idle (starting_open.imp fun _ ↦ .inl)).imp ?_)
    rintro (error | ⟨⟩) p₁ s₁ - hview₁
    · trivial
    refine Attempt.safe_context (Attempt.safe_bind (Attempt.safe_context
      (Program.safe_guarded_call fun hs answer s₂ p₂ hop ↦ ?_)))
    have hlists : Op.Quiet (.index .records) := trivial
    have hview₂ : s₂.view = s₁.view := view_of_idle (.inr hlists) hop
    refine ⟨hview₂ ▸ hs, ?_⟩
    obtain ⟨-, rfl, -⟩ | ⟨rfl, -⟩ := of_step_index hop.1
    · exact Program.safe_guarded_done fun _ ↦ trivial
    refine Program.safe_guarded_done fun _ ↦
      Attempt.safe_bind ((guarded_renewals _ ?_).imp ?_)
    · intro batch hbatch record hrecord
      obtain ⟨old, hold, rfl⟩ := List.mem_map.mp (Maintain.mem_of_mem_chunks hbatch hrecord)
      obtain ⟨k, hrow⟩ := Index.mem_records.mp hold
      have hrow' : s.view.narinfo k = some old := by
        rw [← hview₁]
        exact hrow
      refine ⟨old, ?_, rfl⟩
      rw [NarInfo.storePath_resign, hkeyed k old hrow']
      exact hrow'
    · rintro (error | ⟨⟩) p₃ s₃ - -
      · trivial
      · exact Program.safe_guarded_done fun _ ↦ trivial
  have hprogram : (Command.rotate.program dir key).Safe
      (.guarded fun t : Shared ι ↦ Renewed dir key s.view t.view)
      (fun _ ↦ step env contents key i) () (fun _ _ _ ↦ True) p s :=
    Program.Safe.bind (hsafe.imp fun _ _ _ _ _ ↦ Program.safe_guarded_done fun _ ↦ trivial)
  exact hprogram.visits ⟨[], by simp, rfl⟩ hvisit

/-! ## One step of a life -/

/-- Artifacts are what was encoded, records lie under their own keys, and whatever runs is
conducted. -/
structure Attended (contents : Set Bytes) (dir : Dir) (system : System ι (Shared ι)) : Prop where
  kept : (machine contents).Kept dir (protocol (provenance contents)) (Shelved contents) system
  keyed : system.shared.view.Keyed
  conducted : ∀ server, system.server = some server → Conducted system.shared server.threads

variable {command : Command} {secret : SecretKey}

theorem change_of_command (hkeyed : s.view.Keyed)
    (hvisit : (command.program dir secret).Visits (step env contents secret i) (s, p) (s', p')) :
    View.Change contents dir s.view s'.view := by
  cases command with
  | serve =>
    have huses : (Command.serve.program dir secret).Uses Op.Idle :=
      Program.Uses.bind (starting_serve.imp fun _ ↦ .inl) fun _ ↦ trivial
    rw [view_of_visits huses hvisit]
    exact .stay
  | delete k =>
    rcases view_of_delete hvisit with hview | hview
    · rw [hview]
      exact .stay
    · rw [hview]
      exact .unpublish k
  | reconcile =>
    have huses : (Command.reconcile.program dir secret).Uses Op.Idle := by
      refine Program.Uses.bind (Attempt.uses_bind (starting_open.imp fun _ ↦ .inl) fun _ ↦
        Attempt.uses_context (Attempt.uses_bind (Attempt.uses_context
          (quiet_scan.imp fun _ ↦ .inr)) fun _ ↦ Attempt.uses_bind
            (Attempt.uses_context ⟨.inr trivial, fun _ ↦ trivial⟩) fun _ ↦ trivial)) ?_
      exact fun _ ↦ trivial
    rw [view_of_visits huses hvisit]
    exact .stay
  | rotate =>
    obtain ⟨records, hrenews, hview⟩ := renewed_of_rotate hkeyed hvisit
    rw [hview]
    exact .resign secret records hrenews

variable [DecidableEq ι] {system system' : System ι (Shared ι)}

theorem Attended.served {server : Server ι} (h : Attended contents dir ⟨s, some server⟩)
    {threads : ι → Peer × Program Ans (Except Handler.Error Unit)}
    (hstep : Pool.Step ((machine contents).perform server.cache.ingest.key) ⟨s, server.threads⟩
      ⟨s', threads⟩) : s.view.Served contents s'.view := by
  have hafter := keeps_provenance.step h.kept (.turn hstep)
  obtain @⟨l, l', _, op, next, answer, i, hthread, hop⟩ := hstep
  obtain ⟨hand, hgrips, hfinds, hfollows⟩ := h.conducted server rfl i
  dsimp only at hthread hgrips hfollows
  rw [hthread] at hfollows
  exact served_of_allows hgrips hfinds hfollows.1 h.kept.2.valid.1 hafter.2.valid.2 hop

/-- Every step of a life is one of the changes. -/
theorem Attended.change (h : Attended contents dir system)
    (hstep : System.Step (machine contents) dir system system') :
    View.Change contents dir system.shared.view system'.shared.view := by
  cases hstep with
  | @boot s s' peer peer' cache pid i hdir hrun =>
    have hview : s'.view = (restart pid s).view :=
      view_of_visits (starting_serve.imp fun _ ↦ .inl) hrun.visits
    dsimp only
    rw [hview]
    exact .stay
  | accept i peer' shard turns hdone => exact .stay
  | turn hstep => exact .served (h.served hstep)
  | kill => exact .stay
  | @command s s' peer peer' command secret pid i hvisit =>
    have hrestart : View.Change contents dir (restart pid s).view s'.view :=
      change_of_command h.keyed hvisit
    exact hrestart

theorem Attended.step (h : Attended contents dir system)
    (hstep : System.Step (machine contents) dir system system') :
    Attended contents dir system' := by
  refine ⟨keeps_provenance.step h.kept hstep, (h.change hstep).keyed h.keyed, ?_⟩
  cases hstep with
  | boot cache pid i hdir hrun =>
    rintro server ⟨⟩ j
    exact ⟨{}, grips_empty j _, fun _ h ↦ absurd h (by simp), trivial⟩
  | @accept s server peer result i peer' shard turns hdone =>
    rintro server' ⟨⟩ j
    by_cases hj : j = i
    · subst hj
      dsimp only
      rw [Function.update_self]
      exact ⟨{}, grips_empty j s, fun _ h ↦ absurd h (by simp),
        Cache.follows_session shard turns {}⟩
    · dsimp only
      rw [Function.update_of_ne hj]
      exact h.conducted server rfl j
  | @turn s s' server threads hstep =>
    rintro server' ⟨⟩ j
    have hrows := (h.served hstep).nar
    obtain ⟨-, hok⟩ := h.kept
    obtain @⟨l, l', _, op, next, answer, i, hthread, hop⟩ := hstep
    by_cases hj : j = i
    · subst hj
      obtain ⟨hand, hgrips, hfinds, hfollows⟩ := h.conducted server rfl j
      dsimp only at hthread hgrips hfollows ⊢
      rw [hthread] at hfollows
      rw [Function.update_self]
      exact ⟨_, hgrips.next hfollows.1 hop, hfinds.next hrows hop, hfollows.2 answer⟩
    · obtain ⟨hand, hgrips, hfinds, hfollows⟩ := h.conducted server rfl j
      have hsafe := hok.safe i
      dsimp only at hthread hsafe ⊢
      rw [hthread] at hsafe
      have hothers := (hsafe s (Protocol.rely_refl _ i s) hok.valid answer s' l' hop).2.1 j hj
      rw [Function.update_of_ne hj]
      exact ⟨hand, hgrips.later hothers.1, hfinds.later hrows, hfollows⟩
  | kill => rintro server ⟨⟩
  | command command secret pid i hvisit => rintro server ⟨⟩

theorem attended_of_steps (hsteps : System.Steps (machine contents) dir ⟨blank, none⟩ system) :
    Attended contents dir system := by
  induction hsteps with
  | refl =>
    refine ⟨shelved_blank, fun key record h ↦ ?_, ?_⟩
    · exact absurd h (by simp [view, blank])
    · rintro server ⟨⟩
  | tail _ hstep ih => exact ih.step hstep

/-- What holds between a view and each change of it holds between any two states of a life. -/
theorem related_of_steps {R : View → View → Prop} (hrefl : ∀ view, R view view)
    (htrans : ∀ {a b c : View}, R a b → R b c → R a c)
    (hsteps : System.Steps (machine contents) dir ⟨blank, none⟩ system)
    (hchange : ∀ {t t' : System ι (Shared ι)},
      System.Steps (machine contents) dir ⟨blank, none⟩ t →
      System.Steps (machine contents) dir ⟨blank, none⟩ t' →
      View.Change contents dir t.shared.view t'.shared.view →
      R t.shared.view t'.shared.view)
    (hlater : System.Steps (machine contents) dir system system') :
    R system.shared.view system'.shared.view := by
  induction hlater with
  | refl => exact hrefl _
  | tail hmid hstep ih =>
    have hreached := hsteps.trans hmid
    exact htrans ih (hchange hreached (hreached.tail hstep)
      ((attended_of_steps hreached).change hstep))

end Shared

/-! ## What every change keeps -/

/-- What is asked of a property of views so that it holds in every state of every life: it is kept
by what a server does, given that the records that are published are good ones, and by what commands
do. -/
structure View.Lasting [Crates] (contents : Set Bytes) (dir : Dir) (inv : View → Prop)
    (good : NarInfo → Prop) : Prop where
  commit : ∀ {view : View} {artifact : Bytes}, inv view → artifact ∈ contents →
    inv (view.commit ⟨.digest artifact, storedAs⟩ (.of artifact))
  putNar : ∀ {view : View} {artifact : Bytes} (narHash : Sha256) (narSize : ℕ+), inv view →
    artifact ∈ contents →
    inv (view.putNar narHash ⟨.digest artifact, artifact.length, narSize, storedAs⟩)
  publishable : ∀ {view : View} {ingest : Ingest} {body : Text} {declared : NarInfo}
    {entry : Entry}, inv view → ingest.dir = dir →
    ingest.Publishable view.nar body declared entry → good (ingest.record declared entry)
  resigned : ∀ {view : View} {k : StorePath.Hash} {record : NarInfo} (key : SecretKey), inv view →
    view.narinfo k = some record → good (record.resign dir key)
  publish : ∀ {view : View} {record : NarInfo} (key : SecretKey), inv view → good record →
    inv (view.publish record key)
  unpublish : ∀ {view : View} (k : StorePath.Hash), inv view → inv (view.unpublish k)

namespace Shared

variable [Crates] {ι : Type} {contents : Set Bytes} {dir : Dir} {inv : View → Prop}
  {good : NarInfo → Prop}

/-- The protocol that asks for nothing but a property of views. -/
def upholding (ι : Type) (inv : View → Prop) : Protocol ι View where
  valid := inv
  rely _ _ _ := True
  rely_refl _ _ := trivial
  rely_trans _ _ := trivial

theorem permits_of_lasting (h : View.Lasting contents dir inv good) {ingest : Ingest}
    (hdir : ingest.dir = dir) (i : ι) : Permits (upholding ι inv) contents i ingest where
  store := by
    rintro chunks artifact narSize hmem - - v v₁ - hvalid
    refine ⟨h.commit hvalid hmem, fun _ _ ↦ trivial, ?_⟩
    rintro v₂ - - v₃ - hvalid₃
    exact ⟨h.putNar _ _ hvalid₃ hmem, fun _ _ ↦ trivial, fun _ _ _ ↦ trivial⟩
  publish := by
    rintro body declared entry v hvalid hpublishable v₁ - hvalid₁
    exact ⟨h.publish _ hvalid₁ (h.publishable hvalid hdir hpublishable), fun _ _ ↦ trivial,
      fun _ _ _ ↦ trivial⟩

theorem endures_of_lasting (h : View.Lasting contents dir inv good) (key : SecretKey) :
    Endures dir key (fun s : Shared ι ↦ inv s.view ∧ Flat s) fun _ ↦ good where
  upkeep := by
    rintro env contents i s s' p p' op answer ⟨hinv, hflat⟩ hupkeep hstep
    refine ⟨?_, hflat.clears (clears_of_upkeep hupkeep hstep)⟩
    obtain ⟨-, hview | ⟨k, -, hview⟩⟩ := view_of_upkeep hupkeep hstep
    · exact hview ▸ hinv
    · exact hview ▸ h.unpublish k hinv
  resigned hinv hrow := h.resigned key hinv.1 hrow
  publishes := by
    rintro s s' records ⟨hinv, hflat⟩ hrecords hfs hview
    refine ⟨?_, by rwa [Flat, hfs]⟩
    have hall : ∀ view, inv view → inv (records.foldl (·.publish · key) view) := by
      clear hview
      induction records with
      | nil => exact fun view hview ↦ hview
      | cons record records ih =>
        intro view hview
        refine ih (fun record' hmem ↦ hrecords record' (List.mem_cons_of_mem record hmem)) _ ?_
        exact h.publish key hview (hrecords record List.mem_cons_self)
    rw [hview]
    exact hall _ hinv

theorem keeps_of_lasting (h : View.Lasting contents dir inv good) :
    (machine contents : Machine ι (Shared ι)).Keeps dir (protocol (upholding ι inv))
      fun s ↦ inv s.view ∧ Flat s where
  boots := by
    rintro cache pid i s p s' p' - ⟨hinv, hflat⟩ hrun
    have hview : s'.view = (restart pid s).view :=
      view_of_visits (starting_serve.imp fun _ ↦ .inl) hrun.visits
    exact ⟨staging_of_boot hflat hrun, hview ▸ hinv⟩
  serves := by
    intro cache shard turns i p s hdir
    refine (upholds_session (permits_of_lasting h hdir i) shard turns _ ?_).imp
      fun _ _ _ _ _ ↦ trivial
    exact fun henv ↦ absurd henv (by decide)
  dies := fun ⟨hstaging, hinv⟩ ↦ ⟨hinv, hstaging.flat⟩
  commands := by
    rintro command secret pid i s p s' p' ⟨hinv, hflat⟩ hvisit
    have hrestart : inv (restart pid s).view ∧ Flat (restart pid s) := ⟨hinv, hflat⟩
    exact (endures_of_lasting h secret).command hrestart hvisit

theorem lasting_of_steps [DecidableEq ι] (h : View.Lasting contents dir inv good)
    (hblank : inv (blank : Shared ι).view) {system : System ι (Shared ι)}
    (hsteps : System.Steps (machine contents) dir ⟨blank, none⟩ system) :
    inv system.shared.view := by
  have hshelved : Shelved contents (blank : Shared ι) := shelved_blank
  exact ((keeps_of_lasting h).reachable ⟨hblank, hshelved.2⟩ hsteps).1

end Shared

/-! ## While a server runs -/

/-- A step of a running server, after which it still runs. -/
def System.Serves {ι S : Type} [DecidableEq ι] [Crates] (machine : Machine ι S) (dir : Dir)
    (system system' : System ι S) : Prop :=
  system.server.isSome ∧ system'.server.isSome ∧ System.Step machine dir system system'

theorem System.serves_of_session {ι S : Type} [DecidableEq ι] [Crates] {machine : Machine ι S}
    {dir : Dir} {s s' : S} {server : Server ι} {i : ι} {peer peer' peer'' : Peer}
    {before result : Except Handler.Error Unit} {shard turns : ℕ}
    (hdone : server.threads i = (peer, .done before))
    (hrun : (server.cache.session shard turns {}).run.Runs
      (machine.perform server.cache.ingest.key i) (s, peer') result (s', peer'')) :
    Relation.ReflTransGen (System.Serves machine dir) ⟨s, some server⟩ ⟨s', some { server with
      threads := Function.update server.threads i (peer'', .done result) }⟩ := by
  refine .head ⟨rfl, rfl, .accept i peer' shard turns hdone⟩ ?_
  let connected : Server ι := { server with
    threads := Function.update server.threads i (peer', (server.cache.session shard turns {}).run) }
  have hthread : connected.threads i = (peer', (server.cache.session shard turns {}).run) :=
    Function.update_self ..
  let lift (pool : Pool Ans ι S Peer (Except Handler.Error Unit)) : System ι S :=
    ⟨pool.shared, some { server with threads := pool.threads }⟩
  have hturns : Pool.Steps (machine.perform server.cache.ingest.key) ⟨s, connected.threads⟩
      ⟨s', Function.update connected.threads i (peer'', .done result)⟩ :=
    Pool.steps_of_runs hthread hrun
  have hserves := hturns.lift (p := System.Serves machine dir) lift
    fun _ _ hstep ↦ ⟨rfl, rfl, .turn hstep⟩
  dsimp only [lift, connected] at hserves
  rw [Function.update_idem] at hserves
  exact hserves

namespace Shared

variable [Crates] {ι : Type} [DecidableEq ι] {contents : Set Bytes} {dir : Dir}
  {system system' : System ι (Shared ι)}

theorem steps_of_serves
    (h : Relation.ReflTransGen (System.Serves (machine contents) dir) system system') :
    System.Steps (machine contents) dir system system' :=
  Relation.ReflTransGen.mono (fun _ _ hstep ↦ hstep.2.2) _ _ h

/-- What holds between a view and what a server makes of it holds as long as the server runs. -/
theorem related_of_serves {R : View → View → Prop} (hrefl : ∀ view, R view view)
    (htrans : ∀ {a b c : View}, R a b → R b c → R a c)
    (hsteps : System.Steps (machine contents) dir ⟨blank, none⟩ system)
    (hserved : ∀ {t t' : System ι (Shared ι)},
      System.Steps (machine contents) dir ⟨blank, none⟩ t →
      System.Steps (machine contents) dir ⟨blank, none⟩ t' →
      t.shared.view.Served contents t'.shared.view → R t.shared.view t'.shared.view)
    (hserves : Relation.ReflTransGen (System.Serves (machine contents) dir) system system') :
    R system.shared.view system'.shared.view := by
  induction hserves with
  | refl => exact hrefl _
  | tail hmid hstep ih =>
    have hreached := hsteps.trans (steps_of_serves hmid)
    obtain ⟨hfrom, hto, hstep⟩ := hstep
    refine htrans ih (hserved hreached (hreached.tail hstep) ?_)
    cases hstep with
    | boot => exact absurd hfrom (by simp)
    | accept => exact .stay
    | turn hstep => exact (attended_of_steps hreached).served hstep
    | kill => exact absurd hto (by simp)
    | command => exact absurd hfrom (by simp)

variable {artifacts : List Bytes} {choose : Op → Choice} {cache : Cache}

theorem serves_of_serveEach (hartifacts : ∀ data ∈ artifacts, data ∈ contents)
    {unread : List Bytes} {s s' : Shared ℕ}
    {threads : ℕ → Peer × Program Ans (Except Handler.Error Unit)}
    (hdone : ∀ i, ∃ peer result, threads i = (peer, .done result))
    (h : serveEach artifacts choose cache unread s = some s') :
    ∃ threads', (∀ i, ∃ peer result, threads' i = (peer, .done result))
      ∧ Relation.ReflTransGen (System.Serves (machine contents) cache.ingest.dir)
        ⟨s, some ⟨cache, threads⟩⟩ ⟨s', some ⟨cache, threads'⟩⟩ := by
  induction unread generalizing s threads with
  | nil =>
    obtain rfl := Option.some.inj h
    exact ⟨threads, hdone, .refl⟩
  | cons unread rest ih =>
    obtain ⟨⟨result, s₁, peer₁⟩, heval, hrest⟩ := Option.bind_eq_some_iff.mp h
    have hallows : ∀ op, Env.hostile.Allows (choose op) := fun _ ↦ trivial
    have hrun := runs_of_attempt hartifacts hallows heval
    obtain ⟨peer, before, hthread⟩ := hdone 0
    have hserved : Relation.ReflTransGen (System.Serves (machine contents) cache.ingest.dir)
        ⟨s, some ⟨cache, threads⟩⟩
        ⟨s₁, some ⟨cache, Function.update threads 0 (peer₁, .done result)⟩⟩ :=
      System.serves_of_session hthread hrun
    have hlater : ∀ i, ∃ peer before,
        Function.update threads 0 (peer₁, .done result) i = (peer, .done before) := by
      intro i
      by_cases hi : i = 0
      · subst hi
        exact ⟨peer₁, result, Function.update_self ..⟩
      · rw [Function.update_of_ne hi]
        exact hdone i
    obtain ⟨threads', hdone', hserves⟩ := ih hlater hrest
    exact ⟨threads', hdone', hserved.trans hserves⟩

/-- What is served is served by one server, which found things as they were, and to its end. -/
theorem serves_of_serveAll (hartifacts : ∀ data ∈ artifacts, data ∈ contents) {pid : ℕ}
    {unread : List Bytes} {s s' : Shared ℕ}
    (h : serveAll artifacts choose cache pid unread s = some s') :
    ∃ booted threads, System.Steps (machine contents) cache.ingest.dir ⟨s, none⟩ booted
      ∧ booted.shared.view = s.view ∧ (∀ i, ∃ peer result, threads i = (peer, .done result))
      ∧ Relation.ReflTransGen (System.Serves (machine contents) cache.ingest.dir) booted
        ⟨s', some ⟨cache, threads⟩⟩ := by
  rw [serveAll] at h
  split at h
  · next s₁ peer heval =>
    have hidle : ∀ i, ∃ peer result, System.idle (i : ℕ) = (peer, .done result) :=
      fun _ ↦ ⟨_, _, rfl⟩
    obtain ⟨threads, hdone, hserves⟩ := serves_of_serveEach hartifacts hidle h
    have hallows : ∀ op, Env.hostile.Allows (choose op) := fun _ ↦ trivial
    have hrun := runs_of_attempt hartifacts hallows heval
    have hview : s₁.view = (restart pid s).view :=
      view_of_visits (starting_serve.imp fun _ ↦ .inl) hrun.visits
    exact ⟨_, threads, .single (.boot cache pid 0 rfl hrun), hview, hdone, hserves⟩
  · exact absurd h (by simp)

end Shared

end Bincache
