import Bincache.Ingest.Reconciling
import Bincache.Lifetime
import Bincache.Serve.Description

/-!
# What may be deleted

A reconciliation looks at the records and calls every other artifact an orphan. A probe and a
publish look at the NAR rows. `Backed` is what both sides rely on, and `backing` the protocol that
keeps it: an artifact that is there stays there. So the deletion of an orphan is harmless as long as
it is no NAR row's artifact, and where it is one, the row goes on telling clients that they need not
upload.
-/

namespace Bincache

/-- Every row of either table names an artifact that is there. -/
structure Backed (view : View) : Prop where
  records : ∀ key record, view.narinfo key = some record → view.artifact record.nar ≠ none
  entries : ∀ narHash entry, view.nar narHash = some entry → view.artifact entry.url ≠ none

/-- Artifacts stay. -/
def View.Holds (view view' : View) : Prop :=
  ∀ url, view.artifact url ≠ none → view'.artifact url ≠ none

/-- How the participants of a cache share the artifacts its rows name. -/
def backing {ι : Type} : Protocol ι View where
  valid := Backed
  rely _ view view' := view.Holds view'
  rely_refl _ _ _ h := h
  rely_trans hab hbc url h := hbc url (hab url h)

variable {view view' : View}

theorem Backed.holds (h : Backed view) (hnarinfo : view'.narinfo = view.narinfo)
    (hnar : view'.nar = view.nar) (hholds : view.Holds view') : Backed view' where
  records key record hrow := hholds _ (h.records key record (hnarinfo ▸ hrow))
  entries narHash entry hrow := hholds _ (h.entries narHash entry (hnar ▸ hrow))

theorem View.holds_commit (view : View) (url : NarUrl) (file : File) :
    view.Holds (view.commit url file) := by
  intro url' hurl'
  rw [View.artifact_commit]
  split
  · exact Option.some_ne_none _
  · exact hurl'

theorem Backed.putNar (h : Backed view) {narHash : Sha256} {entry : Entry}
    (hentry : view.artifact entry.url ≠ none) : Backed (view.putNar narHash entry) where
  records := h.records
  entries narHash' entry' hrow := by
    rw [View.putNar] at hrow
    dsimp only at hrow
    rw [Function.update_apply] at hrow
    split at hrow
    · obtain rfl := Option.some.inj hrow
      exact hentry
    · exact h.entries narHash' entry' hrow

theorem Backed.publish (h : Backed view) {record : NarInfo} {key : SecretKey}
    (hrecord : view.artifact record.nar ≠ none) : Backed (view.publish record key) where
  records key' record' hrow := by
    rw [View.publish] at hrow
    dsimp only at hrow
    rw [Function.update_apply] at hrow
    split at hrow
    · obtain rfl := Option.some.inj hrow
      exact hrecord
    · exact h.records key' record' hrow
  entries := h.entries

theorem Backed.unpublish (h : Backed view) (key : StorePath.Hash) :
    Backed (view.unpublish key) := by
  rw [View.unpublish]
  split
  · exact h
  · exact ⟨fun key' record' hrow ↦ h.records key' record' (of_update_none hrow),
      fun narHash' entry' hrow ↦ h.entries narHash' entry' (of_update_none hrow)⟩

namespace Shared

variable [Crates] {ι : Type} {contents : Set Bytes} {dir : Dir} {env : Env} {key : SecretKey}
  {i : ι} {s s' : Shared ι} {p p' : Peer}

theorem permits_backing (i : ι) (ingest : Ingest) : Permits backing contents i ingest where
  store := by
    rintro chunks artifact narSize - - - v v₁ - hbacked
    have hholds := v₁.holds_commit ⟨.digest artifact, storedAs⟩ (.of artifact)
    refine ⟨hbacked.holds rfl rfl hholds, fun j _ ↦ hholds, ?_⟩
    rintro v₂ hv₂ - v₃ hv₃ hbacked₃
    have hpresent : v₃.artifact ⟨.digest artifact, storedAs⟩ ≠ none := by
      refine hv₃ _ (hv₂ _ ?_)
      rw [View.artifact_commit, if_pos rfl]
      exact Option.some_ne_none _
    exact ⟨hbacked₃.putNar hpresent, fun _ _ _ h ↦ h, fun _ _ _ ↦ trivial⟩
  publish := by
    rintro body declared entry v hbacked hpublishable v₁ hv₁ hbacked₁
    have hpresent := hv₁ _ (hbacked.entries _ _ hpublishable.stored)
    exact ⟨hbacked₁.publish hpresent, fun _ _ _ h ↦ h, fun _ _ _ ↦ trivial⟩

/-- Every row is backed, and the staging directory holds files only. -/
structure Sound (s : Shared ι) : Prop where
  backed : Backed s.view
  flat : Flat s

omit [Crates] in
theorem Sound.upkeep {op : Op} {answer : Ans op} (hs : Sound s) (hupkeep : op.Upkeep)
    (h : step env contents key i op (s, p) answer (s', p')) : Sound s' := by
  have hflat := hs.flat.clears (clears_of_upkeep hupkeep h)
  obtain ⟨-, hview | ⟨k, -, hview⟩⟩ := view_of_upkeep hupkeep h
  · exact ⟨hview ▸ hs.backed, hflat⟩
  · exact ⟨hview ▸ hs.backed.unpublish k, hflat⟩

theorem endures_sound : Endures dir key (Sound : Shared ι → Prop)
    (fun tree record ↦ tree (Store.path record.nar) ≠ none) where
  upkeep := Sound.upkeep
  resigned := by
    intro s k record hs hrow
    exact hs.backed.records k record hrow
  publishes := by
    intro s s' records hs hrecords hfs hview
    have hall : ∀ (records : List NarInfo) (view : View), Backed view →
        (∀ record ∈ records, view.artifact record.nar ≠ none) →
        Backed (records.foldl (·.publish · key) view) := by
      intro records
      induction records with
      | nil => exact fun view h _ ↦ h
      | cons record records ih =>
        intro view h hrecords
        obtain ⟨hrecord, hrecords⟩ := List.forall_mem_cons.mp hrecords
        exact ih _ (h.publish hrecord) hrecords
    refine ⟨hview ▸ hall records _ hs.backed hrecords, ?_⟩
    rw [Flat, hfs]
    exact hs.flat

/-- Rows stay backed, whatever the processes do and wherever they die. -/
theorem keeps_backing : (machine contents : Machine ι (Shared ι)).Keeps dir (protocol backing)
    Sound where
  boots := by
    intro cache pid i s p s' p' hdir hs hrun
    have hrestart : Sound (restart pid s) := ⟨hs.backed, hs.flat⟩
    let held (site : Shared ι × Peer) : Prop := Sound site.1
    have hstart : held (restart pid s, p) := hrestart
    have hfinal : held (s', p') := upkeep_serve.visits
      (fun op t answer t' hupkeep ht hop ↦ Sound.upkeep ht hupkeep hop) hstart hrun.visits
    exact ⟨staging_of_boot hs.flat hrun, hfinal.backed⟩
  serves := by
    intro cache shard turns i p s hdir
    refine (upholds_session (permits_backing i cache.ingest) shard turns _ ?_).imp
      fun _ _ _ _ _ ↦ trivial
    exact fun henv ↦ absurd henv (by decide)
  dies := fun ⟨hstaging, hbacked⟩ ↦ ⟨hbacked, hstaging.flat⟩
  commands := by
    intro command secret pid i s p s' p' hs hvisit
    have hrestart : Sound (restart pid s) := ⟨hs.backed, hs.flat⟩
    exact endures_sound.command hrestart hvisit

omit [Crates] in
theorem sound_blank : Sound (blank : Shared ι) :=
  ⟨⟨fun key record h ↦ absurd h (by simp [view, blank]),
    fun narHash entry h ↦ absurd h (by simp [view, blank])⟩,
    fun path inode h ↦ absurd h (by simp [blank, FileSystem.empty])⟩

end Shared

/-! ## Deletions -/

def Store.removeAll (urls : List NarUrl) : Call Store.Error Unit :=
  urls.forM fun url ↦ do
    let _ ← Store.remove url
    pure ()

namespace Shared

open Attempt

variable {ι : Type} {contents : Set Bytes} {dir : Dir} {key : SecretKey} {i : ι} {s s' : Shared ι}
  {p p' : Peer}

/-- These artifacts are gone, and nothing else changed. -/
structure Removed (urls : List NarUrl) (s s' : Shared ι) : Prop where
  index : s'.1.index = s.1.index
  ledger : s'.2 = s.2
  clears : Clears s s'
  artifact : ∀ url, s'.view.artifact url = if url ∈ urls then none else s.view.artifact url

theorem attains_remove (url : NarUrl) : Attains .fair contents key i (Store.remove url).run
    (fun result s' ↦ (∃ removed, result = .ok removed) ∧ Removed [url] s s') p s := by
  have hgone : ∀ {s' : Shared ι}, s'.1.index = s.1.index → s'.2 = s.2 → Clears s s' →
      (∀ path, s'.1.fs.lookup path = if path = Store.path url then none else s.1.fs.lookup path) →
      Removed [url] s s' := by
    intro s' hindex hledger hclears hlookup
    refine ⟨hindex, hledger, hclears, fun url' ↦ ?_⟩
    rw [artifact_view, artifact_view, hlookup]
    simp only [List.mem_singleton, Store.path_injective.eq_iff]
  refine safe_bind (safe_result (Program.safe_alone_call.mpr fun answer s₁ p₁ hop ↦ ?_))
  obtain ⟨hstep, hledger, -⟩ := hop
  obtain ⟨rfl, hsite, hnone⟩ | ⟨rfl, hsite⟩ := of_step_remove_fair hstep
  · obtain ⟨hworld, -⟩ := Prod.mk.inj hsite
    refine Program.safe_alone_done.mpr (Program.safe_alone_done.mpr
      ⟨⟨_, rfl⟩, hgone (by rw [hworld]) hledger ?_ fun path ↦ ?_⟩)
    · rw [Clears, hworld]
      exact fun _ _ hlink ↦ hlink
    · rw [hworld]
      split
      · next hpath => rw [hpath, hnone]
      · rfl
  · obtain ⟨hworld, -⟩ := Prod.mk.inj hsite
    refine Program.safe_alone_done.mpr (Program.safe_alone_done.mpr
      ⟨⟨_, rfl⟩, hgone (by rw [hworld]) hledger ?_ fun path ↦ ?_⟩)
    · rw [Clears, hworld]
      intro path inode hlink
      dsimp only at hlink
      rw [FileSystem.links_unlink, Table.lookup_erase_eq] at hlink
      split at hlink
      · exact absurd hlink (by simp)
      · exact hlink
    · rw [hworld]
      exact FileSystem.lookup_unlink _ _

theorem attains_removeAll (urls : List NarUrl) : Attains .fair contents key i
    (Store.removeAll urls).run (fun result s' ↦ result = .ok () ∧ Removed urls s s') p s := by
  induction urls generalizing p s with
  | nil => exact Program.safe_alone_done.mpr ⟨rfl, rfl, rfl, clears_refl s, fun _ ↦ rfl⟩
  | cons url urls ih =>
    rw [Store.removeAll, List.forM_eq_forM, List.forM_cons, ← List.forM_eq_forM]
    refine safe_bind (safe_bind ((attains_remove url).imp ?_))
    rintro result p₁ s₁ - ⟨⟨removed, rfl⟩, hfirst⟩
    refine Program.safe_alone_done.mpr (ih.imp ?_)
    rintro result p₂ s₂ - ⟨rfl, hrest⟩
    refine ⟨rfl, hrest.index.trans hfirst.index, hrest.ledger.trans hfirst.ledger,
      hfirst.clears.trans hrest.clears, fun url' ↦ ?_⟩
    rw [hrest.artifact, hfirst.artifact]
    by_cases hurl : url' ∈ urls
    · rw [if_pos hurl, if_pos (List.mem_cons_of_mem url hurl)]
    · rw [if_neg hurl]
      simp only [List.mem_cons, List.not_mem_nil, hurl, or_false]

/-- What a reconciliation calls an orphan is named by no record. -/
theorem attains_reconcile [Crates] {env : Env} : Attains env contents key i Maintain.reconcile.run
    (fun result s' ↦ Same s s' ∧ ∀ found, result = .ok found → ∀ url ∈ found.orphanArtifacts,
      ∀ k record, s.1.index.narinfo k = some record → record.nar ≠ url) p s := by
  have hscan : Attains env contents key i Store.scan.run (fun _ s' ↦ Same s s') p s := by
    refine Program.safe_alone_iff.mpr fun value s' p' hrun ↦ ?_
    let inv (site : Shared ι × Peer) : Prop := Same s site.1
    have hstart : inv (s, p) := same_refl s
    have hfinal : inv (s', p') := quiet_scan.runs
      (fun op t answer t' hquiet ht hop ↦ ht.trans (same_of_quiet hquiet hop)) hstart hrun
    exact hfinal
  refine safe_bind (safe_context (hscan.imp ?_))
  rintro (error | scan) p₁ s₁ - hsame₁
  · exact ⟨hsame₁, fun found heq ↦ absurd heq (by rintro ⟨⟩)⟩
  refine safe_bind (safe_context (Program.safe_alone_call.mpr fun answer s₂ p₂ hop ↦
    Program.safe_alone_done.mpr ?_))
  have hlists : Op.Quiet (.index .records) := trivial
  have hsame₂ := hsame₁.trans (same_of_quiet hlists hop)
  obtain ⟨-, rfl, -⟩ | ⟨rfl, -⟩ := of_step_index hop.1
  · exact ⟨hsame₂, fun found heq ↦ absurd heq (by rintro ⟨⟩)⟩
  refine Program.safe_alone_done.mpr ⟨hsame₂, ?_⟩
  rintro found ⟨⟩ url hurl k record hrow rfl
  have hunclaimed := of_decide_eq_true (List.mem_filter.mp hurl).2
  refine hunclaimed (List.mem_map.mpr ⟨record, Index.mem_records.mpr ⟨k, ?_⟩, rfl⟩)
  rw [hsame₁.index]
  exact hrow

/-- A record is published, and whoever asks for the artifact it names is told there is none. -/
def Strands [Crates] (cache : Cache) (world : World) : Prop := ∃ k record exchange,
  world.index.narinfo k = some record ∧ exchange.request.method = .get
    ∧ Route.resolve exchange.request.target = .ok (.nar record.nar)
    ∧ (cache.readMessage exchange world).reply.status = .notFound

theorem not_strands [Crates] {cache : Cache} (h : Backed s.view) : ¬Strands cache s.1 := by
  rintro ⟨k, record, exchange, hrow, hmethod, hroute, hstatus⟩
  have hpresent := h.records k record hrow
  rw [artifact_view] at hpresent
  obtain ⟨file, hfile⟩ := Option.ne_none_iff_exists'.mp hpresent
  rw [Cache.readMessage, hroute] at hstatus
  dsimp only at hstatus
  rw [hmethod, if_neg (show Http.Method.get ≠ .head by decide), hfile,
    Cache.streamMessage] at hstatus
  -- whatever is answered for a file, it is not that there is none
  split at hstatus
  · cases hstatus
  split at hstatus
  · cases hstatus
  split at hstatus
  · rw [Cache.spanMessage] at hstatus
    dsimp only at hstatus
    split at hstatus <;> cases hstatus
  · cases hstatus

/-- Nothing that anybody relies on is missing, and whatever is done from here on, no client will be
sent to an artifact that is missing. -/
structure Harmless [Crates] [DecidableEq ι] (contents : Set Bytes) (dir : Dir) (s : Shared ι) :
    Prop where
  backed : Backed s.view
  later : ∀ (cache : Cache) (system : System ι (Shared ι)),
    System.Steps (machine contents) dir ⟨s, none⟩ system → ¬Strands cache system.shared.1

theorem harmless_iff [Crates] [DecidableEq ι]
    (hsteps : System.Steps (machine contents) dir ⟨blank, none⟩ ⟨s, none⟩)
    {found : Maintain.Reconciliation} {s₁ : Shared ι} {p₁ : Peer}
    (hfound : Maintain.reconcile.run.Runs (step .fair contents key i) (s, p) (.ok found) (s₁, p₁))
    {urls : List NarUrl} (horphans : ∀ url ∈ urls, url ∈ found.orphanArtifacts)
    (hremove : (Store.removeAll urls).run.Runs (step .fair contents key i) (s₁, p₁) (.ok ())
      (s', p')) :
    Harmless contents dir s' ↔ ∀ url ∈ urls, ∀ narHash entry,
      s.1.index.nar narHash = some entry → entry.url ≠ url := by
  have hsound : Sound s := keeps_backing.reachable sound_blank hsteps
  obtain ⟨-, hsame, horphan⟩ := attains_reconcile.runs trivial hfound
  obtain ⟨-, -, hremoved⟩ := (attains_removeAll urls).runs trivial hremove
  have hnarinfo : ∀ k, s'.view.narinfo k = s.1.index.narinfo k := by
    intro k
    rw [view, hremoved.index, hsame.index]
  have hnar : ∀ narHash, s'.view.nar narHash = s.1.index.nar narHash := by
    intro narHash
    rw [view, hremoved.index, hsame.index]
  constructor
  · -- a row that names a removed artifact is not backed any more
    rintro hharmless url hurl narHash entry hrow rfl
    refine hharmless.backed.entries narHash entry ((hnar narHash).trans hrow) ?_
    rw [hremoved.artifact, if_pos hurl]
  · intro hunnamed
    have hkept : ∀ url, url ∉ urls → s.view.artifact url ≠ none → s'.view.artifact url ≠ none := by
      intro url hurl hpresent
      rw [hremoved.artifact, if_neg hurl, hsame.view]
      exact hpresent
    have hbacked : Backed s'.view := by
      refine ⟨fun k record hrow ↦ ?_, fun narHash entry hrow ↦ ?_⟩
      · -- no record names an orphan, for that is what makes it one
        rw [hnarinfo] at hrow
        refine hkept _ (fun hurl ↦ ?_) (hsound.backed.records k record hrow)
        exact horphan found rfl _ (horphans _ hurl) k record hrow rfl
      · rw [hnar] at hrow
        refine hkept _ (fun hurl ↦ ?_) (hsound.backed.entries narHash entry hrow)
        exact hunnamed _ hurl narHash entry hrow rfl
    have hflat : Flat s' := by
      refine Flat.clears ?_ hremoved.clears
      rw [Flat, hsame.fs]
      exact hsound.flat
    exact ⟨hbacked, fun cache system hlater ↦
      not_strands (keeps_backing.reachable ⟨hbacked, hflat⟩ hlater).backed⟩

end Shared

/-! ## Deletions, evaluated -/

section Specimen

open Specimen Shared

namespace Specimen

def shelf (url : NarUrl) : Bytes := Text.utf8 (url.name.take Store.shardLen)

/-- Nothing fails, and directories list these artifacts, each in a shard of its own. -/
def listing (urls : List NarUrl) : Op → Choice
  | .file (.readDir path) => { names :=
      if path = [Store.artifacts] then urls.map shelf
      else (urls.filter (path = [Store.artifacts, shelf ·])).map (Text.utf8 ·.name) }
  | _ => {}

theorem fair_listing (urls : List NarUrl) (op : Op) : Env.fair.Allows (listing urls op) := by
  rw [listing.eq_def]
  split
  · rfl
  · rfl

/-- Reads deliver all there is, every directory is empty, and the row of the specimen cannot be
written. -/
def rowless : Op → Choice
  | .index (.putNar narHash entry) =>
    if narHash = ⟨narDigest⟩ then { fails := true } else plain (.index (.putNar narHash entry))
  | op => plain op

section Tidy

variable {artifacts : List Bytes} {urls : List NarUrl} {unread : List Bytes}

def perform {ε α : Type} (artifacts : List Bytes) (urls : List NarUrl) (program : Call ε α)
    (site : Shared ℕ × Peer) : Option (α × Shared ℕ × Peer) :=
  match program.run.evaluate (Shared.attempt artifacts (listing urls) key 0) site with
  | some (.ok value, site') => some (value, site')
  | _ => none

theorem runs_of_perform {contents : Set Bytes} (hartifacts : ∀ data ∈ artifacts, data ∈ contents)
    {ε α : Type} {program : Call ε α} {site site' : Shared ℕ × Peer} {value : α}
    (h : perform artifacts urls program site = some (value, site')) :
    program.run.Runs (Shared.step .fair contents key 0) site (.ok value) site' := by
  rw [perform] at h
  split at h
  · next heval =>
    obtain ⟨rfl, rfl⟩ := Prod.mk.inj (Option.some.inj h)
    exact runs_of_attempt hartifacts (fair_listing urls) heval
  · exact absurd h (by simp)

/-- Serves some connections, stops the server, and deletes the artifact of the specimen if it is
reported as an orphan. -/
def tidy (artifacts : List Bytes) (urls : List NarUrl) (choose : Op → Choice)
    (unread : List Bytes) : Option (Shared ℕ × Maintain.Reconciliation
      × (Shared ℕ × Peer) × Shared ℕ × Peer) := do
  let s ← serveAll artifacts choose cache 7 unread blank
  let (found, site) ← perform artifacts urls Maintain.reconcile (s, ⟨[], []⟩)
  if entry.url ∈ found.orphanArtifacts then
    let (_, site') ← perform artifacts urls (Store.removeAll [entry.url]) site
    some (s, found, site, site')
  else none

theorem of_tidy {contents : Set Bytes} (hartifacts : ∀ data ∈ artifacts, data ∈ contents)
    {choose : Op → Choice} {s s₁ s₂ : Shared ℕ} {found : Maintain.Reconciliation} {p₁ p₂ : Peer}
    (h : tidy artifacts urls choose unread = some (s, found, (s₁, p₁), s₂, p₂)) :
    System.Steps (Shared.machine contents) dir ⟨blank, none⟩ ⟨s, none⟩
      ∧ Maintain.reconcile.run.Runs (Shared.step .fair contents key 0) (s, ⟨[], []⟩) (.ok found)
        (s₁, p₁)
      ∧ entry.url ∈ found.orphanArtifacts
      ∧ (Store.removeAll [entry.url]).run.Runs (Shared.step .fair contents key 0) (s₁, p₁)
        (.ok ()) (s₂, p₂) := by
  rw [tidy] at h
  obtain ⟨s, hserve, h⟩ := Option.bind_eq_some_iff.mp h
  obtain ⟨⟨found', site⟩, hreconcile, h⟩ := Option.bind_eq_some_iff.mp h
  dsimp only at h
  split at h
  · next horphan =>
    obtain ⟨⟨done, site'⟩, hremove, h⟩ := Option.bind_eq_some_iff.mp h
    obtain ⟨rfl, hrest⟩ := Prod.mk.inj (Option.some.inj h)
    obtain ⟨rfl, hsites⟩ := Prod.mk.inj hrest
    obtain ⟨rfl, rfl⟩ := Prod.mk.inj hsites
    obtain ⟨threads, hsteps⟩ := steps_of_serveAll hartifacts hserve
    exact ⟨hsteps.tail .kill, runs_of_perform hartifacts hreconcile, horphan,
      runs_of_perform hartifacts hremove⟩
  · exact absurd h (by simp)

end Tidy

/-- Where the row could be written, it names the artifact that is deleted. -/
theorem row_tidy : (tidy [frame nar] [entry.url] plain [upload]).map (fun t ↦
    (t.2.2.2.1.view.nar ⟨narDigest⟩, t.2.2.2.1.view.artifact entry.url))
      = some (some entry, none) := by
  simp only [tidy, serveAll, serveEach, Cache.session, Cache.turn, Cache.attend,
    Http.parse, Text.fromUtf8_eq_decode]
  decide +kernel

/-- Where it could not, and another path is pushed, the only row is the one of that path. -/
theorem rowless_tidy : (tidy [frame nar, frame otherNar] [entry.url, otherEntry.url] rowless
      [upload, otherUpload, publication strangerStem otherBody]).map
      (fun t ↦ (t.1.1.index.nars, (t.2.2.2.1.view.narinfo stranger).map NarInfo.narHash,
        (t.2.2.2.1.view.artifact otherEntry.url).map File.data))
    = some (Finmap.singleton ⟨fill otherNar⟩ otherEntry, some ⟨fill otherNar⟩,
        some (frame otherNar)) := by
  simp only [tidy, serveAll, serveEach, Cache.session, Cache.turn, Cache.attend, Cache.handle,
    Cache.dispatch, Cache.publish, Http.parse, Text.fromUtf8_eq_decode]
  decide +kernel

end Specimen

/-- An uploaded NAR is reported before its record is published; once its artifact is deleted, the
NAR row names nothing. -/
theorem not_harmless_unpublished : ∃ (s s₁ s' : Shared ℕ) (found : Maintain.Reconciliation)
    (p p₁ p' : Peer),
    System.Steps (Shared.machine {frame nar}) dir ⟨Shared.blank, none⟩ ⟨s, none⟩
      ∧ Maintain.reconcile.run.Runs (Shared.step .fair {frame nar} key 0) (s, p) (.ok found)
        (s₁, p₁)
      ∧ entry.url ∈ found.orphanArtifacts
      ∧ (Store.removeAll [entry.url]).run.Runs (Shared.step .fair {frame nar} key 0) (s₁, p₁)
        (.ok ()) (s', p')
      ∧ ¬Shared.Harmless {frame nar} dir s' := by
  obtain ⟨⟨s, found, ⟨s₁, p₁⟩, s', p'⟩, htidy, hleft⟩ := Option.map_eq_some_iff.mp row_tidy
  obtain ⟨hrow, hgone⟩ := Prod.mk.inj hleft
  obtain ⟨hsteps, hfound, horphan, hremove⟩ := of_tidy mem_frame htidy
  exact ⟨s, s₁, s', found, _, p₁, p', hsteps, hfound, horphan, hremove,
    fun hharmless ↦ hharmless.backed.entries _ _ hrow hgone⟩

/-- An artifact that was stored but never entered in the index can be deleted. The path that was
pushed beside it stays, and so does its artifact. -/
theorem harmless_rowless : ∃ (s s' : Shared ℕ) (found : Maintain.Reconciliation)
    (record : NarInfo),
    System.Steps (Shared.machine frames) dir ⟨Shared.blank, none⟩ ⟨s, none⟩
      ∧ entry.url ∈ found.orphanArtifacts
      ∧ s'.view.narinfo stranger = some record ∧ record.narHash = ⟨fill otherNar⟩
      ∧ (s'.view.artifact otherEntry.url).map File.data = some (frame otherNar)
      ∧ Shared.Harmless frames dir s' := by
  obtain ⟨⟨s, found, ⟨s₁, p₁⟩, s', p'⟩, htidy, hleft⟩ := Option.map_eq_some_iff.mp rowless_tidy
  obtain ⟨hnars, hrest⟩ := Prod.mk.inj hleft
  obtain ⟨hlisted, hpresent⟩ := Prod.mk.inj hrest
  obtain ⟨record, hrecord, hnar⟩ := Option.map_eq_some_iff.mp hlisted
  obtain ⟨hsteps, hfound, horphan, hremove⟩ := of_tidy mem_frames htidy
  refine ⟨s, s', found, record, hsteps, horphan, hrecord, hnar, hpresent,
    (Shared.harmless_iff hsteps hfound (List.forall_mem_singleton.mpr horphan) hremove).mpr ?_⟩
  rintro url hurl narHash entry' hrow
  obtain rfl := List.mem_singleton.mp hurl
  rw [Index.nar, hnars] at hrow
  obtain rfl := (Finmap.mem_singleton _ _ _).mp (Finmap.mem_of_lookup_eq_some hrow)
  obtain rfl := Option.some.inj (Finmap.lookup_singleton_eq.symm.trans hrow)
  decide

end Specimen

end Bincache
