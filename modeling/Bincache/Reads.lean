import Bincache.Course
import Bincache.Serve.Description

/-!
# Reads among writers

A GET or a HEAD of anything but the metrics looks once at what is shared: at one row, or at one
directory entry. A download that began goes on reading the file it opened, for as long as its client
takes, while uploads come and go; but nobody writes to a file that is no staging file any more. So
each such request is answered with what it would have been answered alone, in one of the states the
cache went through while the request was handled.

## The construction

`looking` tells the library which operations these are. Before the look there are only operations on
the connection and the counting of the request (`Op.Wired`); the look is a lookup in one table or
the opening of an artifact (`Op.Look`), and what it finds is the open file, if there is one; after
it, there is reading from this file (`Op.From`). `looks_handle` is the monitor's walk through the
handler, one lemma for each route.

## The invariant

What the others are relied on for is `Undisturbed`: a file that is `Finished`, under no staging
name, stays so, with its bytes. Every operation of a session that behaves keeps to this, because it
writes to, renames and removes its own staging files only (`undisturbed_of_allows`), and so does
every step of a server (`undisturbed_of_amid`).

With this the reduction of the library applies, and `System.post_of_handles` says of the states of
the very run what it says of the states so far.
-/

namespace Bincache

/-! ## Files nobody writes to -/

/-- The inode was handed out, and no staging file has it. -/
structure Finished (fs : FileSystem) (inode : ℕ) : Prop where
  lt : inode < fs.next
  unstaged : ∀ path, fs.links.lookup path = some inode → path.head? ≠ some Store.staging

/-- Finished files stay finished, and stay as they are. -/
def Undisturbed (world world' : World) : Prop := ∀ inode, Finished world.fs inode →
  Finished world'.fs inode ∧ world'.fs.files inode = world.fs.files inode

theorem undisturbed_refl (world : World) : Undisturbed world world := fun _ h ↦ ⟨h, rfl⟩

theorem Undisturbed.trans {a b c : World} (hab : Undisturbed a b) (hbc : Undisturbed b c) :
    Undisturbed a c := by
  intro inode h
  obtain ⟨hb, hfile⟩ := hab inode h
  obtain ⟨hc, hfile'⟩ := hbc inode hb
  exact ⟨hc, hfile'.trans hfile⟩

theorem undisturbed_of_fs {world world' : World} (h : world'.fs = world.fs) :
    Undisturbed world world' := by
  intro inode hfinished
  rw [h]
  exact ⟨hfinished, rfl⟩

theorem finished_of_artifact {fs : FileSystem} {url : NarUrl} {inode : ℕ}
    (h : fs.links.lookup (Store.path url) = some inode) : Finished fs inode := by
  refine ⟨fs.link_lt h, fun path hpath hstaged ↦ ?_⟩
  obtain rfl := fs.link_injective h hpath
  exact absurd (Option.some.inj hstaged) (by decide)

namespace Finished

variable {fs fs' : FileSystem} {inode : ℕ} {path : FilePath}

theorem ne {inode' : ℕ} (h : Finished fs inode) (hlink : fs.links.lookup path = some inode')
    (hpath : path.head? = some Store.staging) : inode ≠ inode' := by
  rintro rfl
  exact h.unstaged path hlink hpath

theorem create (h : Finished fs inode) (hpath : path.head? = some Store.staging) :
    Finished (fs.create path).1 inode ∧ (fs.create path).1.files inode = fs.files inode := by
  rw [FileSystem.create]
  split
  · next inode' hlink =>
    exact ⟨⟨h.lt, h.unstaged⟩, Function.update_of_ne (h.ne hlink hpath) ..⟩
  · have hne : inode ≠ fs.next := h.lt.ne
    refine ⟨⟨Nat.lt_succ_of_lt h.lt, fun path' hlink ↦ ?_⟩, Function.update_of_ne hne ..⟩
    rw [FileSystem.links_addEntry, Table.lookup_insert_eq] at hlink
    split at hlink
    · exact absurd (Option.some.inj hlink).symm hne
    · exact h.unstaged path' hlink

theorem writeAt {inode' offset : ℕ} {bytes : Bytes} (h : Finished fs inode)
    (hne : inode ≠ inode') : Finished (fs.writeAt inode' offset bytes) inode
      ∧ (fs.writeAt inode' offset bytes).files inode = fs.files inode :=
  ⟨⟨h.lt, h.unstaged⟩, Function.update_of_ne hne ..⟩

/-- What is renamed leaves the staging directory, and nothing comes in. -/
theorem rename {target : FilePath} (h : Finished fs inode)
    (htarget : target.head? ≠ some Store.staging) (hrename : fs.rename path target = some fs') :
    Finished fs' inode ∧ fs'.files inode = fs.files inode := by
  obtain ⟨inode', hlink, rfl⟩ := FileSystem.rename_eq_some.mp hrename
  refine ⟨⟨h.lt, fun path' hlink' ↦ ?_⟩, rfl⟩
  rw [FileSystem.moveEntry, Table.lookup_insert_eq, Table.lookup_erase_eq] at hlink'
  split at hlink'
  · next hpath => exact hpath ▸ htarget
  · split at hlink'
    · exact absurd hlink' (by simp)
    · exact h.unstaged path' hlink'

theorem unlink (h : Finished fs inode) :
    Finished (fs.unlink path) inode ∧ (fs.unlink path).files inode = fs.files inode := by
  refine ⟨⟨h.lt, fun path' hlink ↦ ?_⟩, rfl⟩
  rw [FileSystem.links_unlink, Table.lookup_erase_eq] at hlink
  split at hlink
  · exact absurd hlink (by simp)
  · exact h.unstaged path' hlink

end Finished

namespace Shared

variable {ι : Type} {contents : Set Bytes} {key : SecretKey} {i : ι} {hand : Hand}
  {s s' : Shared ι} {p p' : Peer} {op : Op} {answer : Ans op}

theorem undisturbed_of_allows (hgrips : Grips i hand s) (hallows : hand.Allows op)
    (h : step .hostile contents key i op (s, p) answer (s', p')) : Undisturbed s.1 s'.1 := by
  by_cases hquiet : op.Quiet
  · exact undisturbed_of_fs (same_of_quiet hquiet h).fs
  have hop := h.1
  obtain ⟨world, ledger⟩ := s
  obtain ⟨world', ledger'⟩ := s'
  dsimp only at hop ⊢
  cases op with
  | index op =>
    obtain ⟨-, -, hsite⟩ | ⟨-, hsite⟩ := of_step_index hop
    · exact undisturbed_of_fs (congrArg (fun site : Site ↦ site.1.fs) hsite)
    · exact undisturbed_of_fs (congrArg (fun site : Site ↦ site.1.fs) hsite)
  | nextOrdinal =>
    obtain ⟨-, hsite⟩ := of_step_nextOrdinal hop
    exact undisturbed_of_fs (congrArg (fun site : Site ↦ site.1.fs) hsite)
  | file op =>
    cases op with
    | createDirAll path =>
      obtain ⟨-, -, hsite⟩ | ⟨-, hsite⟩ := of_step_createDirAll hop
      · exact undisturbed_of_fs (congrArg (fun site : Site ↦ site.1.fs) hsite)
      · obtain ⟨rfl, -⟩ := Prod.mk.inj hsite
        exact fun inode hfinished ↦ ⟨⟨hfinished.lt, hfinished.unstaged⟩, rfl⟩
    | create path =>
      obtain ⟨ordinal, pid, -, -, rfl⟩ := hallows
      obtain ⟨-, hsite, -⟩ | ⟨-, hsite⟩ := of_step_create hop
      · exact undisturbed_of_fs (congrArg (fun site : Site ↦ site.1.fs) hsite)
      · obtain ⟨rfl, -⟩ := Prod.mk.inj hsite
        exact fun inode hfinished ↦ hfinished.create (head_stagedPath pid ordinal)
    | writeAt inode' offset bytes =>
      obtain ⟨held, hheld, rfl⟩ := hallows
      obtain ⟨n, hpath, -, hnames⟩ := hgrips.staged hheld
      have hhead : held.path.head? = some Store.staging := by
        rw [hpath]
        exact head_stagedPath _ _
      have hne : ∀ inode, Finished world.fs inode → inode ≠ held.inode :=
        fun inode hfinished ↦ hfinished.ne hnames.link hhead
      obtain ⟨-, -, count, hsite⟩ | ⟨-, hsite⟩ := of_step_writeAt hop
      · obtain ⟨rfl, -⟩ := Prod.mk.inj hsite
        exact fun inode hfinished ↦ hfinished.writeAt (hne inode hfinished)
      · obtain ⟨rfl, -⟩ := Prod.mk.inj hsite
        exact fun inode hfinished ↦ hfinished.writeAt (hne inode hfinished)
    | rename path target =>
      obtain ⟨held, url, -, -, -, rfl⟩ := hallows
      have hhead : (Store.path url).head? ≠ some Store.staging :=
        fun hhead ↦ absurd (Option.some.inj hhead) (by decide)
      obtain ⟨-, hsite, -⟩ | ⟨-, fs, hrename, hsite⟩ := of_step_rename hop
      · exact undisturbed_of_fs (congrArg (fun site : Site ↦ site.1.fs) hsite)
      · obtain ⟨rfl, -⟩ := Prod.mk.inj hsite
        exact fun inode hfinished ↦ hfinished.rename hhead hrename
    | remove path =>
      obtain ⟨-, hsite, -⟩ | ⟨-, hsite⟩ := of_step_remove hop
      · exact undisturbed_of_fs (congrArg (fun site : Site ↦ site.1.fs) hsite)
      · obtain ⟨rfl, -⟩ := Prod.mk.inj hsite
        exact fun inode hfinished ↦ hfinished.unlink
    | _ => exact absurd trivial hquiet
  | _ => exact absurd trivial hquiet

end Shared

/-! ## Looking once -/

/-- Operations on the connection, and counting. -/
def Op.Wired : Op → Prop
  | .recv | .send _ | .bump _ _ _ => True
  | _ => False

theorem Op.Wired.step {op : Op} (h : op.Wired) {world world' : World} {peer peer' : Peer}
    {answer : Ans op} (hstep : Bincache.step .hostile op (world, peer) answer (world', peer'))
    (other : World) : ∃ other', Bincache.step .hostile op (other, peer) answer (other', peer')
      ∧ (world'.index = world.index ∧ world'.fs = world.fs)
      ∧ other'.index = other.index ∧ other'.fs = other.fs := by
  obtain ⟨choice, hallows, heffect⟩ := hstep
  cases op with
  | recv =>
    rw [effect] at heffect
    split at heffect
    · next hfails =>
      cases heffect
      exact ⟨other, ⟨choice, hallows, if_pos hfails⟩, ⟨rfl, rfl⟩, rfl, rfl⟩
    · next hfails =>
      cases heffect
      exact ⟨other, ⟨choice, hallows, if_neg hfails⟩, ⟨rfl, rfl⟩, rfl, rfl⟩
  | send bytes =>
    rw [effect] at heffect
    split at heffect
    · next hfails =>
      cases heffect
      exact ⟨other, ⟨choice, hallows, if_pos hfails⟩, ⟨rfl, rfl⟩, rfl, rfl⟩
    · next hfails =>
      cases heffect
      exact ⟨other, ⟨choice, hallows, if_neg hfails⟩, ⟨rfl, rfl⟩, rfl, rfl⟩
  | bump shard counter amount =>
    cases heffect
    exact ⟨_, ⟨choice, hallows, rfl⟩, ⟨rfl, rfl⟩, rfl, rfl⟩
  | _ => exact h.elim

/-- One row, or one directory entry of the payload tree. -/
def Op.Look : Op → Prop
  | .index (.narinfo _) | .index (.nar _) => True
  | .file (.open path) => ∃ url, path = Store.path url
  | _ => False

/-- What a look finds: nothing more to read, or an open file. -/
def Op.found : (op : Op) → Ans op → Option (Option ℕ)
  | .index _, _ => some none
  | .file (.open _), .ok inode => some (some inode)
  | .file (.open _), .error _ => some none
  | _, _ => none

def Op.From (inode : Option ℕ) : Op → Prop
  | .file (.metadata inode') | .file (.readAt inode' _) => inode = some inode'
  | _ => False

/-- The open file is finished, and the same. -/
def Intact (inode : Option ℕ) (world world' : World) : Prop := ∀ n, inode = some n →
  Finished world.fs n ∧ world'.fs.files n = world.fs.files n

theorem intact_none (world world' : World) : Intact none world world' :=
  fun _ h ↦ absurd h (by simp)

theorem Op.From.step {inode : Option ℕ} {op : Op} (h : op.From inode) {world world' : World}
    {peer peer' : Peer} {answer : Ans op}
    (hstep : Bincache.step .hostile op (world, peer) answer (world', peer')) {other : World}
    (hintact : Intact inode world other) : world' = world
      ∧ Bincache.step .hostile op (other, peer) answer (other, peer') := by
  obtain ⟨choice, hallows, heffect⟩ := hstep
  cases op with
  | file op =>
    rw [effect] at heffect
    cases op with
    | metadata inode' =>
      obtain ⟨-, hfile⟩ := hintact inode' h
      split at heffect
      · next hfails =>
        cases heffect
        exact ⟨rfl, choice, hallows, if_pos hfails⟩
      · next hfails =>
        cases heffect
        refine ⟨rfl, choice, hallows, (if_neg hfails).trans ?_⟩
        rw [FileOp.run, hfile]
        rfl
    | readAt inode' offset =>
      obtain ⟨-, hfile⟩ := hintact inode' h
      split at heffect
      · next hfails =>
        cases heffect
        exact ⟨rfl, choice, hallows, if_pos hfails⟩
      · next hfails =>
        cases heffect
        refine ⟨rfl, choice, hallows, (if_neg hfails).trans ?_⟩
        rw [FileOp.run, hfile]
        rfl
    | _ => exact h.elim
  | _ => exact h.elim

theorem Op.Look.step {op : Op} (h : op.Look) {world world' other : World} {peer peer' : Peer}
    {answer : Ans op} (hstep : Bincache.step .hostile op (world, peer) answer (world', peer'))
    (hindex : world.index = other.index) (hfs : world.fs = other.fs) :
    ∃ m, op.found answer = some m ∧ Intact m world' other
      ∧ Bincache.step .hostile op (other, peer) answer (other, peer') := by
  obtain ⟨choice, hallows, heffect⟩ := hstep
  cases op with
  | index op =>
    refine ⟨none, rfl, intact_none _ _, choice, hallows, ?_⟩
    rw [effect] at heffect ⊢
    split at heffect
    · next hfails =>
      cases heffect
      exact if_pos hfails
    · next hfails =>
      rw [if_neg hfails]
      cases op with
      | narinfo key =>
        cases heffect
        rw [hindex]
        rfl
      | nar narHash =>
        cases heffect
        rw [hindex]
        rfl
      | _ => exact h.elim
  | file op =>
    cases op with
    | «open» path =>
      obtain ⟨url, rfl⟩ := h
      have hstep' : Bincache.step .hostile (.file (.open (Store.path url))) (other, peer) answer
          (other, peer') := by
        refine ⟨choice, hallows, ?_⟩
        rw [effect] at heffect ⊢
        split at heffect
        · next hfails =>
          cases heffect
          exact if_pos hfails
        · next hfails =>
          rw [if_neg hfails]
          rw [hfs] at heffect
          obtain ⟨⟨result, fs⟩, hrun, hsite⟩ := Option.map_eq_some_iff.mp heffect
          cases hsite
          have hsame : fs = other.fs := by
            rw [FileOp.run] at hrun
            split at hrun
            · exact (Prod.mk.inj (Option.some.inj hrun)).2.symm
            · exact (Prod.mk.inj (Option.some.inj hrun)).2.symm
          rw [hrun, hsame]
          rfl
      have hworld : world' = world := by
        have hsite := (of_step_open ⟨choice, hallows, heffect⟩).1
        exact (Prod.mk.inj hsite).1
      subst hworld
      obtain ⟨-, ⟨-, rfl⟩ | ⟨rfl, -⟩ | ⟨inode, rfl, hlink⟩⟩ :=
        of_step_open ⟨choice, hallows, heffect⟩
      · exact ⟨none, rfl, intact_none _ _, hstep'⟩
      · exact ⟨none, rfl, intact_none _ _, hstep'⟩
      · refine ⟨some inode, rfl, fun n hn ↦ ?_, hstep'⟩
        obtain rfl := Option.some.inj hn
        exact ⟨finished_of_artifact hlink, by rw [hfs]⟩
    | _ => exact h.elim
  | _ => exact h.elim

theorem found_of_wired {op : Op} (h : op.Wired) (answer : Ans op) : op.found answer = none := by
  cases op with
  | recv => rfl
  | send bytes => rfl
  | bump shard counter amount => rfl
  | _ => exact h.elim

/-- How a request that only reads looks once, while finished files are left alone. -/
def looking : Program.Glance (step .hostile) Undisturbed (Option ℕ) where
  opening op := op.Wired ∨ op.Look
  learn := Op.found
  closing inode op := op.Wired ∨ op.From inode
  same world other := world.index = other.index ∧ world.fs = other.fs
  agree := Intact
  refl := undisturbed_refl
  trans := Undisturbed.trans
  same_refl _ := ⟨rfl, rfl⟩
  same_trans hab hbc := ⟨hab.1.trans hbc.1, hab.2.trans hbc.2⟩
  before := by
    rintro op world peer answer world' peer' (hwired | hlook) hfound hstep other
    · obtain ⟨other', hother, -, hindex, hfs⟩ := hwired.step hstep other
      exact ⟨other', hother, hindex.symm, hfs.symm⟩
    · obtain ⟨m, hfound', -⟩ := hlook.step hstep rfl rfl
      exact absurd (hfound.symm.trans hfound') (by simp)
  look := by
    rintro op world peer answer world' peer' m (hwired | hlook) hfound hstep other ⟨hindex, hfs⟩
    · exact absurd ((found_of_wired hwired answer).symm.trans hfound) (by simp)
    · obtain ⟨m', hfound', hintact, hother⟩ := hlook.step hstep hindex hfs
      obtain rfl := Option.some.inj (hfound.symm.trans hfound')
      exact ⟨other, hother, hintact⟩
  after := by
    rintro m op world peer answer world' peer' (hwired | hfrom) hstep other hintact
    · obtain ⟨other', hother, ⟨-, hfs⟩, -, hfs'⟩ := hwired.step hstep other
      refine ⟨other', hother, fun n hn ↦ ?_⟩
      rw [hfs, hfs']
      exact hintact n hn
    · obtain ⟨rfl, hother⟩ := hfrom.step hstep hintact
      exact ⟨other, hother, hintact⟩
  later := by
    intro m world world' other hintact hothers n hn
    obtain ⟨hfinished, hfile⟩ := hintact n hn
    obtain ⟨hfinished', hfile'⟩ := hothers n hfinished
    exact ⟨hfinished', hfile.trans hfile'.symm⟩

open Attempt
open Program (Follows)

variable {m : Option (Option ℕ)} {inode : ℕ}

/-- Wires carry nothing out of the shared state. -/
theorem follows_wired {α : Type} {program : Program Ans α} (h : program.Uses Op.Wired) :
    program.Follows looking.monitor (fun _ m' ↦ m' = m) m := by
  induction program with
  | done value => exact rfl
  | call op next ih =>
    rcases m with - | inode
    · refine ⟨.inl h.1, fun answer ↦ ?_⟩
      have hnext : looking.monitor.next none op answer = none := found_of_wired h.1 answer
      rw [hnext]
      exact ih answer (h.2 answer)
    · exact ⟨.inl h.1, fun answer ↦ ih answer (h.2 answer)⟩

namespace Store

theorem looks_read (url : NarUrl) : (read url).run.Follows looking.monitor
    (fun result m ↦ ∀ reader, result = .ok (some reader) → m = some (some reader.inode)) none := by
  have hopen : Op.Look (.file (.open (path url))) := ⟨url, rfl⟩
  refine follows_bind (follows_result ⟨.inr hopen, ?_⟩)
  rintro (error | inode)
  · cases error with
    | notFound => exact fun reader h ↦ absurd (Except.ok.inj h) (by simp)
    | other => exact fun reader h ↦ absurd h (by simp)
  · refine follows_bind (follows_context ⟨.inr rfl, ?_⟩)
    rintro (error | size)
    · exact fun reader h ↦ absurd h (by simp)
    · intro reader h
      obtain rfl := Option.some.inj (Except.ok.inj h)
      rfl

theorem looks_readAt (reader : Reader) (offset : ℕ) :
    (reader.readAt offset).run.Follows looking.monitor
      (fun _ m ↦ m = some (some reader.inode)) (some (some reader.inode)) :=
  follows_context ⟨.inr rfl, fun _ ↦ rfl⟩

end Store

namespace Cache

open Handler Response

variable [Crates] {cache : Cache} {exchange : Exchange}

omit [Crates] in
theorem wired_write (bytes : Bytes) : (write bytes).run.Uses Op.Wired :=
  uses_context (uses_context ⟨trivial, fun _ ↦ trivial⟩)

omit [Crates] in
theorem wired_bump {ε : Type} (shard : ℕ) (counter : Counter) (amount : ℕ) :
    (bump shard counter amount : Call ε Unit).run.Uses Op.Wired :=
  uses_lift ⟨trivial, fun _ ↦ trivial⟩

omit [Crates] in
theorem wired_answer (status : Status) (drained : Drained) :
    (answer exchange status drained).run.Uses Op.Wired :=
  uses_bind (wired_write _) fun _ ↦ trivial

omit [Crates] in
theorem wired_send (head : Head) (body : Bytes) : (send exchange head body).run.Uses Op.Wired :=
  uses_bind (wired_write _) fun _ ↦ trivial

omit [Crates] in
private theorem follows_wires {α : Type} {program : Program Ans α} (h : program.Uses Op.Wired) :
    program.Follows looking.monitor (fun _ _ ↦ True) m :=
  (follows_wired h).imp fun _ _ _ ↦ trivial

theorem looks_narinfo (key : StorePath.Hash) :
    (cache.narinfo exchange key).run.Follows looking.monitor (fun _ _ ↦ True) none := by
  refine follows_bind (follows_context ⟨.inr trivial, ?_⟩)
  rintro (error | row)
  · trivial
  · cases row with
    | none => exact follows_wires (uses_bind (wired_bump _ _ _) fun _ ↦ wired_answer _ _)
    | some record => exact follows_wires (uses_bind (wired_bump _ _ _) fun _ ↦ wired_send _ _)

omit [Crates] in
theorem looks_probe (url : NarUrl) :
    (probe exchange url).run.Follows looking.monitor (fun _ _ ↦ True) none := by
  have hlength : (probeLength url).run.Follows looking.monitor (fun _ _ ↦ True) none := by
    rw [probeLength]
    split
    · refine follows_bind (follows_context ⟨.inr trivial, ?_⟩)
      rintro (error | entry) <;> trivial
    · refine follows_bind (follows_context ((Store.looks_read url).imp ?_))
      rintro (error | reader) m - <;> trivial
  refine follows_bind (hlength.imp ?_)
  rintro (error | - | length) m -
  · trivial
  · exact follows_wires (wired_answer _ _)
  · exact follows_wires (uses_bind (wired_write _) fun _ ↦ trivial)

omit [Crates] in
theorem looks_pump (reader : Store.Reader) (span : Range.Span) (offset : ℕ) :
    (pump reader span offset).run.Follows looking.monitor
      (fun _ m ↦ m = some (some reader.inode)) (some (some reader.inode)) := by
  induction hn : span.last + 1 - offset using Nat.strong_induction_on generalizing offset with
  | _ n ih =>
    rw [pump]
    split
    · refine follows_bind (follows_context ((Store.looks_readAt reader offset).imp ?_))
      rintro (error | read) m rfl
      · rfl
      dsimp only [Except.mapError]
      split
      · rfl
      · next hread =>
        refine follows_bind ((follows_wired (wired_write _)).imp ?_)
        rintro (error | ⟨⟩) m rfl
        · rfl
        refine ih _ ?_ _ rfl
        have hpos := List.length_pos_of_ne_nil hread
        have hchunk : 0 < Connection.sendChunk := by decide
        rw [List.length_take]
        omega
    · rfl

omit [Crates] in
theorem looks_stream (url : NarUrl) :
    (stream exchange url).run.Follows looking.monitor (fun _ _ ↦ True) none := by
  have htransmit : ∀ (reader : Store.Reader) (span : Range.Span), (do
      write (spanHead exchange reader.size span).finish
      let sent ← pump reader span span.first
      bump exchange.shard .payloadBytes sent
      pure exchange.request.keepAlive : Call Handler.Error Http.KeepAlive).run.Follows
      looking.monitor (fun _ _ ↦ True) (some (some reader.inode)) := by
    intro reader span
    refine follows_bind ((follows_wired (wired_write _)).imp ?_)
    rintro (error | ⟨⟩) m rfl
    · trivial
    refine follows_bind ((looks_pump reader span span.first).imp ?_)
    rintro (error | sent) m rfl
    · trivial
    · exact follows_wires (uses_bind (wired_bump _ _ _) fun _ ↦ trivial)
  refine follows_bind (follows_context ((Store.looks_read url).imp ?_))
  rintro (error | - | reader) m hread
  · trivial
  · exact follows_wires (wired_answer _ _)
  · obtain rfl := hread reader rfl
    dsimp only [Except.mapError]
    split
    · exact follows_wires (wired_answer _ _)
    · split
      · exact htransmit reader _
      · exact htransmit reader _
      · exact follows_wires (uses_bind (wired_write _) fun _ ↦ trivial)

/-- A request that only reads looks once, unless it asks for the metrics. -/
theorem looks_handle (hmethod : exchange.request.method ≠ .put)
    (hmetrics : Route.resolve exchange.request.target ≠ .ok .metrics) :
    (cache.handle exchange).run.Follows looking.monitor (fun _ _ ↦ True) none := by
  have hunchanged : ∀ {program : Call Handler.Error Http.KeepAlive},
      program.run.Follows looking.monitor (fun _ _ ↦ True) none →
      ((fun keepAlive ↦ (keepAlive, exchange.connection)) <$> program).run.Follows
        looking.monitor (fun _ _ ↦ True) none := by
    intro program h
    refine follows_bind (h.imp ?_)
    rintro (error | keepAlive) m -
    · trivial
    · trivial
  refine follows_bind ((follows_wired (wired_bump _ _ _)).imp ?_)
  rintro (error | ⟨⟩) m rfl
  · trivial
  dsimp only
  split
  · exact hunchanged (follows_wires (wired_answer _ _))
  split
  · next route hroute =>
    rcases route with - | - | key | url
    · exact hunchanged (follows_wires (wired_send _ _))
    · exact absurd hroute hmetrics
    · dsimp only [dispatch]
      rw [if_neg hmethod]
      exact hunchanged (looks_narinfo key)
    · dsimp only [dispatch]
      split
      · next hput => exact absurd hput hmethod
      · exact hunchanged (looks_probe url)
      · exact hunchanged (looks_stream url)
  · exact hunchanged (follows_wires (wired_answer _ _))
  · exact hunchanged (follows_wires (wired_answer _ _))

end Cache

/-! ## One connection among the others -/

/-- How a client was answered: with a message, or with a beginning of it where the handler failed,
because the client had stopped reading or because the index or the file could not be read. -/
def Cache.Hears (exchange : Exchange) (message : Response.Message) (peer peer' : Peer)
    (result : Except Handler.Error (Http.KeepAlive × Connection)) : Prop :=
  peer'.unread = peer.unread ∧ match result with
  | .ok (keepAlive, connection) => connection = exchange.connection
    ∧ keepAlive = message.reply.keepAlive ∧ peer'.written = peer.written ++ message.bytes
  | .error _ => ∃ said, said <+: message.bytes ∧ peer'.written = peer.written ++ said

namespace Shared

open Cache

variable {ι α : Type} [DecidableEq ι] [Crates] {contents : Set Bytes} {dir : Dir} {i : ι}
  {start system system' : System ι (Shared ι)}

theorem undisturbed_of_amid (hsteps : System.Steps (machine contents) dir ⟨blank, none⟩ system)
    (h : System.Amid (machine contents) i system system') :
    Undisturbed system.shared.1 system'.shared.1 := by
  cases h with
  | accept j hj peer' shard turns hdone => exact undisturbed_refl _
  | @turn s s' server threads hstep =>
    obtain @⟨l, l', _, op, next, answer, j, hthread, hop⟩ := hstep
    obtain ⟨hand, hgrips, -, hfollows⟩ := (attended_of_steps hsteps).conducted server rfl j
    dsimp only at hthread hfollows
    rw [hthread] at hfollows
    exact undisturbed_of_allows hgrips hfollows.1 hop

variable {s : Shared ι} {server : Server ι} {peer : Peer} {exchange : Exchange}
  {past : List (System ι (Shared ι))}
  {g : Except Handler.Error (Http.KeepAlive × Connection) →
    Program Ans (Except Handler.Error Unit)}

/-- The request is still being handled, or it was answered at some point of this run with what it
would have been answered alone, in a state that the run went through until then. -/
def Linearized (contents : Set Bytes) (i : ι) (exchange : Exchange) (cache : Cache) (peer : Peer)
    (g : Except Handler.Error (Http.KeepAlive × Connection) →
      Program Ans (Except Handler.Error Unit)) (start : System ι (Shared ι))
    (past : List (System ι (Shared ι))) (system : System ι (Shared ι)) : Prop :=
  System.Finishes (machine contents) i g (cache.handle exchange).run start
    (fun result peer' before _ ↦ ∃ moment ∈ before, Hears exchange
      (readMessage cache exchange (moment.shared.1.bump exchange.shard .requests 1)) peer peer'
      result) past system

/-- When the request is done, it was answered with what it would have been answered alone. -/
theorem hears_of_handles
    (hsteps : System.Steps (machine contents) dir ⟨(blank : Shared ι), none⟩ ⟨s, some server⟩)
    (hmethod : exchange.request.method ≠ .put)
    (hmetrics : Route.resolve exchange.request.target ≠ .ok .metrics)
    (hthread : server.threads i = (peer, (server.cache.handle exchange).run >>= g))
    {result : Except Handler.Error (Http.KeepAlive × Connection)}
    (hdone : System.Handles (machine contents) i g (server.cache.handle exchange).run
      ⟨s, some server⟩ past (.done result) system) :
    ∃ server' peer', system.server = some server' ∧ server'.threads i = (peer', g result)
      ∧ ∃ moment ∈ past, Hears exchange
        (readMessage server.cache exchange (moment.shared.1.bump exchange.shard .requests 1)) peer
        peer' result := by
  have hothers : ∀ {mid next : System ι (Shared ι)},
      Relation.ReflTransGen (System.Amid (machine contents) i) ⟨s, some server⟩ mid →
      System.Amid (machine contents) i mid next → Undisturbed mid.shared.1 next.shared.1 :=
    fun hmid hnext ↦ undisturbed_of_amid (hsteps.trans (System.steps_of_amid dir hmid)) hnext
  obtain ⟨server', peer', hserver', hrest, _, ⟨moment, hmoment, _, -, rfl⟩, halone⟩ :=
    System.post_of_handles hothers (fun hop ↦ hop.1) rfl hthread
      (looking.alone (looks_handle hmethod hmetrics)) hdone
  obtain ⟨world', hrun⟩ := halone moment.shared.1 ⟨rfl, rfl⟩
  refine ⟨server', peer', hserver', hrest, moment, hmoment, ?_⟩
  obtain ⟨hconnection, -, hunread, hresult⟩ :=
    (ends_handle_read hmethod (moment.shared.1, peer)).runs hrun
  refine ⟨hunread, ?_⟩
  rcases result with error | ⟨keepAlive, connection⟩
  · exact hresult.2
  · exact ⟨hconnection _ rfl, hresult⟩

/-- **Reads are linearizable.** Among any number of other connections, a GET or a HEAD of anything
but the metrics is answered as if it had been alone at one moment of the time it took. -/
theorem reads_linearizable
    (hsteps : System.Steps (machine contents) dir ⟨(blank : Shared ι), none⟩ ⟨s, some server⟩)
    (hmethod : exchange.request.method ≠ .put)
    (hmetrics : Route.resolve exchange.request.target ≠ .ok .metrics)
    (hthread : server.threads i = (peer, (server.cache.handle exchange).run >>= g))
    (hcourse : System.Course (machine contents) i ⟨s, some server⟩ past system) :
    Linearized contents i exchange server.cache peer g ⟨s, some server⟩ past system :=
  System.finishes_of_course rfl hthread
    (fun _ _ _ hdone ↦ hears_of_handles hsteps hmethod hmetrics hthread hdone) hcourse

end Shared

/-! ## A connection whose request arrives at once -/

/-- A session reads a head, and a head that parses leads to its request. -/
theorem Cache.session_of_parse [Crates] {cache : Cache} {head : Bytes} {request : Http.Request}
    (hparse : Http.parse head = .ok request) (shard turns : ℕ) (connection : Connection) :
    ∃ rest g, (cache.session shard (turns + 1) connection).run = connection.head.run >>= rest
      ∧ ∀ connection, rest (.ok (some head, connection))
        = (cache.handle ⟨shard, connection, request⟩).run >>= g := by
  refine ⟨?rest, ?g, ?run, fun later ↦ ?next⟩
  case run =>
    rw [session, turn, Attempt.run_bind, Attempt.run_bind, Attempt.run_context, bind_assoc,
      bind_assoc]
  case next =>
    change (cache.attend shard head later).run >>= _ = _
    rw [attend, hparse]
    dsimp only
    rw [Attempt.run_bind, bind_assoc]

theorem Connection.head_of_headLen {bytes : Bytes} {len : ℕ}
    (hlen : Http.headLen bytes = some len) : ∃ next, (head {}).run = .call .recv next
      ∧ next (.ok bytes) = .done (.ok (some (bytes.take len), ⟨bytes.drop len⟩)) := by
  have hbytes : bytes ≠ [] := by
    rintro rfl
    exact absurd hlen (by simp [Http.headLen])
  have hhead : (head ⟨bytes⟩).run = .done (.ok (some (bytes.take len), ⟨bytes.drop len⟩)) := by
    rw [head, hlen]
    rfl
  rw [head]
  refine ⟨?next, ?call, ?answered⟩
  case call => exact rfl
  case answered =>
    change (dite (bytes = []) _ _ : Call Error _).run = _
    rw [dif_neg hbytes]
    exact hhead

/-- A peer can connect and get a request handled that it sends at once. -/
theorem Shared.steps_of_request {ι : Type} [DecidableEq ι] [Crates] {contents : Set Bytes}
    {dir : Dir} {s : Shared ι} {server : Server ι} {i : ι} {peer : Peer}
    {result : Except Handler.Error Unit} {bytes : Bytes} {len : ℕ} {request : Http.Request}
    (hdone : server.threads i = (peer, .done result)) (hlen : Http.headLen bytes = some len)
    (hparse : Http.parse (bytes.take len) = .ok request) (shard : ℕ) : ∃ g,
      System.Steps (machine contents) dir ⟨s, some server⟩ ⟨s, some { server with
        threads := Function.update server.threads i (⟨[], []⟩,
          (server.cache.handle ⟨shard, ⟨bytes.drop len⟩, request⟩).run >>= g) }⟩ := by
  obtain ⟨rest, g, hrun, hrest⟩ := server.cache.session_of_parse hparse shard 0 {}
  obtain ⟨next, hcall, hnext⟩ := Connection.head_of_headLen hlen
  refine ⟨g, Relation.ReflTransGen.head (.accept i ⟨bytes, []⟩ shard 1 hdone) (.single ?_)⟩
  rw [hrun, hcall, Program.call_bind]
  let connected : Server ι := { server with
    threads := Function.update server.threads i (⟨bytes, []⟩, .call .recv (next · >>= rest)) }
  have hthread : connected.threads i = (⟨bytes, []⟩, .call .recv (next · >>= rest)) :=
    Function.update_self ..
  have hop : step .hostile contents server.cache.ingest.key i .recv (s, ⟨bytes, []⟩)
      (.ok bytes) (s, ⟨[], []⟩) := by
    refine ⟨⟨{ count := bytes.length }, trivial, ?_⟩, rfl, trivial⟩
    rw [effect, if_neg Bool.false_ne_true, List.take_of_length_le (Nat.le_succ _),
      List.drop_of_length_le (Nat.le_succ _)]
  have hstep : System.Step (machine contents) dir ⟨s, some connected⟩ ⟨s, some { connected with
      threads := Function.update connected.threads i (⟨[], []⟩, next (.ok bytes) >>= rest) }⟩ :=
    .turn (@Pool.Step.turn _ _ _ _ _ _ _ _ _ _ _ _ _ (next · >>= rest) _ i hthread hop)
  rw [hnext, Program.done_bind, hrest, Function.update_idem] at hstep
  exact hstep

section Specimen

open Specimen Shared

namespace Specimen

theorem handles_of_serveEach {contents : Set Bytes} {artifacts : List Bytes}
    (hartifacts : ∀ data ∈ artifacts, data ∈ contents) {choose : Op → Choice} {i : ℕ} (hi : i ≠ 0)
    {α : Type} {f : α → Program Ans (Except Handler.Error Unit)} {program rest : Program Ans α}
    {start : System ℕ (Shared ℕ)} {past : List (System ℕ (Shared ℕ))} {unread : List Bytes}
    {s s' : Shared ℕ} {server : Server ℕ}
    (h : System.Handles (machine contents) i f program start past rest ⟨s, some server⟩)
    (hdone : ∃ peer result, server.threads 0 = (peer, .done result))
    (hserve : serveEach artifacts choose server.cache unread s = some s') :
    ∃ past' server', server'.cache = server.cache ∧ server'.threads i = server.threads i
      ∧ System.Handles (machine contents) i f program start past' rest ⟨s', some server'⟩ := by
  induction unread generalizing s server past with
  | nil =>
    obtain rfl := Option.some.inj hserve
    exact ⟨past, server, rfl, rfl, h⟩
  | cons unread others ih =>
    obtain ⟨⟨result, s₁, peer₁⟩, heval, hrest⟩ := Option.bind_eq_some_iff.mp hserve
    have hallows : ∀ op, Env.hostile.Allows (choose op) := fun _ ↦ trivial
    obtain ⟨peer, before, hthread⟩ := hdone
    obtain ⟨past₁, hserved⟩ :=
      h.beside hi.symm hthread (runs_of_attempt hartifacts hallows heval)
    have hidle : Function.update server.threads 0 (peer₁, .done result) 0 = (peer₁, .done result) :=
      Function.update_self ..
    obtain ⟨past', server', hcache, hthread', hhandles⟩ := ih hserved ⟨peer₁, result, hidle⟩ hrest
    exact ⟨past', server', hcache, hthread'.trans (Function.update_of_ne hi ..), hhandles⟩

/-- A request that asks whether a NAR is there. -/
def asking : Bytes := Text.utf8
  ("HEAD /nar/".toList ++ digits ++ ".nar HTTP/1.1\r\n\r\n".toList)

def asked : Exchange :=
  ⟨0, {}, request .head ("/nar/".toList ++ digits ++ ".nar".toList) .empty⟩

theorem headLen_asking : Http.headLen asking = some 79 := by decide +kernel

theorem parse_asking : Http.parse (asking.take 79) = .ok asked.request := by
  rw [Http.parse, Text.fromUtf8_eq_decode]
  decide +kernel

/-- A server that has just started, what it is after others were served, and how it answers then
what it was asked before. -/
def answered (others : List Bytes) (exchange : Exchange) :
    Option (Shared ℕ × Shared ℕ × Peer) :=
  (serveAll [frame nar] plain cache 7 [] blank).bind fun s ↦
    (serveEach [frame nar] plain cache others s).bind fun s' ↦
      ((cache.handle exchange).run.evaluate (attempt [frame nar] plain key 1) (s', ⟨[], []⟩)).map
        fun (_, _, peer) ↦ (s, s', peer)

theorem exists_answered {others : List Bytes} {exchange : Exchange} {bytes : Bytes} {len : ℕ}
    {s s' : Shared ℕ} {peer : Peer} (hlen : Http.headLen bytes = some len)
    (hparse : Http.parse (bytes.take len) = .ok exchange.request)
    (hexchange : exchange = ⟨0, ⟨bytes.drop len⟩, exchange.request⟩)
    (h : answered others exchange = some (s, s', peer)) : ∃ server g past system,
      System.Steps (machine {frame nar}) dir ⟨blank, none⟩ ⟨s, some server⟩
        ∧ server.cache = cache
        ∧ server.threads 1 = (⟨[], []⟩, (server.cache.handle exchange).run >>= g)
        ∧ System.Course (machine {frame nar}) 1 ⟨s, some server⟩ past system
        ∧ (∃ moment ∈ past, moment.shared = s')
        ∧ ∃ server' result, system.server = some server'
          ∧ server'.threads 1 = (peer, g result) := by
  obtain ⟨booted, hboot, hserved⟩ := Option.bind_eq_some_iff.mp h
  obtain ⟨pushed, hserve, hanswered⟩ := Option.bind_eq_some_iff.mp hserved
  obtain ⟨⟨result, s'', peer'⟩, heval, hsite⟩ := Option.map_eq_some_iff.mp hanswered
  obtain ⟨rfl, hsite'⟩ := Prod.mk.inj hsite
  obtain ⟨rfl, rfl⟩ := Prod.mk.inj hsite'
  have hallows : ∀ op, Env.hostile.Allows (plain op) := fun _ ↦ trivial
  have hrun := runs_of_attempt mem_frame hallows heval
  obtain ⟨_, threads, hstarted, -, hdone, hserves⟩ := serves_of_serveAll mem_frame hboot
  obtain ⟨_, _, hidle⟩ := hdone 1
  obtain ⟨g, hrequest⟩ : ∃ g, System.Steps (machine {frame nar}) dir
      ⟨booted, some ⟨cache, threads⟩⟩ ⟨booted, some ⟨cache, Function.update threads 1
        (⟨[], []⟩, (cache.handle ⟨0, ⟨bytes.drop len⟩, exchange.request⟩).run >>= g)⟩⟩ :=
    steps_of_request hidle hlen hparse 0
  rw [← hexchange] at hrequest
  let server : Server ℕ := ⟨cache, Function.update threads 1
    (⟨[], []⟩, (cache.handle exchange).run >>= g)⟩
  have hthread : server.threads 1 = (⟨[], []⟩, (cache.handle exchange).run >>= g) := by
    dsimp only [server]
    rw [Function.update_self]
  have hsteps : System.Steps (machine {frame nar}) dir ⟨blank, none⟩ ⟨booted, some server⟩ :=
    (hstarted.trans (steps_of_serves hserves)).trans hrequest
  have hother : ∃ peer result, server.threads 0 = (peer, .done result) := hdone 0
  have hstart : System.Handles (machine {frame nar}) 1 g (cache.handle exchange).run
    ⟨booted, some server⟩ [⟨booted, some server⟩] (cache.handle exchange).run
    ⟨booted, some server⟩ := .start
  -- the others are served while the request waits for its turn
  obtain ⟨past, ⟨_, threads'⟩, rfl, hthread', hserved⟩ :=
    handles_of_serveEach mem_frame Nat.one_ne_zero hstart hother hserve
  obtain ⟨more, hhandled⟩ := hserved.runs (hthread'.trans hthread) hrun
  refine ⟨server, g, _, _, hsteps, rfl, hthread, hhandled.course,
    ⟨_, List.mem_append_left _ hserved.course.mem, rfl⟩, _, result, rfl, ?_⟩
  dsimp only
  rw [Function.update_self]

theorem rows_answered : (answered [upload, publication stem body] asked).map
      (fun (s, s', peer) ↦ (s.1.index.nar ⟨narDigest⟩,
        (s'.1.index.narinfo path.hash).map NarInfo.narHash, peer.written.take 12))
    = some (none, some ⟨narDigest⟩, Text.utf8 "HTTP/1.1 200".toList) := by
  simp only [answered, serveAll, serveEach, Cache.session, Cache.turn, Cache.attend, Cache.handle,
    Cache.dispatch, Cache.publish, Http.parse, Text.fromUtf8_eq_decode]
  decide +kernel

end Specimen

/-- What nobody had pushed when it was asked for is pushed meanwhile, with a path that has it, and
is there by the time of the answer. -/
theorem linearizable_meanwhile : ∃ (s : Shared ℕ) (server : Server ℕ)
    (past : List (System ℕ (Shared ℕ))) (system : System ℕ (Shared ℕ))
    (g : Except Handler.Error (Http.KeepAlive × Connection) →
      Program Ans (Except Handler.Error Unit)),
    s.view.nar ⟨narDigest⟩ = none
    ∧ (∃ moment ∈ past, ∃ record, moment.shared.view.narinfo path.hash = some record
      ∧ record.narHash = ⟨narDigest⟩)
    ∧ (∃ server' peer result, system.server = some server' ∧ server'.threads 1 = (peer, g result)
      ∧ peer.written.take 12 = Text.utf8 "HTTP/1.1 200".toList)
    ∧ Linearized {frame nar} 1 asked server.cache ⟨[], []⟩ g ⟨s, some server⟩ past system := by
  obtain ⟨⟨s, s', peer⟩, hanswered, hrows⟩ := Option.map_eq_some_iff.mp rows_answered
  obtain ⟨hbefore, hrest⟩ := Prod.mk.inj hrows
  obtain ⟨hlisted, hwritten⟩ := Prod.mk.inj hrest
  obtain ⟨record, hrecord, hnar⟩ := Option.map_eq_some_iff.mp hlisted
  obtain ⟨server, g, past, system, hsteps, -, hthread, hcourse, ⟨moment, hmoment, rfl⟩, server',
    result, hserver', hthread'⟩ := exists_answered headLen_asking parse_asking rfl hanswered
  exact ⟨s, server, past, system, g, hbefore, ⟨moment, hmoment, record, hrecord, hnar⟩,
    ⟨server', peer, result, hserver', hthread', hwritten⟩,
    reads_linearizable hsteps (by decide) (by decide +kernel) hthread hcourse⟩

end Specimen

end Bincache
