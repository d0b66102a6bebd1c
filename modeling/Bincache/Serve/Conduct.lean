import Bincache.Lib.Monitor
import Bincache.Serve.Quiet

/-!
# What a session does to files and records

Of the files it can change, a session changes one at a time: the staging file it made, under a name
out of its own ordinal and process. It writes to that file through its own descriptor, renames it
only after an `fsync` that no write came after, and only to the name of an artifact, and unlinks no
other. It publishes a record only about the NAR whose row it last found. `conduct` is the monitor
that allows this much, and `follows_session` says that a session of any length follows it, whatever
it is sent and whatever fails.
-/

namespace Bincache

/-- The staging file a session is writing. -/
structure Held where
  path : FilePath
  inode : ℕ
  /-- Whether all that was written has been synced. -/
  synced : Bool

/-- What a session has in its hands. -/
structure Hand where
  /-- The last ordinal it drew. -/
  ordinal : Option ℕ := none
  /-- The id of its process, once it asked. -/
  pid : Option ℕ := none
  held : Option Held := none
  /-- The last NAR hash it found a row of. -/
  found : Option Sha256 := none

namespace Hand

/-- The session is writing to this entry, through this inode. -/
def Holding (file : FilePath × ℕ) (hand : Hand) : Prop :=
  ∃ held, hand.held = some held ∧ (held.path, held.inode) = file

def Allows (hand : Hand) : Op → Prop
  | .file (.create path) => ∃ ordinal pid, hand.ordinal = some ordinal ∧ hand.pid = some pid
    ∧ path = Store.stagedPath pid ordinal
  | .file (.writeAt inode _ _) => ∃ held, hand.held = some held ∧ held.inode = inode
  | .file (.rename path target) => ∃ held url, hand.held = some held ∧ held.path = path
    ∧ held.synced = true ∧ target = Store.path url
  | .file (.remove path) => ∃ held, hand.held = some held ∧ held.path = path
  | .index (.publish record) => hand.found = some record.narHash
  | .index (.republish _) | .index (.unpublish _) => False
  | _ => True

/-- What an operation and its answer tell the session. -/
def next (hand : Hand) : (op : Op) → Ans op → Hand
  | .nextOrdinal, ordinal => { hand with ordinal := some ordinal }
  | .processId, pid => { hand with pid := some pid }
  | .file (.create path), .ok inode => { hand with held := some ⟨path, inode, false⟩ }
  | .file (.writeAt _ _ _), _ =>
    { hand with held := hand.held.map fun held ↦ { held with synced := false } }
  | .file (.sync inode), .ok _ =>
    { hand with
      held := hand.held.map fun held ↦
        if held.inode = inode then { held with synced := true } else held }
  | .file (.rename _ _), .ok _ => { hand with held := none }
  | .file (.remove _), _ => { hand with held := none }
  | .index (.nar narHash), .ok (some _) => { hand with found := some narHash }
  | _, _ => hand

end Hand

def conduct : Monitor Ans Hand where
  allows := Hand.Allows
  next := Hand.next

open Attempt
open Program (Follows)

variable {hand : Hand} {file : FilePath × ℕ} {α : Type}

namespace Hand

theorem next_index (op : IndexOp) (answer : Ans (.index op)) :
    ∃ found, hand.next (.index op) answer = { hand with found } := by
  cases op with
  | nar narHash =>
    rcases answer with error | _ | entry
    · exact ⟨_, rfl⟩
    · exact ⟨_, rfl⟩
    · exact ⟨_, rfl⟩
  | _ => exact ⟨_, rfl⟩

theorem Holding.synced {f : Held → Held} (hf : ∀ held, ((f held).path, (f held).inode)
    = (held.path, held.inode)) (h : hand.Holding file) :
    ({ hand with held := hand.held.map f } : Hand).Holding file := by
  obtain ⟨held, hheld, hfile⟩ := h
  exact ⟨f held, by rw [hheld, Option.map_some], (hf held).trans hfile⟩

theorem Holding.quiet {op : Op} {answer : Ans op} (hquiet : op.Quiet) (h : hand.Holding file) :
    (hand.next op answer).Holding file := by
  cases op with
  | file op =>
    cases op with
    | sync inode =>
      cases answer with
      | error error => exact h
      | ok value =>
        refine h.synced fun held ↦ ?_
        split
        · rfl
        · rfl
    | _ => first | exact h | exact hquiet.elim
  | index op =>
    obtain ⟨found, hnext⟩ := hand.next_index op answer
    rw [hnext]
    exact h
  | nextOrdinal => exact hquiet.elim
  | _ => exact h

theorem allows_of_quiet {op : Op} (hquiet : op.Quiet) : hand.Allows op := by
  cases op with
  | file op => cases op <;> trivial
  | index op => cases op <;> trivial
  | _ => trivial

end Hand

theorem follows_quiet {program : Program Ans α} (h : program.Uses Op.Quiet) :
    program.Follows conduct (fun _ hand' ↦ hand.Holding file → hand'.Holding file) hand := by
  induction program generalizing hand with
  | done value => exact id
  | call op next ih =>
    refine ⟨Hand.allows_of_quiet h.1, fun answer ↦ ?_⟩
    exact (ih answer (h.2 answer)).imp fun value hand' h' hholding ↦ h' (hholding.quiet h.1)

/-- A quiet program, in whose course a file stays in hand. -/
theorem follows_holding {program : Program Ans α} (h : program.Uses Op.Quiet)
    (hholding : hand.Holding file) :
    program.Follows conduct (fun _ hand' ↦ hand'.Holding file) hand :=
  (follows_quiet h).imp fun _ _ h' ↦ h' hholding

theorem follows_any {program : Program Ans α} (h : program.Uses Op.Quiet) :
    program.Follows conduct (fun _ _ ↦ True) hand := by
  have hfollows : program.Follows conduct
      (fun _ hand' ↦ hand.Holding ([], 0) → hand'.Holding ([], 0)) hand := follows_quiet h
  exact hfollows.imp fun _ _ _ ↦ trivial

/-! ## Staging -/

namespace Store

/-- The entry and the inode of a staged upload. -/
def Staged.opened (staged : Staged) : FilePath × ℕ := (staged.path, staged.inode)

theorem follows_stage : stage.run.Follows conduct
    (fun result hand' ↦ ∀ staged, result = .ok staged → hand'.Holding staged.opened) hand := by
  refine ⟨trivial, fun ordinal ↦ ⟨trivial, fun pid ↦ ⟨⟨ordinal, pid, rfl, rfl, rfl⟩, ?_⟩⟩⟩
  rintro (error | inode)
  · exact fun _ h ↦ absurd h (by simp)
  · rintro staged h
    obtain rfl := Except.ok.inj h
    exact ⟨_, rfl, rfl⟩

variable {staged : Staged}

theorem follows_drop (h : hand.Holding staged.opened) :
    staged.drop.Follows conduct (fun _ _ ↦ True) hand := by
  obtain ⟨held, hheld, hfile⟩ := h
  exact ⟨⟨held, hheld, (Prod.mk.inj hfile).1⟩, fun _ ↦ trivial⟩

theorem follows_write (h : hand.Holding staged.opened) (bytes : Bytes) :
    (staged.write bytes).run.Follows conduct (fun result hand' ↦ hand'.Holding staged.opened
      ∧ ∀ staged', result = .ok staged' → staged'.opened = staged.opened) hand := by
  have hnext := h.synced (f := fun held ↦ { held with synced := false }) fun _ ↦ rfl
  obtain ⟨held, hheld, hfile⟩ := h
  refine ⟨⟨held, hheld, (Prod.mk.inj hfile).2⟩, ?_⟩
  rintro (error | value)
  · exact ⟨hnext, fun _ h ↦ absurd h (by simp)⟩
  · refine ⟨hnext, fun staged' h ↦ ?_⟩
    obtain rfl := Except.ok.inj h
    rfl

/-- The rename comes right after the `fsync`. -/
theorem follows_link (h : hand.Holding staged.opened) (url : NarUrl) :
    (staged.link (path url)).run.Follows conduct (fun result hand' ↦
      ∀ error, result = .error error → hand'.Holding staged.opened) hand := by
  have hsync : ∀ answer, (hand.next (.file (.sync staged.inode)) answer).Holding staged.opened :=
    fun _ ↦ Hand.Holding.quiet (by trivial) h
  refine follows_bind (follows_context ⟨trivial, ?_⟩)
  rintro (error | value)
  · exact fun _ _ ↦ hsync (.error error)
  refine follows_bind (follows_context ⟨trivial, ?_⟩)
  rintro (error | value')
  · exact fun _ _ ↦ hsync (.ok value)
  obtain ⟨held, hheld, hfile⟩ := h
  obtain ⟨hpath, hinode⟩ := Prod.mk.inj hfile
  refine follows_context ⟨⟨{ held with synced := true }, url, ?_, hpath, rfl, rfl⟩, ?_⟩
  · dsimp only [conduct, Hand.next]
    rw [hheld, Option.map_some, if_pos hinode]
  · rintro (error | value'')
    · exact fun _ _ ↦ hsync (.ok value)
    · rintro _ ⟨⟩

theorem follows_commit (h : hand.Holding staged.opened) (url : NarUrl) :
    (staged.commit url).run.Follows conduct (fun _ _ ↦ True) hand := by
  refine follows_bind (follows_onError ((follows_link h url).imp ?_))
  rintro (error | value) hand' hresult
  · exact follows_drop (hresult error rfl)
  · trivial

end Store

/-! ## The pipeline -/

namespace Upload

variable [Crates]

/-- What a step of an upload returns is an upload into the same file, and the file stays in hand. -/
def Carries {ε S : Type} (file : FilePath × ℕ) (result : Except ε (Upload S)) (hand : Hand) :
    Prop :=
  hand.Holding file ∧ ∀ upload, result = .ok upload → upload.staged.opened = file

variable {upload : Upload Receiving}

theorem follows_new {staged : Store.Staged} (h : hand.Holding staged.opened) (expected : Sha256)
    (level : Level) : (new staged expected level).run.Follows conduct (fun result hand' ↦
      ∀ upload, result = .ok upload → hand'.Holding upload.staged.opened) hand := by
  rw [new]
  split
  · rintro upload hupload
    obtain rfl := Except.ok.inj hupload
    exact h
  · refine follows_bind (follows_lift ((Store.follows_drop h).imp ?_))
    rintro _ _ - _ ⟨⟩

theorem follows_drain (h : hand.Holding file) (hfile : upload.staged.opened = file) :
    upload.drain.run.Follows conduct (Carries file) hand := by
  subst hfile
  rw [drain]
  split
  · exact ⟨h, fun upload' hupload' ↦ by rw [← Except.ok.inj hupload']⟩
  · refine follows_bind (follows_context ((Store.follows_write h _).imp ?_))
    rintro (error | staged) hand' ⟨hholding, hstaged⟩
    · exact ⟨hholding, fun _ h ↦ absurd h (by simp)⟩
    · refine ⟨hholding, fun upload' hupload' ↦ ?_⟩
      obtain rfl := Except.ok.inj hupload'
      exact hstaged staged rfl

theorem follows_uploadWrite (h : hand.Holding file) (hfile : upload.staged.opened = file)
    (chunk : Bytes) : (upload.write chunk).run.Follows conduct (Carries file) hand := by
  rw [write]
  split
  · exact ⟨h, fun _ h ↦ absurd h (by simp)⟩
  · dsimp only
    split
    · exact follows_drain h hfile
    · refine ⟨h, fun upload' hupload' ↦ ?_⟩
      obtain rfl := Except.ok.inj hupload'
      exact hfile

theorem follows_flush (h : hand.Holding file) (hfile : upload.staged.opened = file) :
    upload.flush.run.Follows conduct (Carries file) hand := by
  rw [flush]
  refine follows_bind ((follows_drain h hfile).imp ?_)
  rintro (error | upload') hand' ⟨hholding, hupload'⟩
  · exact ⟨hholding, fun _ h ↦ absurd h (by simp)⟩
  dsimp only
  split
  · exact ⟨hholding, fun _ h ↦ absurd h (by simp)⟩
  · have hsame := hupload' upload' rfl
    rw [← hsame] at hholding
    refine follows_bind (follows_context ((Store.follows_write hholding _).imp ?_))
    rintro (error | staged) hand'' ⟨hholding', hstaged⟩
    · exact ⟨hsame ▸ hholding', fun _ h ↦ absurd h (by simp)⟩
    · refine ⟨hsame ▸ hholding', fun upload'' hupload'' ↦ ?_⟩
      obtain rfl := Except.ok.inj hupload''
      exact (hstaged staged rfl).trans hsame

theorem follows_finish (h : hand.Holding upload.staged.opened) :
    upload.finish.run.Follows conduct (fun result hand' ↦
      ∀ upload', result = .ok upload' → hand'.Holding upload'.staged.opened) hand := by
  refine follows_onError ((follows_flush h rfl).imp ?_)
  rintro (error | upload') hand' ⟨hholding, hupload'⟩
  · exact (Store.follows_drop hholding).imp fun _ _ _ _ h ↦ absurd h (by simp)
  · rintro upload'' ⟨⟩
    rwa [hupload' _ rfl]

omit [Crates] in
theorem follows_verify {upload : Upload Compressed} (h : hand.Holding upload.staged.opened) :
    upload.verify.run.Follows conduct (fun result hand' ↦
      ∀ upload', result = .ok upload' → hand'.Holding upload'.staged.opened) hand := by
  have hrefused : ∀ error : Error, (Attempt.onError (throw error) upload.staged.drop :
      Call Error (Upload Verified)).run.Follows conduct (fun result hand' ↦
        ∀ upload', result = .ok upload' → hand'.Holding upload'.staged.opened) hand := by
    intro error
    refine follows_onError ?_
    exact (Store.follows_drop h).imp fun _ _ _ _ h ↦ absurd h (by simp)
  rw [verify]
  dsimp only
  split
  · split
    · rintro upload' ⟨⟩
      exact h
    · exact hrefused .empty
  · exact hrefused _

omit [Crates] in
theorem follows_store {upload : Upload Verified} (h : hand.Holding upload.staged.opened) :
    upload.store.run.Follows conduct (fun _ _ ↦ True) hand := by
  rw [store]
  refine follows_bind (follows_context ((Store.follows_commit h _).imp ?_))
  rintro (error | value) hand' -
  · trivial
  · refine follows_bind (follows_context ⟨trivial, ?_⟩)
    rintro (error | value)
    · trivial
    · trivial

end Upload

namespace Ingest

variable [Crates] (ingest : Ingest)

theorem follows_receive (target : NarUrl) : (ingest.receive target).run.Follows conduct
    (fun result hand' ↦ ∀ upload, result = .ok upload →
      hand'.Holding upload.staged.opened) hand := by
  rw [receive]
  split
  · refine follows_bind (follows_context (Store.follows_stage.imp ?_))
    rintro (error | staged) hand' hstaged
    · rintro _ ⟨⟩
    · refine follows_context ((Upload.follows_new (hstaged staged rfl) _ _).imp ?_)
      rintro (error | upload) hand'' hupload
      · rintro _ ⟨⟩
      · exact fun upload' h ↦ hupload upload' (by rw [Except.ok.inj h])
  · rintro _ ⟨⟩

theorem follows_publish (body : Text) :
    (ingest.publish body).run.Follows conduct (fun _ _ ↦ True) hand := by
  cases hparse : NarInfo.parse body ingest.dir with
  | error error =>
    rw [ingest.publish_of_error hparse]
    trivial
  | ok declared =>
    rw [ingest.publish_of_ok hparse]
    refine follows_bind (follows_context ⟨trivial, ?_⟩)
    rintro (error | _ | entry)
    · trivial
    · trivial
    · change Follows conduct (ingest.publishEntry declared (some entry)).run _ _
      rw [publishEntry]
      split
      · refine follows_bind (follows_context ⟨rfl, ?_⟩)
        rintro (error | value)
        · trivial
        · trivial
      · trivial

end Ingest

/-! ## Sessions -/

namespace Cache

open Handler

variable [Crates] {cache : Cache} {exchange : Exchange}

theorem follows_absorbBody {upload : Upload Upload.Receiving} (h : hand.Holding file)
    (hfile : upload.staged.opened = file) (connection : Connection) (remaining : ℕ) :
    (absorbBody upload connection remaining).run.Follows conduct (fun result hand' ↦
      hand'.Holding file ∧ ∀ value, result = .ok value → value.1.staged.opened = file) hand := by
  induction remaining using Nat.strong_induction_on generalizing upload connection hand with
  | _ remaining ih =>
    rw [absorbBody]
    split
    · refine follows_bind (follows_context ((follows_holding
        (Connection.reads_chunk connection remaining) h).imp ?_))
      rintro (error | ⟨chunk, connection'⟩) hand₁ h₁
      · exact ⟨h₁, fun _ h ↦ absurd h (by simp)⟩
      dsimp only [Except.mapError]
      split
      · refine ⟨h₁, fun value hvalue ↦ ?_⟩
        obtain rfl := Except.ok.inj hvalue
        exact hfile
      · next hne =>
        refine follows_bind (follows_context ((Upload.follows_uploadWrite h₁ hfile chunk).imp ?_))
        rintro (error | upload') hand₂ ⟨h₂, hupload'⟩
        · exact ⟨h₂, fun _ h ↦ absurd h (by simp)⟩
        have hlt : remaining - chunk.length < remaining := by
          have := List.length_pos_of_ne_nil hne
          omega
        exact ih _ hlt h₂ (hupload' upload' rfl) connection'
    · refine ⟨h, fun value hvalue ↦ ?_⟩
      obtain rfl := Except.ok.inj hvalue
      exact hfile

private theorem follows_upload {upload : Upload Upload.Receiving} {length : ℕ}
    (h : hand.Holding upload.staged.opened) : (do
        let (upload, connection) ← Attempt.onError (do
          proceed exchange
          absorbBody upload exchange.connection length) upload.staged.drop
        let compressed ← upload.finish.context .upload
        match ← compressed.verify.result with
        | .error error => do
          let keepAlive ← refuse exchange (.new error.fault error.message) .consumed
          pure (keepAlive, connection)
        | .ok verified => do
          let _ ← verified.store.context .upload
          bump exchange.shard .uploads 1
          let keepAlive ← answer exchange .created .consumed
          pure (keepAlive, connection) :
      Call Handler.Error (Http.KeepAlive × Connection)).run.Follows conduct (fun _ _ ↦ True)
      hand := by
  refine follows_bind (follows_onError (follows_bind
    ((follows_holding (reads_proceed exchange) h).imp ?_)))
  rintro (error | ⟨⟩) hand₁ h₁
  · exact Store.follows_drop h₁
  refine (follows_absorbBody h₁ rfl exchange.connection length).imp ?_
  rintro (error | ⟨upload', connection⟩) hand₂ ⟨h₂, hupload'⟩
  · exact Store.follows_drop h₂
  rw [← hupload' _ rfl] at h₂
  dsimp only
  refine follows_bind (follows_context ((Upload.follows_finish h₂).imp ?_))
  rintro (error | compressed) hand₃ h₃
  · trivial
  refine follows_bind (follows_result ((Upload.follows_verify (h₃ compressed rfl)).imp ?_))
  rintro (error | verified) hand₄ h₄
  · exact follows_any (uses_bind (reads_refuse exchange _ _) fun _ ↦ trivial)
  refine follows_bind (follows_context ((Upload.follows_store (h₄ verified rfl)).imp ?_))
  rintro (error | entry) hand₅ -
  · trivial
  exact follows_any (uses_bind (reads_bump _ _ _) fun _ ↦
    uses_bind (reads_answer exchange _ _) fun _ ↦ trivial)

theorem follows_put_nar (url : NarUrl) :
    (cache.receive exchange url).run.Follows conduct (fun _ _ ↦ True) hand := by
  refine follows_bind ((follows_any (reads_admitRequest cache)).imp ?_)
  rintro (error | admission) hand₁ -
  · trivial
  dsimp only
  split
  · exact follows_any (uses_map (reads_answer exchange _ _))
  split
  · refine follows_bind (follows_result ((cache.ingest.follows_receive url).imp ?_))
    rintro (error | upload) hand₂ h₂
    · exact follows_any (uses_map (reads_refuse exchange _ _))
    · exact follows_upload (h₂ upload rfl)
  · exact follows_any (uses_map (reads_answer exchange _ _))

theorem follows_put_narinfo :
    (cache.publish exchange).run.Follows conduct (fun _ _ ↦ True) hand := by
  refine follows_bind ((follows_any (reads_admitRequest cache)).imp ?_)
  rintro (error | admission) hand₁ -
  · trivial
  dsimp only
  split
  · exact follows_any (uses_map (reads_answer exchange _ _))
  split
  · next length _ =>
    split
    · exact follows_any (uses_map (reads_answer exchange _ _))
    refine follows_bind ((follows_any (reads_proceed exchange)).imp ?_)
    rintro (error | ⟨⟩) hand₂ -
    · trivial
    refine follows_bind (follows_context ((follows_any
      (Connection.reads_body exchange.connection length)).imp ?_))
    rintro (error | ⟨body, connection⟩) hand₃ -
    · trivial
    dsimp only [Except.mapError]
    cases Text.fromUtf8 body with
    | none => exact follows_any (uses_bind (reads_answer exchange _ _) fun _ ↦ trivial)
    | some text =>
      refine follows_bind (follows_result ((cache.ingest.follows_publish text).imp ?_))
      rintro (error | record) hand₄ -
      · exact follows_any (uses_bind (reads_refuse exchange _ _) fun _ ↦ trivial)
      · exact follows_any (uses_bind (reads_answer exchange _ _) fun _ ↦ trivial)
  · exact follows_any (uses_map (reads_answer exchange _ _))

theorem follows_handle : (cache.handle exchange).run.Follows conduct (fun _ _ ↦ True) hand := by
  by_cases hput : exchange.request.method = .put
  · refine follows_bind ((follows_any (reads_bump _ _ _)).imp ?_)
    rintro (error | ⟨⟩) hand₁ -
    · trivial
    dsimp only
    split
    · exact follows_any (uses_map (reads_answer exchange _ _))
    split
    · next route _ =>
      cases route with
      | cacheInfo => exact follows_any (uses_map (reads_send exchange _ _))
      | metrics => exact follows_any (uses_map (reads_metrics exchange cache trivial))
      | narinfo key =>
        rw [dispatch, if_pos hput]
        exact follows_put_narinfo
      | nar url =>
        rw [dispatch, hput]
        exact follows_put_nar url
    · exact follows_any (uses_map (reads_answer exchange _ _))
    · exact follows_any (uses_map (reads_answer exchange _ _))
  · exact follows_any (quiet_handle cache fun h ↦ absurd h hput)

theorem follows_session (shard turns : ℕ) (connection : Connection) :
    (cache.session shard turns connection).run.Follows conduct (fun _ _ ↦ True) hand := by
  induction turns generalizing connection hand with
  | zero => trivial
  | succ turns ih =>
    refine follows_bind (follows_bind (follows_context
      ((follows_any (Connection.reads_head connection)).imp ?_)))
    rintro (error | ⟨head, connection'⟩) hand₁ -
    · trivial
    dsimp only [Except.mapError]
    cases head with
    | none => trivial
    | some head =>
      dsimp only [attend]
      split
      · refine follows_bind ((follows_any (reads_write _)).imp ?_)
        rintro (error | ⟨⟩) hand₂ -
        · trivial
        · trivial
      · refine follows_bind (follows_handle.imp ?_)
        rintro (error | ⟨keepAlive, connection''⟩) hand₂ -
        · trivial
        · cases keepAlive with
          | keep => exact ih _
          | close => trivial

end Cache

end Bincache
