import Bincache.Lib.Journal
import Bincache.Serve.Handler

/-!
# How a session keeps its books

The counters of a shard are added to by all of its connections, and nothing at the place where one
goes up says that it is the right one. What can be said in one place is the rule that every session
keeps, and that books which are kept by it balance.

## The rule

`bookkeeping` is the rule, as a monitor whose state says what is yet to be counted (`Due`): nothing,
the outcome of a request, or one outcome at once. A request is counted before anything is done about
it, then at most one outcome of it. A record that is found or missed and a row that is written are
counted by the very next operation, whatever fails afterwards. No more payload is counted than was
sent since the request.

## The invariant

`Balanced` compares two sums over what was done so far: what the deeds added to a counter, and what
there was of them to count (`earns`). It holds up to what is due, and one deed at a time: `Books` is
what a deed may do to what is due, one constructor for each kind of deed, and `balanced_of_leads`
adds them up. A session of any length keeps to the rule (`books_session`), route by route; what
counts nothing, which is most of its programs, is passed over by `Op.Uncounted`.
-/

namespace Bincache

open Attempt
open Program (Follows)

/-! ## What there is to count -/

/-- The counters of which a request adds to at most one. -/
def Counter.Outcome (counter : Counter) : Prop := counter ≠ .requests ∧ counter ≠ .payloadBytes

instance : DecidablePred Counter.Outcome := fun counter ↦ by
  unfold Counter.Outcome
  infer_instance

def addsOn (shard : ℕ) (counter : Counter) : Deed Ans → ℕ
  | ⟨.bump shard' counter' amount, _⟩ => if shard' = shard ∧ counter' = counter then amount else 0
  | _ => 0

/-- What a deed adds to the outcomes of a shard. -/
def settlesOn (shard : ℕ) : Deed Ans → ℕ
  | ⟨.bump shard' counter amount, _⟩ => if shard' = shard ∧ counter.Outcome then amount else 0
  | _ => 0

def adds (counter : Counter) : Deed Ans → ℕ
  | ⟨.bump _ counter' amount, _⟩ => if counter' = counter then amount else 0
  | _ => 0

/-- What there is of a deed for a counter to count: records found and missed, rows written, bytes
sent. -/
def earns : Counter → Deed Ans → ℕ
  | .metadataHits, ⟨.index (.narinfo _), .ok (some _)⟩ => 1
  | .metadataMisses, ⟨.index (.narinfo _), .ok none⟩ => 1
  | .uploads, ⟨.index (.putNar _ _), .ok _⟩ => 1
  | .payloadBytes, ⟨.send bytes, .ok _⟩ => bytes.length
  | _, _ => 0

/-- Operations of which nothing is counted but the bytes they send. -/
def Op.Uncounted : Op → Prop
  | .bump _ _ _ | .index (.narinfo _) | .index (.putNar _ _) => False
  | _ => True

/-! ## The rule -/

/-- What a connection has yet to count. -/
inductive Due
  /-- Nothing, until the next request. -/
  | nothing
  /-- The outcome of a request, should it have one that is counted. So many bytes were sent. -/
  | outcome (shard sent : ℕ)
  /-- One outcome, at once. -/
  | one (shard : ℕ) (counter : Counter) (h : counter.Outcome)

namespace Due

def Allows : Due → Op → Prop
  | .one shard counter _, op => op = .bump shard counter 1
  | _, .bump _ .requests amount => amount = 1
  | .outcome shard _, .bump shard' .rejections amount => shard' = shard ∧ amount = 1
  | .outcome shard sent, .bump shard' .payloadBytes amount => shard' = shard ∧ amount ≤ sent
  | _, .bump _ _ _ => False
  | .nothing, .index (.narinfo _) | .nothing, .index (.putNar _ _) => False
  | _, _ => True

/-- What an operation leaves to be counted. -/
def next : Due → (op : Op) → Ans op → Due
  | .one _ _ _, _, _ => .nothing
  | _, .bump shard .requests _, _ => .outcome shard 0
  | _, .bump _ _ _, _ => .nothing
  | .outcome shard sent, .send bytes, .ok _ => .outcome shard (sent + bytes.length)
  | .outcome shard _, .index (.narinfo _), .ok (some _) => .one shard .metadataHits (by decide)
  | .outcome shard _, .index (.narinfo _), .ok none => .one shard .metadataMisses (by decide)
  | .outcome shard _, .index (.putNar _ _), .ok _ => .one shard .uploads (by decide)
  | due, _, _ => due

/-- Nothing has to be counted at once. -/
def Settled : Due → Prop
  | .one _ _ _ => False
  | _ => True

end Due

def bookkeeping : Monitor Ans Due where
  allows := Due.Allows
  next := Due.next

/-! ## Books that are kept balance -/

/-- What one deed does to the books. -/
inductive Books : Due → Deed Ans → Due → Prop
  | request {due : Due} (hsettled : due.Settled) (shard : ℕ) :
    Books due ⟨.bump shard .requests 1, ()⟩ (.outcome shard 0)
  | reject (shard sent : ℕ) :
    Books (.outcome shard sent) ⟨.bump shard .rejections 1, ()⟩ .nothing
  | payload (shard : ℕ) {sent amount : ℕ} (hle : amount ≤ sent) :
    Books (.outcome shard sent) ⟨.bump shard .payloadBytes amount, ()⟩ .nothing
  | send (shard sent : ℕ) (bytes : Bytes) :
    Books (.outcome shard sent) ⟨.send bytes, .ok ()⟩ (.outcome shard (sent + bytes.length))
  | earn (shard sent : ℕ) {counter : Counter} (h : counter.Outcome) {op : IndexOp}
    {answer : Except IndexError op.Value}
    (hearns : ∀ counter' : Counter, counter'.Outcome →
      earns counter' ⟨.index op, answer⟩ = if counter = counter' then 1 else 0) :
    Books (.outcome shard sent) ⟨.index op, answer⟩ (.one shard counter h)
  | count (shard : ℕ) {counter : Counter} (h : counter.Outcome) :
    Books (.one shard counter h) ⟨.bump shard counter 1, ()⟩ .nothing
  | plain (due : Due) {op : Op} {answer : Ans op}
    (hbump : ∀ shard counter amount, op ≠ .bump shard counter amount)
    (hearns : ∀ counter : Counter, counter.Outcome → earns counter ⟨op, answer⟩ = 0) :
    Books due ⟨op, answer⟩ due

theorem earns_of_uncounted {op : Op} (h : op.Uncounted) {counter : Counter}
    (hcounter : counter.Outcome) (answer : Ans op) : earns counter ⟨op, answer⟩ = 0 := by
  cases op with
  | index op => cases op <;> first | exact h.elim | cases counter <;> rfl
  | bump shard counter amount => exact h.elim
  | send bytes => cases counter <;> first | rfl | exact absurd rfl hcounter.2
  | _ => cases counter <;> rfl

theorem Books.uncounted (due : Due) {op : Op} (answer : Ans op) (h : op.Uncounted) :
    Books due ⟨op, answer⟩ due := by
  refine .plain due ?_ fun counter hcounter ↦ earns_of_uncounted h hcounter answer
  rintro shard counter amount rfl
  exact h

namespace Due

variable {due due' : Due} {op : Op} {deed : Deed Ans}

theorem books_next (h : due.Allows op) (answer : Ans op) :
    Books due ⟨op, answer⟩ (due.next op answer) := by
  have hindex : ∀ (op : IndexOp) shard (counter : Counter) amount,
      Op.index op ≠ .bump shard counter amount := fun _ _ _ _ h ↦ Op.noConfusion h
  rcases due with - | ⟨shard, sent⟩ | ⟨shard, counter, hcounter⟩
  · cases op with
    | bump shard counter amount =>
      cases counter with
      | requests =>
        obtain rfl : amount = 1 := h
        exact @Books.request .nothing trivial shard
      | _ => exact h.elim
    | index op => cases op <;> first | exact h.elim | exact .uncounted _ answer trivial
    | _ => exact .uncounted _ answer trivial
  · cases op with
    | bump shard' counter amount =>
      cases counter with
      | requests =>
        obtain rfl : amount = 1 := h
        exact @Books.request (.outcome shard sent) trivial shard'
      | rejections =>
        obtain ⟨rfl, rfl⟩ : shard' = shard ∧ amount = 1 := h
        exact .reject shard' sent
      | payloadBytes =>
        obtain ⟨rfl, hle⟩ : shard' = shard ∧ amount ≤ sent := h
        exact .payload shard' hle
      | _ => exact h.elim
    | index op =>
      cases op with
      | narinfo key =>
        rcases answer with error | (_ | record)
        · exact .plain _ (hindex _) fun counter _ ↦ by cases counter <;> rfl
        · exact .earn shard sent _ fun counter _ ↦ by cases counter <;> rfl
        · exact .earn shard sent _ fun counter _ ↦ by cases counter <;> rfl
      | putNar narHash entry =>
        rcases answer with error | value
        · exact .plain _ (hindex _) fun counter _ ↦ by cases counter <;> rfl
        · exact .earn shard sent _ fun counter _ ↦ by cases counter <;> rfl
      | _ => exact .uncounted _ answer trivial
    | send bytes =>
      rcases answer with error | value
      · exact @Books.uncounted _ (.send bytes) (.error error) trivial
      · exact .send shard sent bytes
    | _ => exact .uncounted _ answer trivial
  · obtain rfl : op = .bump shard counter 1 := h
    exact .count shard hcounter

/-- Requests on a shard that may still have an outcome. -/
def pending (shard : ℕ) : Due → ℕ
  | .nothing => 0
  | .outcome shard' _ | .one shard' _ _ => if shard' = shard then 1 else 0

/-- What is to be added to a counter at once. -/
def owed (counter : Counter) : Due → ℕ
  | .one _ counter' _ => if counter' = counter then 1 else 0
  | _ => 0

theorem owed_of_settled (h : due.Settled) (counter : Counter) : due.owed counter = 0 := by
  cases due with
  | one shard counter' h' => exact h.elim
  | _ => rfl

theorem owed_le_one (due : Due) (counter : Counter) : due.owed counter ≤ 1 := by
  rcases due with - | - | ⟨shard, counter', h⟩
  · exact Nat.zero_le 1
  · exact Nat.zero_le 1
  · rw [owed]
    split
    · exact le_rfl
    · exact Nat.zero_le 1

/-- Bytes that may still be counted. -/
def sent : Due → ℕ
  | .outcome _ sent => sent
  | _ => 0

/-- What these deeds added to the counters is what they earned, up to what is due. -/
structure Balanced (due : Due) (deeds : List (Deed Ans)) : Prop where
  outcomes : ∀ shard, tally (settlesOn shard) deeds + due.pending shard
    ≤ tally (addsOn shard .requests) deeds
  exact : ∀ counter : Counter, counter.Outcome → counter ≠ .rejections →
    tally (earns counter) deeds = tally (adds counter) deeds + due.owed counter
  payload : tally (adds .payloadBytes) deeds + due.sent ≤ tally (earns .payloadBytes) deeds

end Due

namespace Books

variable {due due' : Due} {deed : Deed Ans}

theorem pending (h : Books due deed due') (shard : ℕ) :
    settlesOn shard deed + due'.pending shard
      ≤ addsOn shard .requests deed + due.pending shard := by
  cases h with
  | request hsettled shard' => simp [settlesOn, addsOn, Due.pending, Counter.Outcome]
  | reject shard' sent => simp [settlesOn, addsOn, Due.pending, Counter.Outcome]
  | payload shard' hle => simp [settlesOn, addsOn, Due.pending, Counter.Outcome]
  | send shard' sent bytes => simp [settlesOn, addsOn, Due.pending]
  | earn shard' sent h hearns => simp [settlesOn, addsOn, Due.pending]
  | count shard' h =>
    simp only [settlesOn, Due.pending, h, and_true, Nat.add_zero]
    exact Nat.le_add_left _ _
  | @plain due op answer hbump hearns =>
    cases op with
    | bump shard' counter amount => exact absurd rfl (hbump shard' counter amount)
    | _ => exact le_rfl

theorem owed (h : Books due deed due') {counter : Counter} (hcounter : counter.Outcome)
    (hrejections : counter ≠ .rejections) :
    earns counter deed + due.owed counter = adds counter deed + due'.owed counter := by
  have hbump : ∀ shard counter' amount, earns counter ⟨.bump shard counter' amount, ()⟩ = 0 :=
    fun _ _ _ ↦ by cases counter <;> rfl
  cases h with
  | request hsettled shard =>
    rw [hbump, Due.owed_of_settled hsettled, adds, if_neg (Ne.symm hcounter.1)]
    rfl
  | reject shard sent =>
    rw [hbump, adds, if_neg (Ne.symm hrejections)]
    rfl
  | payload shard hle =>
    rw [hbump, adds, if_neg (Ne.symm hcounter.2)]
    rfl
  | send shard sent bytes => exact congrArg (· + 0) (@earns_of_uncounted (.send bytes) trivial
      counter hcounter (.ok ()))
  | earn shard sent h hearns =>
    rw [hearns counter hcounter, Nat.add_comm]
    rfl
  | count shard h =>
    rw [hbump, Nat.zero_add]
    rfl
  | @plain due op answer hplain hearns =>
    rw [hearns counter hcounter]
    cases op with
    | bump shard counter' amount => exact absurd rfl (hplain shard counter' amount)
    | _ => rfl

theorem sent (h : Books due deed due') :
    adds .payloadBytes deed + due'.sent ≤ earns .payloadBytes deed + due.sent := by
  cases h with
  | request hsettled shard => exact Nat.zero_le _
  | reject shard sent => exact Nat.zero_le _
  | payload shard hle =>
    rw [adds, if_pos rfl]
    exact hle.trans (Nat.le_add_left _ _)
  | send shard sent bytes => exact (Nat.zero_add _).trans_le (Nat.add_comm _ _).le
  | earn shard sent h hearns => exact Nat.zero_le _
  | count shard h =>
    rw [adds, if_neg h.2]
    exact Nat.zero_le _
  | @plain due op answer hplain hearns =>
    cases op with
    | bump shard counter amount => exact absurd rfl (hplain shard counter amount)
    | _ => exact Nat.add_le_add_right (Nat.zero_le _) _

end Books

theorem balanced_of_leads {deeds : List (Deed Ans)} {due : Due}
    (h : bookkeeping.Leads .nothing deeds due) : due.Balanced deeds := by
  induction h with
  | nil => exact ⟨fun _ ↦ le_rfl, fun _ _ _ ↦ rfl, le_rfl⟩
  | @concat deeds due op hleads hallows answer ih =>
    have hbooks := due.books_next hallows answer
    refine ⟨fun shard ↦ ?_, fun counter hcounter hrejections ↦ ?_, ?_⟩
    · have hbefore := ih.outcomes shard
      have hstep := hbooks.pending shard
      rw [tally_concat, tally_concat]
      change _ + (due.next op answer).pending shard ≤ _
      omega
    · have hbefore := ih.exact counter hcounter hrejections
      have hstep := hbooks.owed hcounter hrejections
      rw [tally_concat, tally_concat]
      change _ = _ + (due.next op answer).owed counter
      omega
    · have hbefore := ih.payload
      have hstep := hbooks.sent
      rw [tally_concat, tally_concat]
      change _ + (due.next op answer).sent ≤ _
      omega

/-! ## Programs that count nothing -/

theorem uncounted_fileCall (op : FileOp) : (fileCall op).run.Uses Op.Uncounted :=
  ⟨trivial, fun _ ↦ trivial⟩

theorem uncounted_indexCall {op : IndexOp} (h : Op.Uncounted (.index op)) :
    (indexCall op).run.Uses Op.Uncounted := ⟨h, fun _ ↦ trivial⟩

namespace Store

theorem uncounted_read (url : NarUrl) : (read url).run.Uses Op.Uncounted := by
  refine uses_bind (uses_result (uncounted_fileCall _)) ?_
  rintro (error | inode)
  · cases error <;> trivial
  · exact uses_bind (uses_context (uncounted_fileCall _)) fun _ ↦ trivial

theorem uncounted_readAt (reader : Reader) (offset : ℕ) :
    (reader.readAt offset).run.Uses Op.Uncounted := uses_context (uncounted_fileCall _)

theorem uncounted_stage : stage.run.Uses Op.Uncounted :=
  uses_bind (uses_lift ⟨trivial, fun _ ↦ trivial⟩) fun _ ↦
    uses_bind (uses_lift ⟨trivial, fun _ ↦ trivial⟩) fun _ ↦
      uses_bind (uses_context (uncounted_fileCall _)) fun _ ↦ trivial

namespace Staged

variable (staged : Staged)

theorem uncounted_drop : staged.drop.Uses Op.Uncounted := ⟨trivial, fun _ ↦ trivial⟩

theorem uncounted_write (bytes : Bytes) : (staged.write bytes).run.Uses Op.Uncounted :=
  uses_bind (uses_context (uncounted_fileCall _)) fun _ ↦ trivial

theorem uncounted_commit (url : NarUrl) : (staged.commit url).run.Uses Op.Uncounted := by
  have hlink : (staged.link (Store.path url)).run.Uses Op.Uncounted :=
    uses_bind (uses_context (uncounted_fileCall _)) fun _ ↦
      uses_bind (uses_context (uncounted_fileCall _)) fun _ ↦ uses_context (uncounted_fileCall _)
  exact uses_bind (uses_onError hlink staged.uncounted_drop) fun _ ↦ trivial

end Staged

end Store

namespace Connection

theorem uncounted_recv : recv.run.Uses Op.Uncounted := uses_context ⟨trivial, fun _ ↦ trivial⟩

theorem uncounted_send (bytes : Bytes) : (send bytes).run.Uses Op.Uncounted :=
  uses_context ⟨trivial, fun _ ↦ trivial⟩

theorem uncounted_head (connection : Connection) : connection.head.run.Uses Op.Uncounted := by
  induction connection using head.induct with
  | case1 connection len hlen =>
    rw [head, hlen]
    trivial
  | case2 connection hlen hshort ih =>
    rw [head, hlen]
    dsimp only
    rw [if_pos hshort]
    refine uses_bind uncounted_recv fun read ↦ ?_
    split
    · split <;> trivial
    · next hread => exact ih read hread
  | case3 connection hlen hlong =>
    rw [head, hlen]
    dsimp only
    rw [if_neg hlong]
    trivial

theorem uncounted_chunk (connection : Connection) (remaining : ℕ) :
    (connection.chunk remaining).run.Uses Op.Uncounted := by
  have hfill : connection.fill.run.Uses Op.Uncounted := by
    rw [fill]
    split
    · refine uses_bind uncounted_recv fun read ↦ ?_
      split <;> trivial
    · trivial
  rw [chunk]
  split
  · trivial
  · exact uses_bind hfill fun _ ↦ trivial

theorem uncounted_body (connection : Connection) (len : ℕ) :
    (connection.body len).run.Uses Op.Uncounted := by
  induction connection using body.induct len with
  | case1 connection hshort ih =>
    rw [body, if_pos hshort]
    refine uses_bind uncounted_recv fun read ↦ ?_
    split
    · trivial
    · next hread => exact ih read hread
  | case2 connection hlong =>
    rw [body, if_neg hlong]
    trivial

end Connection

section Ingest

variable [Crates]

namespace Upload

theorem uncounted_drain (upload : Upload Receiving) : upload.drain.run.Uses Op.Uncounted := by
  rw [drain]
  split
  · trivial
  · exact uses_bind (uses_context (upload.staged.uncounted_write _)) fun _ ↦ trivial

theorem uncounted_write (upload : Upload Receiving) (chunk : Bytes) :
    (upload.write chunk).run.Uses Op.Uncounted := by
  rw [write]
  split
  · trivial
  · dsimp only
    split
    · exact uncounted_drain _
    · trivial

theorem uncounted_finish (upload : Upload Receiving) : upload.finish.run.Uses Op.Uncounted := by
  refine uses_onError (uses_bind upload.uncounted_drain fun upload ↦ ?_)
    upload.staged.uncounted_drop
  dsimp only
  split
  · trivial
  · exact uses_bind (uses_context (upload.staged.uncounted_write _)) fun _ ↦ trivial

omit [Crates] in
theorem uncounted_verify (upload : Upload Compressed) :
    upload.verify.run.Uses Op.Uncounted := by
  refine uses_onError ?_ upload.staged.uncounted_drop
  repeat' split
  all_goals trivial

end Upload

namespace Ingest

variable (ingest : Ingest)

theorem uncounted_receive (target : NarUrl) :
    (ingest.receive target).run.Uses Op.Uncounted := by
  rw [receive]
  split
  · refine uses_bind (uses_context Store.uncounted_stage) fun staged ↦ uses_context ?_
    rw [Upload.new]
    split
    · trivial
    · exact uses_bind (uses_lift staged.uncounted_drop) fun _ ↦ trivial
  · trivial

theorem uncounted_publish (body : Text) : (ingest.publish body).run.Uses Op.Uncounted := by
  rcases hparse : NarInfo.parse body ingest.dir with error | declared
  · rw [ingest.publish_of_error hparse]
    trivial
  · rw [ingest.publish_of_ok hparse]
    refine uses_bind (uses_context (uncounted_indexCall trivial)) ?_
    rintro (_ | entry)
    · trivial
    · rw [publishEntry]
      split
      · exact uses_bind (uses_context (uncounted_indexCall trivial)) fun _ ↦ trivial
      · trivial

end Ingest

end Ingest

namespace Cache

open Handler Response

variable (exchange : Exchange)

theorem uncounted_write (bytes : Bytes) : (write bytes).run.Uses Op.Uncounted :=
  uses_context (Connection.uncounted_send bytes)

theorem uncounted_answer (status : Status) (drained : Drained) :
    (answer exchange status drained).run.Uses Op.Uncounted :=
  uses_bind (uncounted_write _) fun _ ↦ trivial

theorem uncounted_refuse (refusal : Refusal) (drained : Drained) :
    (refuse exchange refusal drained).run.Uses Op.Uncounted := by
  rw [refuse]
  split
  · exact uncounted_answer exchange _ _
  · exact uses_bind (uncounted_write _) fun _ ↦ trivial

theorem uncounted_page (head : Head) (body : Bytes) :
    (send exchange head body).run.Uses Op.Uncounted :=
  uses_bind (uncounted_write _) fun _ ↦ trivial

theorem uncounted_proceed : (proceed exchange).run.Uses Op.Uncounted := by
  rw [proceed]
  split
  · exact uncounted_write _
  · trivial

theorem uncounted_metrics (cache : Cache) : (cache.metrics exchange).run.Uses Op.Uncounted :=
  uses_bind (uses_context (uncounted_indexCall trivial)) fun _ ↦
    uses_bind (uses_lift ⟨trivial, fun _ ↦ trivial⟩) fun _ ↦ uncounted_page exchange _ _

theorem uncounted_probe (url : NarUrl) : (probe exchange url).run.Uses Op.Uncounted := by
  refine uses_bind ?_ ?_
  · rw [probeLength]
    split
    · exact uses_bind (uses_context (uncounted_indexCall trivial)) fun _ ↦ trivial
    · exact uses_bind (uses_context (Store.uncounted_read url)) fun _ ↦ trivial
  · rintro (_ | length)
    · exact uncounted_answer exchange _ _
    · exact uses_bind (uncounted_write _) fun _ ↦ trivial

theorem uncounted_absorbBody [Crates] (upload : Upload Upload.Receiving) (connection : Connection)
    (remaining : ℕ) : (absorbBody upload connection remaining).run.Uses Op.Uncounted := by
  induction remaining using Nat.strong_induction_on generalizing upload connection with
  | _ remaining ih =>
    rw [absorbBody]
    split
    · refine uses_bind (uses_context (connection.uncounted_chunk remaining)) ?_
      rintro ⟨chunk, connection'⟩
      dsimp only
      split
      · trivial
      · next hne =>
        refine uses_bind (uses_context (upload.uncounted_write chunk)) fun upload' ↦ ?_
        have hlt : remaining - chunk.length < remaining := by
          have := List.length_pos_of_ne_nil hne
          omega
        exact ih _ hlt upload' connection'
    · trivial

end Cache

/-! ## Sessions keep their books -/

section Follows

variable {α : Type} {program : Program Ans α}

theorem follows_nothing (h : program.Uses Op.Uncounted) :
    program.Follows bookkeeping (fun _ due ↦ due = .nothing) .nothing := by
  induction program with
  | done value => rfl
  | call op next ih =>
    obtain ⟨hop, hnext⟩ := h
    have hallows : Due.nothing.Allows op := by
      cases op with
      | index op => cases op <;> first | exact hop.elim | trivial
      | bump shard counter amount => exact hop.elim
      | _ => trivial
    refine ⟨hallows, fun answer ↦ ?_⟩
    have hsame : Due.nothing.next op answer = .nothing := by
      cases op with
      | bump shard counter amount => exact hop.elim
      | _ => rfl
    change (next answer).Follows bookkeeping _ (Due.nothing.next op answer)
    rw [hsame]
    exact ih answer (hnext answer)

/-- While the outcome of a request is open, what is sent is all that changes. -/
theorem follows_outcome (h : program.Uses Op.Uncounted) (shard sent : ℕ) :
    program.Follows bookkeeping (fun _ due ↦ ∃ sent', due = .outcome shard sent' ∧ sent ≤ sent')
      (.outcome shard sent) := by
  induction program generalizing sent with
  | done value => exact ⟨sent, rfl, le_rfl⟩
  | call op next ih =>
    obtain ⟨hop, hnext⟩ := h
    have hallows : (Due.outcome shard sent).Allows op := by
      cases op with
      | bump shard counter amount => exact hop.elim
      | _ => trivial
    refine ⟨hallows, fun answer ↦ ?_⟩
    obtain ⟨sent₁, hsent₁, hle₁⟩ : ∃ sent₁, (Due.outcome shard sent).next op answer
        = .outcome shard sent₁ ∧ sent ≤ sent₁ := by
      cases op with
      | bump shard counter amount => exact hop.elim
      | index op => cases op <;> first | exact hop.elim | exact ⟨sent, rfl, le_rfl⟩
      | send bytes =>
        rcases answer with error | value
        · exact ⟨sent, rfl, le_rfl⟩
        · exact ⟨sent + bytes.length, rfl, Nat.le_add_right _ _⟩
      | _ => exact ⟨sent, rfl, le_rfl⟩
    change (next answer).Follows bookkeeping _ ((Due.outcome shard sent).next op answer)
    rw [hsent₁]
    refine (ih answer (hnext answer) sent₁).imp ?_
    rintro value due ⟨sent', rfl, hle⟩
    exact ⟨sent', rfl, hle₁.trans hle⟩

theorem follows_settled (h : program.Uses Op.Uncounted) {due : Due} (hdue : due.Settled) :
    program.Follows bookkeeping (fun _ due ↦ due.Settled) due := by
  rcases due with - | ⟨shard, sent⟩ | ⟨shard, counter, hcounter⟩
  · refine (follows_nothing h).imp ?_
    rintro value due rfl
    trivial
  · refine (follows_outcome h shard sent).imp ?_
    rintro value due ⟨sent', rfl, -⟩
    trivial
  · exact hdue.elim

end Follows

namespace Cache

open Handler Response

variable {exchange : Exchange} {shard sent : ℕ}

theorem follows_count {ε : Type} {counter : Counter} (h : counter.Outcome) :
    (bump shard counter 1 : Call ε Unit).run.Follows bookkeeping
      (fun _ due ↦ due = .nothing) (.one shard counter h) :=
  follows_lift ⟨rfl, fun _ ↦ rfl⟩

theorem follows_write (bytes : Bytes) : (write bytes).run.Follows bookkeeping
    (fun result due ↦ ∃ sent', due = .outcome shard sent'
      ∧ ∀ value, result = .ok value → sent + bytes.length ≤ sent') (.outcome shard sent) := by
  refine follows_context (follows_context ⟨trivial, ?_⟩)
  rintro (error | value)
  · exact ⟨sent, rfl, fun _ h ↦ absurd h (by simp [Except.mapError])⟩
  · exact ⟨sent + bytes.length, rfl, fun _ _ ↦ le_rfl⟩

private theorem filled_pos {read : Bytes} (h : read ≠ []) (left : ℕ) :
    0 < (read.take (min (left + 1) Connection.sendChunk)).length := by
  have hchunk : 0 < Connection.sendChunk := by decide
  rw [List.length_take]
  exact lt_min (lt_min (Nat.succ_pos left) hchunk) (List.length_pos_of_ne_nil h)

/-- What is said to be sent was sent. -/
theorem books_pump {reader : Store.Reader} {span : Range.Span} (hspan : span.first ≤ span.last)
    {offset : ℕ} (hfirst : span.first ≤ offset) (hlast : offset ≤ span.last + 1)
    (hsent : offset ≤ span.first + sent) :
    (pump reader span offset).run.Follows bookkeeping (fun result due ↦ ∃ sent',
      due = .outcome shard sent' ∧ ∀ n, result = .ok n → n ≤ sent') (.outcome shard sent) := by
  induction hn : span.last + 1 - offset using Nat.strong_induction_on
    generalizing offset sent with
  | _ n ih =>
    rw [pump]
    split
    · refine follows_bind (follows_context ((follows_outcome
        (Store.uncounted_readAt reader offset) shard sent).imp ?_))
      rintro (error | read) due₁ ⟨sent₁, rfl, hle₁⟩
      · exact ⟨sent₁, rfl, fun _ h ↦ absurd h (by simp)⟩
      dsimp only [Except.mapError]
      split
      · refine ⟨sent₁, rfl, fun n hn ↦ ?_⟩
        obtain rfl := Except.ok.inj hn
        omega
      · next hread =>
        set filled := read.take (min (span.last - offset + 1) Connection.sendChunk)
        have hpos : 0 < filled.length := filled_pos hread _
        have hlength : filled.length ≤ span.last - offset + 1 :=
          (List.length_take_le _ read).trans (min_le_left _ _)
        refine follows_bind ((follows_write filled).imp ?_)
        rintro (error | ⟨⟩) due₂ ⟨sent₂, rfl, hsent₂⟩
        · exact ⟨sent₂, rfl, fun _ h ↦ absurd h (by simp)⟩
        have hle₂ := hsent₂ () rfl
        exact ih _ (by omega) (by omega) (by omega) (by omega) rfl
    · refine ⟨sent, rfl, fun n hn ↦ ?_⟩
      obtain rfl := Except.ok.inj hn
      rw [Range.Span.len]
      omega

theorem books_stream (url : NarUrl) :
    (stream exchange url).run.Follows bookkeeping (fun _ due ↦ due.Settled)
      (.outcome exchange.shard sent) := by
  have htransmit : ∀ (reader : Store.Reader) (head : Bytes) {span : Range.Span} {sent : ℕ},
      span.first ≤ span.last →
      (do write head
          let sent ← pump reader span span.first
          bump exchange.shard .payloadBytes sent
          pure exchange.request.keepAlive : Call Handler.Error _).run.Follows bookkeeping
        (fun _ due ↦ due.Settled) (.outcome exchange.shard sent) := by
    intro reader head span sent hspan
    refine follows_bind ((follows_outcome (uncounted_write head) _ _).imp ?_)
    rintro (error | ⟨⟩) due₁ ⟨sent₁, rfl, -⟩
    · trivial
    refine follows_bind ((books_pump hspan le_rfl (hspan.trans (Nat.le_succ _))
      (Nat.le_add_right _ _)).imp ?_)
    rintro (error | counted) due₂ ⟨sent₂, rfl, hcounted⟩
    · trivial
    exact follows_bind (follows_lift ⟨⟨rfl, hcounted counted rfl⟩, fun _ ↦ trivial⟩)
  refine follows_bind (follows_context ((follows_outcome (Store.uncounted_read url) _ _).imp ?_))
  rintro (error | _ | reader) due₁ ⟨sent₁, rfl, -⟩
  · trivial
  · exact follows_settled (uncounted_answer exchange _ _) trivial
  · dsimp only [Except.mapError]
    split
    · exact follows_settled (uncounted_answer exchange _ _) trivial
    · next hsize =>
      split
      · exact htransmit reader _ (Nat.zero_le _)
      · next span hspan =>
        exact htransmit reader _ (Range.resolve_part (Nat.pos_of_ne_zero hsize) hspan).1
      · refine follows_settled (uses_bind ?_ fun _ ↦ ?_) trivial
        · exact uncounted_write _
        · trivial

variable [Crates] (cache : Cache)

theorem books_narinfo (key : StorePath.Hash) :
    (cache.narinfo exchange key).run.Follows bookkeeping (fun _ due ↦ due.Settled)
      (.outcome exchange.shard sent) := by
  refine follows_bind (follows_context ⟨trivial, ?_⟩)
  rintro (error | _ | record)
  · trivial
  · refine follows_bind ((follows_count _).imp ?_)
    rintro (error | ⟨⟩) due rfl
    · trivial
    · exact follows_settled (uncounted_answer exchange _ _) trivial
  · refine follows_bind ((follows_count _).imp ?_)
    rintro (error | ⟨⟩) due rfl
    · trivial
    · exact follows_settled (uncounted_page exchange _ _) trivial

theorem books_admitRequest :
    (cache.admitRequest exchange).run.Follows bookkeeping (fun result due ↦
      due = .nothing ∧ result = .ok .denied
        ∨ due = .outcome exchange.shard sent ∧ result = .ok .admitted)
      (.outcome exchange.shard sent) := by
  rw [admitRequest]
  dsimp only
  split
  · next hdenied =>
    refine follows_bind (follows_lift ⟨⟨rfl, rfl⟩, fun _ ↦ ?_⟩)
    exact .inl ⟨rfl, congrArg Except.ok hdenied⟩
  · next hdenied =>
    refine .inr ⟨rfl, ?_⟩
    rcases hadmission : cache.admission exchange.request with - | -
    · rfl
    · exact absurd hadmission hdenied

omit [Crates] in
theorem books_store {upload : Upload Upload.Verified} :
    upload.store.run.Follows bookkeeping (fun result due ↦ match result with
      | .ok _ => due = .one shard .uploads (by decide)
      | .error _ => due.Settled) (.outcome shard sent) := by
  rw [Upload.store]
  dsimp only
  refine follows_bind (follows_context ((follows_outcome
    (upload.staged.uncounted_commit _) _ _).imp ?_))
  rintro (error | value) due ⟨sent', rfl, -⟩
  · trivial
  refine follows_bind (follows_context ⟨trivial, ?_⟩)
  rintro (error | value)
  · trivial
  · rfl

theorem books_receive (url : NarUrl) :
    (cache.receive exchange url).run.Follows bookkeeping (fun _ due ↦ due.Settled)
      (.outcome exchange.shard sent) := by
  refine follows_bind ((books_admitRequest cache).imp ?_)
  rintro result due (⟨rfl, rfl⟩ | ⟨rfl, rfl⟩)
  · exact follows_settled (uses_map (uncounted_answer exchange _ _)) trivial
  dsimp only
  rw [if_neg (by decide)]
  split
  · refine follows_bind (follows_result ((follows_outcome
      (cache.ingest.uncounted_receive url) _ _).imp ?_))
    rintro (error | upload) due₁ ⟨sent₁, rfl, -⟩
    · exact follows_settled (uses_map (uncounted_refuse exchange _ _)) trivial
    refine follows_bind ((follows_outcome (uses_onError (uses_bind (uncounted_proceed exchange)
      fun _ ↦ uncounted_absorbBody upload _ _) upload.staged.uncounted_drop) _ _).imp ?_)
    rintro (error | ⟨upload₂, connection⟩) due₂ ⟨sent₂, rfl, -⟩
    · trivial
    refine follows_bind (follows_context ((follows_outcome upload₂.uncounted_finish _ _).imp ?_))
    rintro (error | compressed) due₃ ⟨sent₃, rfl, -⟩
    · trivial
    refine follows_bind (follows_result ((follows_outcome
      compressed.uncounted_verify _ _).imp ?_))
    rintro (error | verified) due₄ ⟨sent₄, rfl, -⟩
    · exact follows_settled (uses_bind (uncounted_refuse exchange _ _) fun _ ↦ by trivial) trivial
    refine follows_bind (follows_context (books_store.imp ?_))
    rintro (error | entry) due₅ h₅
    · exact h₅
    obtain rfl : due₅ = .one exchange.shard .uploads (by decide) := h₅
    refine follows_bind ((follows_count _).imp ?_)
    rintro (error | ⟨⟩) due₆ rfl
    · trivial
    · exact follows_settled (uses_bind (uncounted_answer exchange _ _) fun _ ↦ by trivial) trivial
  · exact follows_settled (uses_map (uncounted_answer exchange _ _)) trivial

theorem books_publish :
    (cache.publish exchange).run.Follows bookkeeping (fun _ due ↦ due.Settled)
      (.outcome exchange.shard sent) := by
  refine follows_bind ((books_admitRequest cache).imp ?_)
  rintro result due (⟨rfl, rfl⟩ | ⟨rfl, rfl⟩)
  · exact follows_settled (uses_map (uncounted_answer exchange _ _)) trivial
  dsimp only
  rw [if_neg (by decide)]
  refine follows_settled ?_ trivial
  split
  · next length _ =>
    split
    · exact uses_map (uncounted_answer exchange _ _)
    refine uses_bind (uncounted_proceed exchange) fun _ ↦ ?_
    refine uses_bind (uses_context (exchange.connection.uncounted_body length)) ?_
    rintro ⟨body, connection⟩
    dsimp only
    split
    · exact uses_bind (uncounted_answer exchange _ _) fun _ ↦ trivial
    · refine uses_bind (uses_result (cache.ingest.uncounted_publish _)) ?_
      rintro (error | record)
      · exact uses_bind (uncounted_refuse exchange _ _) fun _ ↦ trivial
      · exact uses_bind (uncounted_answer exchange _ _) fun _ ↦ trivial
  · exact uses_map (uncounted_answer exchange _ _)

theorem books_dispatch (route : Route) :
    (cache.dispatch exchange route).run.Follows bookkeeping (fun _ due ↦ due.Settled)
      (.outcome exchange.shard sent) := by
  have hmap : ∀ {program : Call Handler.Error Http.KeepAlive} {sent : ℕ},
      program.run.Follows bookkeeping (fun _ due ↦ due.Settled) (.outcome exchange.shard sent) →
      ((fun keepAlive ↦ (keepAlive, exchange.connection)) <$> program).run.Follows bookkeeping
        (fun _ due ↦ due.Settled) (.outcome exchange.shard sent) := by
    intro program sent h
    rw [Attempt.run_map]
    exact Follows.bind h
  rcases route with - | - | key | url
  · exact follows_settled (uses_map (uncounted_page exchange _ _)) trivial
  · exact follows_settled (uses_map (uncounted_metrics exchange cache)) trivial
  · rw [dispatch]
    split
    · exact books_publish cache
    · exact hmap (books_narinfo cache key)
  · rw [dispatch]
    split
    · exact books_receive cache url
    · exact follows_settled (uses_map (uncounted_probe exchange url)) trivial
    · exact hmap (books_stream url)

/-- An exchange opens the books for its request, and leaves nothing to be counted at once. -/
theorem books_handle {due : Due} (hdue : due.Settled) :
    (cache.handle exchange).run.Follows bookkeeping (fun _ due ↦ due.Settled) due := by
  have hbump : (bump exchange.shard .requests 1 : Call Handler.Error Unit).run.Follows bookkeeping
      (fun _ due ↦ due = .outcome exchange.shard 0) due := by
    rcases due with - | ⟨shard, sent⟩ | ⟨shard, counter, hcounter⟩
    · exact follows_lift ⟨rfl, fun _ ↦ rfl⟩
    · exact follows_lift ⟨rfl, fun _ ↦ rfl⟩
    · exact hdue.elim
  refine follows_bind (hbump.imp ?_)
  rintro (error | ⟨⟩) due₁ rfl
  · trivial
  dsimp only
  split
  · exact follows_settled (uses_map (uncounted_answer exchange _ _)) trivial
  split
  · exact books_dispatch cache _
  · exact follows_settled (uses_map (uncounted_answer exchange _ _)) trivial
  · exact follows_settled (uses_map (uncounted_answer exchange _ _)) trivial

theorem books_session (shard turns : ℕ) (connection : Connection) {due : Due}
    (hdue : due.Settled) : (cache.session shard turns connection).run.Follows bookkeeping
      (fun _ due ↦ due.Settled) due := by
  induction turns generalizing connection due with
  | zero => exact hdue
  | succ turns ih =>
    refine follows_bind (follows_bind (follows_context
      ((follows_settled connection.uncounted_head hdue).imp ?_)))
    rintro (error | ⟨head, connection₁⟩) due₁ h₁
    · exact h₁
    dsimp only [Except.mapError]
    rcases head with - | head
    · exact h₁
    dsimp only [attend]
    split
    · refine follows_bind ((follows_settled (uncounted_write _) h₁).imp ?_)
      rintro (error | ⟨⟩) due₂ h₂
      · exact h₂
      · exact h₂
    · refine follows_bind ((books_handle cache h₁).imp ?_)
      rintro (error | ⟨keepAlive, connection₂⟩) due₂ h₂
      · exact h₂
      · rcases keepAlive with - | -
        · exact ih connection₂ h₂
        · exact h₂

end Cache

end Bincache
