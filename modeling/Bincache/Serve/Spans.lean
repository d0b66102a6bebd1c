import Bincache.Serve.Exchanges
import Bincache.Serve.RangeGrammar
import Bincache.Specimen

/-!
# Serving part of an artifact

A `GET` of an artifact is answered with the span its `Range` header selects, or told that there is
no such span. What is announced is what is sent, however the reads are cut: the loop of `pump`
sends, read by read, what the artifact has from its offset on, and a read past the end of the span
is cut there. So the part a client got before it was interrupted and the part it asks for next make
up the artifact.

The source computes all positions in 64 bits without a check. The functions on `U64` below do the
same arithmetic and give no answer where it would leave the 64 bits; on any artifact that a file can
hold they agree with the unbounded ones.
-/

namespace Bincache

/-! ## Arithmetic in 64 bits -/

namespace U64

/-- `a + b`, unless it overflows. -/
def add (a b : ℕ) : Option ℕ := if a + b < 2 ^ 64 then some (a + b) else none

def sub (a b : ℕ) : Option ℕ := if b ≤ a then some (a - b) else none

theorem add_eq_some {a b : ℕ} (h : a + b < 2 ^ 64) : add a b = some (a + b) := if_pos h

theorem sub_eq_some {a b : ℕ} (h : b ≤ a) : sub a b = some (a - b) := if_pos h

theorem eq_of_add_eq_some {a b n : ℕ} (h : add a b = some n) : n = a + b := by
  rw [add] at h
  split at h
  · exact (Option.some.inj h).symm
  · exact absurd h (by simp)

end U64

namespace Range

/-- `Span.len`, step by step. -/
def Span.lenU64 (span : Span) : Option ℕ := do
  let between ← U64.sub span.last span.first
  U64.add between 1

/-- `suffix`, step by step; its first position is a saturating subtraction. -/
def suffixU64 (last : Text) (length : ℕ) : Option Requested :=
  match Text.parseU64 last with
  | none => some .whole
  | some wanted =>
    if wanted = 0 then some .unsatisfiable
    else do
      let last ← U64.sub length 1
      some (.part ⟨length - wanted, last⟩)

/-- `resolve`, step by step. -/
def resolveU64 (header : Option Text) (length : ℕ) : Option Requested :=
  match header.bind fun header ↦ Text.stripPrefix "bytes=".toList (Text.trim header) with
  | none => some .whole
  | some set =>
    if ',' ∈ set then some .whole
    else
      match Text.splitOnce ['-'] set with
      | none => some .whole
      | some (first, last) =>
        if first = [] then suffixU64 last length
        else
          match Text.parseU64 first with
          | none => some .whole
          | some first =>
            if length ≤ first then some .unsatisfiable
            else do
              let final ← U64.sub length 1
              match if last = [] then some final
                  else (Text.parseU64 last).map fun last ↦ min last final with
              | none => some .whole
              | some last => some (if last < first then .unsatisfiable else .part ⟨first, last⟩)

theorem resolveU64_eq (header : Option Text) {length : ℕ} (h : 0 < length) :
    resolveU64 header length = some (resolve header length) := by
  have hfinal : U64.sub length 1 = some (length - 1) := U64.sub_eq_some h
  rw [resolveU64, resolve]
  cases header.bind fun header ↦ Text.stripPrefix "bytes=".toList (Text.trim header) with
  | none => rfl
  | some set =>
    dsimp only
    by_cases hcomma : ',' ∈ set
    · rw [if_pos hcomma, if_pos hcomma]
    rw [if_neg hcomma, if_neg hcomma]
    cases Text.splitOnce ['-'] set with
    | none => rfl
    | some fields =>
      obtain ⟨first, last⟩ := fields
      dsimp only
      by_cases hfirst : first = []
      · rw [if_pos hfirst, if_pos hfirst, suffixU64, suffix]
        cases Text.parseU64 last with
        | none => rfl
        | some wanted =>
          dsimp only
          rw [hfinal, apply_ite some]
          exact if_congr Iff.rfl rfl rfl
      rw [if_neg hfirst, if_neg hfirst]
      cases Text.parseU64 first with
      | none => rfl
      | some first =>
        dsimp only
        rw [hfinal, lastOf, apply_ite some]
        refine if_congr Iff.rfl rfl ?_
        dsimp only [Option.bind_eq_bind, Option.bind_some]
        cases (if last = [] then some (length - 1)
          else (Text.parseU64 last).map fun last ↦ min last (length - 1)) with
        | none => rfl
        | some last => rfl

theorem Span.lenU64_eq {span : Span} (hle : span.first ≤ span.last)
    (hlt : span.last - span.first + 1 < 2 ^ 64) : span.lenU64 = some span.len := by
  rw [lenU64, U64.sub_eq_some hle]
  exact U64.add_eq_some hlt

end Range

namespace Cache

open Handler Response

/-- A value of 64-bit arithmetic; an overflow is a failure of its own. -/
def checked (value : Option ℕ) : Call (Option Error) ℕ :=
  match value with
  | some value => pure value
  | none => throw none

/-- `pump`, with its arithmetic step by step. -/
def pumpU64 (reader : Store.Reader) (span : Range.Span) (offset : ℕ) : Call (Option Error) ℕ :=
  if offset ≤ span.last then
    match _hleft : (U64.sub span.last offset).bind (U64.add · 1) with
    | none => throw none
    | some left => do
      let wanted := min left Connection.sendChunk
      let read ← (reader.readAt offset).context fun error ↦ some (.store error)
      if _h : read = [] then checked (U64.sub offset span.first)
      else do
        let filled := read.take wanted
        (write filled).context some
        match _hnext : U64.add offset filled.length with
        | none => throw none
        | some next => pumpU64 reader span next
  else checked span.lenU64
termination_by span.last + 1 - offset
decreasing_by
  obtain ⟨between, -, hleft⟩ := Option.bind_eq_some_iff.mp _hleft
  have hpos := List.length_pos_of_ne_nil _h
  have hchunk : 0 < Connection.sendChunk := by decide
  have hleft := U64.eq_of_add_eq_some hleft
  have hnext := U64.eq_of_add_eq_some _hnext
  rw [List.length_take] at hnext
  omega

/-- Within 64 bits the loop computes as if they had no end, whatever the reads deliver. -/
theorem pumpU64_eq (reader : Store.Reader) {span : Range.Span} (hle : span.first ≤ span.last)
    (hlt : span.last + 1 < 2 ^ 64) {offset : ℕ} (hoffset : span.first ≤ offset)
    (hend : offset ≤ span.last + 1) :
    pumpU64 reader span offset = (pump reader span offset).context some := by
  -- by the bytes that are left: a read that is not empty takes at least one of them
  induction hn : span.last + 1 - offset using Nat.strong_induction_on generalizing offset with
  | _ n ih =>
    rw [pumpU64, pump]
    by_cases hoffset' : offset ≤ span.last
    · have hleft : (U64.sub span.last offset).bind (U64.add · 1)
          = some (span.last - offset + 1) := by
        rw [U64.sub_eq_some hoffset']
        exact U64.add_eq_some (by omega)
      rw [if_pos hoffset', if_pos hoffset', Attempt.context_bind, Attempt.context_context]
      split
      · next hnone => exact absurd (hleft.symm.trans hnone) (by simp)
      next left hsome =>
      obtain rfl := Option.some.inj (hleft.symm.trans hsome)
      refine congrArg ((reader.readAt offset).context (fun error ↦ some (Error.store error)) >>= ·)
        (funext fun read ↦ ?_)
      by_cases hread : read = []
      · rw [dif_pos hread, dif_pos hread, U64.sub_eq_some hoffset]
        rfl
      · rw [dif_neg hread, dif_neg hread, Attempt.context_bind]
        set filled := read.take (min (span.last - offset + 1) Connection.sendChunk) with hfilled
        have hlen : filled.length ≤ span.last - offset + 1 := by
          rw [hfilled, List.length_take]
          omega
        have hpos : 0 < filled.length := by
          rw [hfilled, List.length_take]
          exact lt_min (lt_min (Nat.succ_pos _) (by decide)) (List.length_pos_of_ne_nil hread)
        refine congrArg ((write filled).context some >>= ·) (funext fun _ ↦ ?_)
        have hnext : U64.add offset filled.length = some (offset + filled.length) :=
          U64.add_eq_some (by omega)
        split
        · next hnone => exact absurd (hnext.symm.trans hnone) (by simp)
        next next hsome =>
        obtain rfl := Option.some.inj (hnext.symm.trans hsome)
        exact ih _ (by omega) (by omega) (by omega) rfl
    · rw [if_neg hoffset', if_neg hoffset', Range.Span.lenU64_eq hle (by omega)]
      rfl

/-! ## What is announced and what is sent -/

/-- The message announces this span of the artifact and carries it. -/
structure Covers (content : Bytes) (span : Range.Span) (message : Message) : Prop where
  final : message.reply.Final
  bounds : span.first ≤ span.last ∧ span.last < content.length
  status : message.reply.status
    = if span = ⟨0, content.length - 1⟩ then .ok else .partialContent
  length : message.reply.length = span.last - span.first + 1
  /-- There is one `Content-Range` for a part of the artifact, and none for all of it. -/
  range : ∀ value, ("Content-Range".toList, value) ∈ message.reply.headers
    ↔ span ≠ ⟨0, content.length - 1⟩ ∧ value = "bytes ".toList ++ Text.decimal span.first
      ++ '-' :: Text.decimal span.last ++ '/' :: Text.decimal content.length
  body : message.body = (content.drop span.first).take (span.last - span.first + 1)

/-- The message announces that no byte of the artifact is asked for, and carries none. -/
structure Unsatisfied (message : Message) : Prop where
  final : message.reply.Final
  status : message.reply.status = .rangeNotSatisfiable
  length : message.reply.length = 0
  body : message.body = []

/-- How a request for an artifact is answered: for no range with all of it, for `bytes=k-` with what
is left from there. -/
structure Delivers (content : Bytes) (range : Option Text) (message : Message) : Prop where
  answer : Unsatisfied message ∨ ∃ span, Covers content span message
  whole : range = none → message.body = content
  rest : ∀ k, k < content.length → range = some ("bytes=".toList ++ Text.decimal k ++ ['-']) →
    message.body = content.drop k

/-- None of the arithmetic between the header and the last byte leaves the 64 bits. -/
structure Fits (range : Option Text) (size : ℕ) : Prop where
  last : U64.sub size 1 = some (size - 1)
  resolve : Range.resolveU64 range size = some (Range.resolve range size)
  len : ∀ span, wantedSpan range size = some span → span.lenU64 = some span.len
  pump : ∀ span, wantedSpan range size = some span → ∀ reader,
    pumpU64 reader span span.first = (pump reader span span.first).context some

theorem fits {range : Option Text} {size : ℕ} (hpos : 0 < size) (hlt : size < 2 ^ 64) :
    Fits range size where
  last := U64.sub_eq_some hpos
  resolve := Range.resolveU64_eq range hpos
  len span hspan := by
    obtain ⟨hle, hlast⟩ := wantedSpan_bounds hpos hspan
    exact Range.Span.lenU64_eq hle (by omega)
  pump span hspan reader := by
    obtain ⟨hle, hlast⟩ := wantedSpan_bounds hpos hspan
    exact pumpU64_eq reader hle (by omega) le_rfl (by omega)

variable {exchange : Exchange} {content : Bytes}

private theorem len_eq_iff {span : Range.Span} (hle : span.first ≤ span.last)
    (hlt : span.last < content.length) :
    span.len = content.length ↔ span = ⟨0, content.length - 1⟩ := by
  obtain ⟨first, last⟩ := span
  dsimp only at hle hlt
  rw [Range.Span.len, Range.Span.mk.injEq]
  dsimp only
  omega

theorem covers_spanMessage (request : Http.Request) {span : Range.Span}
    (hle : span.first ≤ span.last) (hlt : span.last < content.length) :
    Covers content span (spanMessage request (.of content) span) := by
  have hwhole := len_eq_iff hle hlt
  refine ⟨final_spanMessage _ _ _, ⟨hle, hlt⟩, ?_, rfl, fun value ↦ ?_, rfl⟩
  · rw [spanMessage, ite_not]
    exact if_congr hwhole rfl rfl
  · have hother : ("Content-Range".toList, value)
        ∉ [("Content-Type".toList, NarUrl.contentType),
          ("Accept-Ranges".toList, "bytes".toList)] := by
      simp only [List.mem_cons, Prod.mk.injEq, List.not_mem_nil, or_false, not_or]
      exact ⟨fun h ↦ absurd h.1 (by decide), fun h ↦ absurd h.1 (by decide)⟩
    rw [spanMessage, List.mem_append, or_iff_right hother, contentRange]
    change _ ∈ (if span.len ≠ content.length then _ else _) ↔ _
    by_cases heq : span.len = content.length
    · rw [if_neg (not_not.mpr heq)]
      exact iff_of_false List.not_mem_nil fun h ↦ h.1 (hwhole.mp heq)
    · rw [if_pos heq, List.mem_singleton, Prod.mk.injEq]
      exact ⟨fun h ↦ ⟨fun hspan ↦ heq (hwhole.mpr hspan), h.2⟩, fun h ↦ ⟨rfl, h.2⟩⟩

theorem unsatisfied_rangeMessage (request : Http.Request) (size : ℕ) :
    Unsatisfied (rangeMessage request size) :=
  ⟨(whole_rangeMessage request size .get).final, rfl, rfl, rfl⟩

theorem wantedSpan_onward {k : ℕ} (hk : k < content.length) (hlt : content.length < 2 ^ 64) :
    wantedSpan (some ("bytes=".toList ++ Text.decimal k ++ ['-'])) content.length
      = some ⟨k, content.length - 1⟩ := by
  have htrim : Text.Trimmed ("bytes=".toList ++ Text.decimal k ++ ['-']) := by
    refine Text.trimmed_of_forall fun c hc ↦ ?_
    obtain hc | hc := List.mem_append.mp hc
    · obtain hc | hc := List.mem_append.mp hc
      · have hletters : "bytes=".toList.all (fun c ↦ !Text.isWhiteSpace c) = true := by decide
        have := List.all_eq_true.mp hletters c hc
        rwa [Bool.not_eq_true'] at this
      · exact Text.isWhiteSpace_of_isDigit (Text.isDigit_of_mem_decimal hc)
    · obtain rfl := List.mem_singleton.mp hc
      decide
  have hmeans : Range.Means ("bytes=".toList ++ Text.decimal k ++ ['-']) (.onward k) := by
    refine ⟨Text.decimal k ++ ['-'], ?_, .onward (Text.digits_decimal (hk.trans hlt))⟩
    rw [Text.trim_eq_self htrim, List.append_assoc]
  rw [wantedSpan, Range.resolve_of_means (by omega) hmeans, Range.Spec.select, if_neg (by omega)]

private theorem streamMessage_of_pos (hpos : 0 < content.length) :
    streamMessage exchange (some (.of content))
      = match wantedSpan exchange.request.range content.length with
        | some span => spanMessage exchange.request (.of content) span
        | none => rangeMessage exchange.request content.length :=
  if_neg hpos.ne'

theorem delivers_streamMessage (hpos : 0 < content.length) (hlt : content.length < 2 ^ 64) :
    Delivers content exchange.request.range (streamMessage exchange (some (.of content))) := by
  rw [streamMessage_of_pos hpos]
  refine ⟨?_, fun hnone ↦ ?_, fun k hk hsome ↦ ?_⟩
  · cases hwanted : wantedSpan exchange.request.range content.length with
    | none => exact .inl (unsatisfied_rangeMessage _ _)
    | some span =>
      obtain ⟨hle, hlast⟩ := wantedSpan_bounds hpos hwanted
      exact .inr ⟨span, covers_spanMessage _ hle hlast⟩
  · rw [hnone]
    change (content.drop 0).take _ = content
    rw [List.drop_zero, Range.Span.len]
    exact List.take_of_length_le (by dsimp only; omega)
  · rw [hsome, wantedSpan_onward hk hlt]
    change (content.drop k).take _ = content.drop k
    refine List.take_of_length_le ?_
    rw [List.length_drop, Range.Span.len]
    dsimp only
    omega

/-- What came before an interruption and what a request for the rest brings make up the artifact. -/
theorem Delivers.resume {whole part : Message} {k : ℕ} (hk : k < content.length)
    (hwhole : Delivers content none whole)
    (hpart : Delivers content (some ("bytes=".toList ++ Text.decimal k ++ ['-'])) part) :
    whole.body.take k ++ part.body = content := by
  rw [hwhole.whole rfl, hpart.rest k hk rfl, List.take_append_drop]

/-- How requests for an artifact that is there are streamed. -/
structure Streams (exchange : Exchange) (url : NarUrl) (content : Bytes) (site : Site) : Prop where
  fits : Fits exchange.request.range content.length
  /-- However the reads are cut, the answer is complete and is what it announces. -/
  answers : ∀ result site', (stream exchange url).run.Runs (step .fair) site result site' →
    result = .ok exchange.request.keepAlive ∧ ∃ message,
      Delivers content exchange.request.range message
        ∧ site'.2.written = site.2.written ++ message.bytes
  /-- The beginning of the whole and the answer for the rest make up the artifact. -/
  resumes : ∀ k whole part, k < content.length → Delivers content none whole →
    Delivers content (some ("bytes=".toList ++ Text.decimal k ++ ['-'])) part →
      whole.body.take k ++ part.body = content

/-- A request for an artifact is answered with the span it announces, within 64 bits, and requests
for the beginning and for the rest of an artifact bring all of it. -/
theorem streams_of_lookup (exchange : Exchange) (url : NarUrl) (content : Bytes) {site : Site}
    (hpos : 0 < content.length) (hlt : content.length < 2 ^ 64)
    (hfile : site.1.fs.lookup (Store.path url) = some (.of content)) :
    Streams exchange url content site where
  fits := fits hpos hlt
  resumes k whole part hk hwhole hpart := hwhole.resume hk hpart
  answers result site' hrun := by
    obtain ⟨-, -, hresult⟩ := (ends_stream site url).runs hrun
    -- the run is fair, so it ended with a message, and the file says which
    rw [hfile] at hresult
    cases result with
    | error error =>
      obtain ⟨henv, -⟩ := hresult
      exact absurd henv (by decide)
    | ok keepAlive =>
      obtain ⟨rfl, hwritten⟩ := hresult
      refine ⟨congrArg _ ?_, _, delivers_streamMessage hpos hlt, hwritten⟩
      rw [streamMessage_of_pos hpos]
      split <;> rfl

end Cache

section

open Specimen

/-- A resumed download of three bytes. -/
theorem streams_specimen : Cache.Streams
    ⟨0, {}, ⟨.get, artifact, .empty, .keep, .none, some "bytes=1-".toList, none⟩⟩ entry.url
    [1, 2, 3]
    (world uploaded (stored (.of [1, 2, 3])), ⟨[], []⟩) :=
  Cache.streams_of_lookup _ entry.url [1, 2, 3] (by decide) (by decide) (lookup_stored _)

end

end Bincache
