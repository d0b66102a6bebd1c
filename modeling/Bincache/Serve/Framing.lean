import Bincache.Serve.Fields

/-!
# The framing of a request

Where a request ends is said by its `Content-Length` and `Transfer-Encoding` lines taken together,
in whatever order they come. `Frames` is that reading of a head; `Http.parse` finds its own with a
fold over the lines in which a later line overrides an earlier one. The two agree on an accepted
head but for three kinds: `Content-Length` lines that differ, a value that is no digit string, and a
field name with white space around it, which the parser does not recognise.
-/

namespace Bincache

namespace Http

open Text (Digits)

/-- A line of a field, up to case and white space around its name. -/
def Field (name line value : Text) : Prop :=
  ∃ spelled rest, Text.splitOnce [':'] line = some (spelled, rest) ∧ value = Text.trim rest
    ∧ Text.eqIgnoreAsciiCase (Text.trim spelled) name = true

/-- A line of a field that the parser takes for one. -/
def Seen (name line value : Text) : Prop :=
  ∃ spelled rest, Text.splitOnce [':'] line = some (spelled, rest) ∧ value = Text.trim rest
    ∧ Text.eqIgnoreAsciiCase spelled name = true

def headerLines (head : Bytes) : List Text :=
  match Text.fromUtf8 head with
  | none => []
  | some text => (Text.splitCrlfTerminator text).tail.filter (· ≠ [])

/-- The framing of a request with these header lines. -/
def Frames (lines : List Text) : Framing → Prop
  | .empty => (∀ line ∈ lines, ∀ value, ¬Field contentLength line value)
    ∧ ∀ line ∈ lines, ∀ value, ¬Field transferEncoding line value
  | .length n => (∃ line ∈ lines, ∃ value, Field contentLength line value)
    ∧ (∀ line ∈ lines, ∀ value, Field contentLength line value → Digits value n)
    ∧ ∀ line ∈ lines, ∀ value, ¬Field transferEncoding line value
  | .chunked => (∃ line ∈ lines, ∃ value, Field transferEncoding line value)
    ∧ ∀ line ∈ lines, ∀ value, ¬Field contentLength line value

/-- A `Content-Length` line whose number, in digits, no line that is seen has. -/
def Unspelled (lines : List Text) : Prop :=
  ∃ line ∈ lines, ∃ value, Field contentLength line value ∧ ¬∃ n, Digits value n
    ∧ ∃ line' ∈ lines, ∃ value', Seen contentLength line' value' ∧ Digits value' n

/-- Two `Content-Length` lines of different numbers. -/
def Contradicting (lines : List Text) : Prop :=
  ∃ line ∈ lines, ∃ line' ∈ lines, ∃ value value' m n, Seen contentLength line value
    ∧ Seen contentLength line' value' ∧ Digits value m ∧ Digits value' n ∧ m ≠ n

/-- A `Transfer-Encoding` line, and none that is seen. -/
def Hidden (lines : List Text) : Prop :=
  (∃ line ∈ lines, ∃ value, Field transferEncoding line value)
    ∧ ∀ line ∈ lines, ∀ value, ¬Seen transferEncoding line value

/-! ## Field names -/

theorem seen_iff {name line value : Text} :
    Seen name line value ↔ valueOf name line = some value := by
  rw [valueOf]
  constructor
  · rintro ⟨spelled, rest, hsplit, rfl, heq⟩
    rw [hsplit]
    exact if_pos heq
  · intro h
    split at h
    · cases h
    next spelled rest hsplit =>
    split at h
    · next heq => exact ⟨spelled, rest, hsplit, (Option.some.inj h).symm, heq⟩
    · cases h

theorem not_seen {name line : Text} (h : valueOf name line = none) (value : Text) :
    ¬Seen name line value := by
  rw [seen_iff, h]
  exact Option.some_ne_none value ∘ Eq.symm

theorem Seen.field {name line value : Text}
    (hname : (name.map Char.toLower).any Text.isWhiteSpace = false) (h : Seen name line value) :
    Field name line value := by
  obtain ⟨spelled, rest, hsplit, hvalue, heq⟩ := h
  refine ⟨spelled, rest, hsplit, hvalue, ?_⟩
  have hspelled := Text.isWhiteSpace_of_eqIgnoreAsciiCase hname heq
  rw [Text.trim_eq_self (Text.trimmed_of_forall hspelled)]
  exact heq

private theorem Seen.contentLength_field {line value : Text} (h : Seen contentLength line value) :
    Field contentLength line value := h.field (by decide)

private theorem Seen.transferEncoding_field {line value : Text}
    (h : Seen transferEncoding line value) : Field transferEncoding line value :=
  h.field (by decide)

theorem Seen.unique {name line value value' : Text} (h : Seen name line value)
    (h' : Field name line value') : value' = value := by
  obtain ⟨_, _, hsplit, rfl, -⟩ := h
  obtain ⟨_, _, hsplit', rfl, -⟩ := h'
  cases hsplit.symm.trans hsplit'
  rfl

private theorem not_transferEncoding_of_contentLength {line value value' : Text}
    (h : Seen contentLength line value) : ¬Seen transferEncoding line value' := by
  obtain ⟨spelled, _, hsplit, -, heq⟩ := h
  rintro ⟨_, _, hsplit', -, heq'⟩
  cases hsplit.symm.trans hsplit'
  have := (beq_iff_eq.mp heq).symm.trans (beq_iff_eq.mp heq')
  exact absurd this (by decide)

/-! ## What the fold over the lines finds -/

/-- What is left of these lines in the framing the parser has arrived at. -/
def Reads (lines : List Text) : Framing → Prop
  | .empty => (∀ line ∈ lines, ∀ value, ¬Seen contentLength line value)
    ∧ ∀ line ∈ lines, ∀ value, ¬Seen transferEncoding line value
  | .length n => (∃ line ∈ lines, ∃ value, Seen contentLength line value
      ∧ Text.parseU64 value = some n)
    ∧ ∀ line ∈ lines, ∀ value, ¬Seen transferEncoding line value
  | .chunked => (∃ line ∈ lines, ∃ value, Seen transferEncoding line value)
    ∧ ∀ line ∈ lines, ∀ value, ¬Seen contentLength line value

theorem absorb_framing {request request' : Request} {line : Text}
    (h : absorb request line = .ok request') :
    (∃ value n, Seen contentLength line value ∧ Text.parseU64 value = some n
        ∧ request.framing ≠ .chunked ∧ request'.framing = .length n)
      ∨ (∃ value, Seen transferEncoding line value ∧ (∀ n, request.framing ≠ .length n)
        ∧ request'.framing = .chunked)
      ∨ (∀ value, ¬Seen contentLength line value) ∧ (∀ value, ¬Seen transferEncoding line value)
        ∧ request'.framing = request.framing := by
  obtain ⟨value, n, hgives, hn, hframing⟩ | ⟨value, hgives, hframing⟩
    | ⟨hlength, hencoding, hframing⟩ := framing_of_absorb h
  · exact .inl ⟨value, n, seen_iff.mpr hgives.1, hn, hframing⟩
  · exact .inr (.inl ⟨value, seen_iff.mpr hgives.1, hframing⟩)
  · exact .inr (.inr ⟨not_seen hlength, not_seen hencoding, hframing⟩)

theorem Reads.absorb {lines : List Text} {request request' : Request} {line : Text}
    (hreads : Reads lines request.framing) (h : absorb request line = .ok request') :
    Reads (lines ++ [line]) request'.framing := by
  have hforall : ∀ {P : Text → Prop}, (∀ line' ∈ lines, P line') → P line →
      ∀ line' ∈ lines ++ [line], P line' := fun hlines hline line' hmem ↦ by
    obtain hmem | hmem := List.mem_append.mp hmem
    · exact hlines line' hmem
    · rwa [List.mem_singleton.mp hmem]
  have hlast : line ∈ lines ++ [line] := List.mem_append_right _ (List.mem_singleton_self line)
  obtain ⟨value, n, hseen, hn, hframing, hframing'⟩ | ⟨value, hseen, hframing, hframing'⟩
    | ⟨hlength, hencoding, hframing'⟩ := absorb_framing h
  · -- a `Content-Length` line: the framing is its number, unless it is chunked already
    rw [hframing']
    refine ⟨⟨line, hlast, value, hseen, hn⟩, hforall ?_ fun value' ↦
      not_transferEncoding_of_contentLength hseen⟩
    cases hcase : request.framing with
    | empty => exact (hcase ▸ hreads).2
    | length m => exact (hcase ▸ hreads).2
    | chunked => exact absurd hcase hframing
  · rw [hframing']
    refine ⟨⟨line, hlast, value, hseen⟩, hforall ?_ fun value' hseen' ↦
      not_transferEncoding_of_contentLength hseen' hseen⟩
    cases hcase : request.framing with
    | empty => exact (hcase ▸ hreads).1
    | length m => exact absurd hcase (hframing m)
    | chunked => exact (hcase ▸ hreads).2
  · rw [hframing']
    cases hcase : request.framing with
    | empty =>
      rw [hcase] at hreads
      exact ⟨hforall hreads.1 hlength, hforall hreads.2 hencoding⟩
    | length m =>
      rw [hcase] at hreads
      obtain ⟨⟨line', hmem, hline'⟩, hnone⟩ := hreads
      exact ⟨⟨line', List.mem_append_left _ hmem, hline'⟩, hforall hnone hencoding⟩
    | chunked =>
      rw [hcase] at hreads
      obtain ⟨⟨line', hmem, hline'⟩, hnone⟩ := hreads
      exact ⟨⟨line', List.mem_append_left _ hmem, hline'⟩, hforall hnone hlength⟩

theorem Reads.foldlM {lines more : List Text} {request request' : Request}
    (hreads : Reads lines request.framing) (h : more.foldlM Http.absorb request = .ok request') :
    Reads (lines ++ more) request'.framing := by
  induction more generalizing lines request with
  | nil =>
    cases h
    rwa [List.append_nil]
  | cons line more ih =>
    rw [List.foldlM_cons] at h
    cases hline : Http.absorb request line with
    | error error =>
      rw [hline] at h
      cases h
    | ok next =>
      rw [hline] at h
      have := ih (hreads.absorb hline) h
      rwa [List.append_assoc] at this

private theorem framing_requestLine {line : Text} {request : Request}
    (h : requestLine line = .ok request) : request.framing = .empty := by
  rw [requestLine] at h
  split at h
  · split at h
    · split at h
      · cases h
        rfl
      · cases h
    · cases h
  · cases h

/-- An accepted head is its request line, and the header lines absorbed in order. -/
theorem foldlM_of_parse {head : Bytes} {request : Request} (h : parse head = .ok request) :
    ∃ line first, requestLine line = .ok first
      ∧ (headerLines head).foldlM absorb first = .ok request := by
  rw [parse] at h
  rw [headerLines]
  cases htext : Text.fromUtf8 head with
  | none =>
    rw [htext] at h
    cases h
  | some text =>
    rw [htext] at h
    dsimp only at h ⊢
    cases hlines : Text.splitCrlfTerminator text with
    | nil =>
      rw [hlines] at h
      cases h
    | cons line lines =>
      rw [hlines] at h
      dsimp only at h
      cases hfirst : requestLine line with
      | error error =>
        rw [hfirst] at h
        cases h
      | ok first =>
        rw [hfirst] at h
        exact ⟨line, first, hfirst, h⟩

/-- What an accepted head leaves in its framing. -/
theorem reads_of_parse {head : Bytes} {request : Request} (h : parse head = .ok request) :
    Reads (headerLines head) request.framing := by
  obtain ⟨line, first, hfirst, hlines⟩ := foldlM_of_parse h
  have hnil : Reads [] first.framing := by
    rw [framing_requestLine hfirst]
    exact ⟨fun _ h ↦ absurd h List.not_mem_nil, fun _ h ↦ absurd h List.not_mem_nil⟩
  exact hnil.foldlM hlines

/-! ## The parser and the lines taken together -/

/-- The framing of a head is said by the set of its lines. -/
theorem frames_congr {lines lines' : List Text} (hmem : ∀ line, line ∈ lines' ↔ line ∈ lines)
    (framing : Framing) : Frames lines' framing ↔ Frames lines framing := by
  cases framing <;> simp only [Frames, hmem]

theorem Frames.unique {lines : List Text} {framing framing' : Framing} (h : Frames lines framing)
    (h' : Frames lines framing') : framing' = framing := by
  cases framing with
  | empty =>
    cases framing' with
    | empty => rfl
    | length n =>
      obtain ⟨⟨line, hmem, value, hline⟩, -⟩ := h'
      exact absurd hline (h.1 line hmem value)
    | chunked =>
      obtain ⟨⟨line, hmem, value, hline⟩, -⟩ := h'
      exact absurd hline (h.2 line hmem value)
  | length m =>
    obtain ⟨⟨line, hmem, value, hline⟩, hdigits, hnone⟩ := h
    cases framing' with
    | empty => exact absurd hline (h'.1 line hmem value)
    | length n =>
      rw [(hdigits line hmem value hline).unique (h'.2.1 line hmem value hline)]
    | chunked => exact absurd hline (h'.2 line hmem value)
  | chunked =>
    obtain ⟨⟨line, hmem, value, hline⟩, hnone⟩ := h
    cases framing' with
    | empty => exact absurd hline (h'.2 line hmem value)
    | length n => exact absurd hline (h'.2.2 line hmem value)
    | chunked => rfl

/-- The three kinds of lines on which the fold finds another framing than they have. -/
def Misleading (lines : List Text) : Prop :=
  Unspelled lines ∨ Contradicting lines ∨ Hidden lines

private theorem misleading_congr {lines lines' : List Text}
    (hmem : ∀ line, line ∈ lines' ↔ line ∈ lines) : Misleading lines' ↔ Misleading lines := by
  simp only [Misleading, Unspelled, Contradicting, Hidden, hmem]

private theorem digits_of_parseU64 {value : Text} {m n : ℕ} (hm : Digits value m)
    (hn : Text.parseU64 value = some n) : m = n :=
  Option.some.inj ((Text.parseU64_eq_some.mpr (.inl hm)).symm.trans hn)

/-- On other lines the fold finds the framing they have. -/
theorem frames_of_reads {lines : List Text} {framing : Framing} (hreads : Reads lines framing)
    (h : ¬Misleading lines) : Frames lines framing := by
  have hspelled : ∀ line ∈ lines, ∀ value, Field contentLength line value → ∃ n, Digits value n
      ∧ ∃ line' ∈ lines, ∃ value', Seen contentLength line' value' ∧ Digits value' n := by
    intro line hmem value hline
    by_contra hnot
    exact h (.inl ⟨line, hmem, value, hline, hnot⟩)
  have hhidden : ∀ line ∈ lines, ∀ value, Field transferEncoding line value →
      ∃ line' ∈ lines, ∃ value', Seen transferEncoding line' value' := by
    intro line hmem value hline
    by_contra hnot
    push Not at hnot
    exact h (.inr (.inr ⟨⟨line, hmem, value, hline⟩, hnot⟩))
  have hnolength : (∀ line ∈ lines, ∀ value, ¬Seen contentLength line value) →
      ∀ line ∈ lines, ∀ value, ¬Field contentLength line value := by
    intro hnone line hmem value hline
    obtain ⟨n, -, line', hmem', value', hseen, -⟩ := hspelled line hmem value hline
    exact hnone line' hmem' value' hseen
  have hnoencoding : (∀ line ∈ lines, ∀ value, ¬Seen transferEncoding line value) →
      ∀ line ∈ lines, ∀ value, ¬Field transferEncoding line value := by
    intro hnone line hmem value hline
    obtain ⟨line', hmem', value', hseen⟩ := hhidden line hmem value hline
    exact hnone line' hmem' value' hseen
  cases framing with
  | empty => exact ⟨hnolength hreads.1, hnoencoding hreads.2⟩
  | chunked =>
    obtain ⟨⟨line, hmem, value, hseen⟩, hnone⟩ := hreads
    exact ⟨⟨line, hmem, value, hseen.transferEncoding_field⟩, hnolength hnone⟩
  | length n =>
    obtain ⟨⟨line, hmem, value, hseen, hn⟩, hnone⟩ := hreads
    refine ⟨⟨line, hmem, value, hseen.contentLength_field⟩, ?_, hnoencoding hnone⟩
    -- The line the fold kept spells its number in digits, and every other line the same number.
    obtain ⟨m, hm, -⟩ := hspelled line hmem value hseen.contentLength_field
    obtain rfl := digits_of_parseU64 hm hn
    intro line' hmem' value' hline'
    obtain ⟨n, hdigits, line₂, hmem₂, value₂, hseen₂, hdigits₂⟩ :=
      hspelled line' hmem' value' hline'
    by_cases hne : m = n
    · exact hne ▸ hdigits
    · exact absurd (.inr (.inl ⟨line, hmem, line₂, hmem₂, value, value₂, m, n, hseen, hseen₂, hm,
        hdigits₂, hne⟩)) h

/-- On misleading lines the fold finds another framing. -/
theorem not_frames_of_misleading {lines : List Text} {framing : Framing}
    (hreads : Reads lines framing) (h : Misleading lines) : ¬Frames lines framing := by
  intro hframes
  cases framing with
  | empty =>
    obtain ⟨line, hmem, value, hline, -⟩ | ⟨line, hmem, -, -, value, -, -, -, hline, -⟩
      | ⟨⟨line, hmem, value, hline⟩, -⟩ := h
    · exact hframes.1 line hmem value hline
    · exact hreads.1 line hmem value hline
    · exact hframes.2 line hmem value hline
  | chunked =>
    obtain ⟨line, hmem, value, hline, -⟩ | ⟨line, hmem, -, -, value, -, -, -, hline, -⟩
      | ⟨-, hnone⟩ := h
    · exact hframes.2 line hmem value hline
    · exact hreads.2 line hmem value hline
    · obtain ⟨⟨line, hmem, value, hseen⟩, -⟩ := hreads
      exact hnone line hmem value hseen
  | length n =>
    obtain ⟨-, hdigits, hnone⟩ := hframes
    obtain ⟨line, hmem, value, hline, hnot⟩ |
      ⟨line, hmem, line', hmem', value, value', m, m', hline,
      hline', hm, hm', hne⟩ | ⟨⟨line, hmem, value, hline⟩, -⟩ := h
    · obtain ⟨⟨line', hmem', value', hseen', -⟩, -⟩ := hreads
      exact hnot ⟨n, hdigits line hmem value hline, line', hmem', value', hseen',
        hdigits line' hmem' value' hseen'.contentLength_field⟩
    · have hmn := hm.unique (hdigits line hmem value hline.contentLength_field)
      have hmn' := hm'.unique (hdigits line' hmem' value' hline'.contentLength_field)
      exact hne (hmn.trans hmn'.symm)
    · exact hnone line hmem value hline

/-- An accepted head has the framing its lines have together, whatever their order, exactly where
they are not misleading. -/
theorem frames_iff {head : Bytes} {request : Request} (h : parse head = .ok request) :
    (Frames (headerLines head) request.framing
      ∧ ∀ head' request', parse head' = .ok request' →
        (headerLines head').Perm (headerLines head) → request'.framing = request.framing)
    ↔ ¬Misleading (headerLines head) := by
  refine ⟨fun hframes hmisleading ↦ ?_, fun hclear ↦ ?_⟩
  · exact not_frames_of_misleading (reads_of_parse h) hmisleading hframes.1
  · have hframes := frames_of_reads (reads_of_parse h) hclear
    refine ⟨hframes, fun head' request' h' hperm ↦ ?_⟩
    have hmem : ∀ line, line ∈ headerLines head' ↔ line ∈ headerLines head := fun _ ↦ hperm.mem_iff
    have hframes' := frames_of_reads (reads_of_parse h') ((misleading_congr hmem).not.mpr hclear)
    exact hframes.unique ((frames_congr hmem _).mp hframes')

section Heads

private theorem seen_five : Seen contentLength "Content-Length: 5".toList "5".toList :=
  ⟨"Content-Length".toList, " 5".toList, by decide, by decide, by decide⟩

private theorem digits_five : Digits "5".toList 5 :=
  Text.digits_of_all (by decide) (by decide) (by decide) (by decide)

/-- The head of an upload of five bytes, which says so twice. -/
private def upload : Text :=
  "PUT /x HTTP/1.1\r\nHost: h\r\nContent-Length: 5\r\ncontent-length:5\r\n\r\n".toList

private theorem parse_upload : parse (Text.utf8 upload)
    = .ok ⟨.put, "/x".toList, .length 5, .keep, .none, none, none⟩ := by
  rw [parse, Text.fromUtf8_utf8]
  decide +kernel

private theorem headerLines_upload : headerLines (Text.utf8 upload)
    = ["Host: h".toList, "Content-Length: 5".toList, "content-length:5".toList] := by
  rw [headerLines, Text.fromUtf8_utf8]
  decide +kernel

private theorem field_upload {line value : Text} (hmem : line ∈ headerLines (Text.utf8 upload)) :
    (Field contentLength line value → value = "5".toList) ∧ ¬Field transferEncoding line value := by
  have hcut : ∃ spelled rest, Text.splitOnce [':'] line = some (spelled, rest)
      ∧ (Text.eqIgnoreAsciiCase (Text.trim spelled) contentLength = true →
        Text.trim rest = "5".toList)
      ∧ Text.eqIgnoreAsciiCase (Text.trim spelled) transferEncoding = false := by
    rw [headerLines_upload] at hmem
    rcases List.mem_cons.mp hmem with rfl | hmem
    · exact ⟨"Host".toList, " h".toList, by decide, by decide, by decide⟩
    rcases List.mem_cons.mp hmem with rfl | hmem
    · exact ⟨"Content-Length".toList, " 5".toList, by decide, by decide, by decide⟩
    obtain rfl := List.mem_singleton.mp hmem
    exact ⟨"content-length".toList, "5".toList, by decide, by decide, by decide⟩
  obtain ⟨spelled, rest, hsplit, hlength, hencoding⟩ := hcut
  constructor
  · rintro ⟨_, _, hsplit', rfl, heq⟩
    cases hsplit.symm.trans hsplit'
    exact hlength heq
  · rintro ⟨_, _, hsplit', -, heq⟩
    cases hsplit.symm.trans hsplit'
    exact absurd heq (by rw [hencoding]; exact Bool.false_ne_true)

/-- Two equal lengths say what each of them says, wherever they stand. -/
theorem frames_upload : Frames (headerLines (Text.utf8 upload)) (.length 5)
    ∧ ∀ head' request', parse head' = .ok request' →
      (headerLines head').Perm (headerLines (Text.utf8 upload)) →
        request'.framing = .length 5 := by
  refine (frames_iff parse_upload).mpr ?_
  rintro (⟨line, hmem, value, hline, hnot⟩ | ⟨line, hmem, line', hmem', value, value', m, n, hline,
    hline', hm, hn, hne⟩ | ⟨⟨line, hmem, value, hline⟩, -⟩)
  · obtain rfl := (field_upload hmem).1 hline
    have hplain : "Content-Length: 5".toList ∈ headerLines (Text.utf8 upload) := by
      rw [headerLines_upload]
      exact List.mem_cons_of_mem _ List.mem_cons_self
    exact hnot ⟨5, digits_five, _, hplain, _, seen_five, digits_five⟩
  · obtain rfl := (field_upload hmem).1 hline.contentLength_field
    obtain rfl := (field_upload hmem').1 hline'.contentLength_field
    exact hne (hm.unique hn)
  · exact (field_upload hmem).2 hline

/-- A head with two lengths. -/
private def twice : Text :=
  "PUT /x HTTP/1.1\r\nContent-Length: 5\r\nContent-Length: 6\r\n\r\n".toList

/-- Two different lengths are accepted, and the later one wins. -/
theorem not_frames_twice : ∃ request, parse (Text.utf8 twice) = .ok request
    ∧ request.framing = .length 6 ∧ ¬Frames (headerLines (Text.utf8 twice)) request.framing := by
  refine ⟨⟨.put, "/x".toList, .length 6, .keep, .none, none, none⟩, ?_, rfl, ?_⟩
  · rw [parse, Text.fromUtf8_utf8]
    decide +kernel
  · have hlines : headerLines (Text.utf8 twice)
        = ["Content-Length: 5".toList, "Content-Length: 6".toList] := by
      rw [headerLines, Text.fromUtf8_utf8]
      decide +kernel
    rw [hlines]
    rintro ⟨-, hdigits, -⟩
    have := hdigits _ List.mem_cons_self _ seen_five.contentLength_field
    exact absurd (this.unique digits_five) (by decide)

end Heads

end Http

end Bincache
