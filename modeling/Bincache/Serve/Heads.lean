import Bincache.Serve.Credentials
import Bincache.Serve.Reply
import Mathlib.Data.Bool.AllAny

/-!
# The grammar of a request head

What a head says, apart from the parser: its first line names a method, a target and a version, and
every other line gives a field a value, in any letter case of the name and with any white space
around the value. `Says` reads a request off the header lines by field, whatever the order of the
fields. The parser, which goes through the lines once and writes down each in turn, accepts a head
exactly if it says a request, and then returns that request.

In the other direction `Request.render` is how a client writes a request down. What it writes is
measured as one head, whatever follows, and parsed back.
-/

namespace Bincache

namespace Http

/-! ## What a head says -/

/-- The values that these lines give a field. -/
def values (name : Text) (lines : List Text) : List Text := lines.filterMap (valueOf name)

/-- How lengths and encodings delimit a body. -/
def Delimits (lengths encodings : List Text) : Framing → Prop
  | .empty => lengths = [] ∧ encodings = []
  | .length n => encodings = [] ∧ (∀ value ∈ lengths, (Text.parseU64 value).isSome)
    ∧ lengths.getLast?.bind Text.parseU64 = some n
  | .chunked => lengths = [] ∧ encodings ≠ []

/-- What header lines say of a request. Where a field comes several times the last line counts. -/
structure Says (lines : List Text) (request : Request) : Prop where
  colon : ∀ line ∈ lines, ':' ∈ line
  framing : Delimits (values contentLength lines) (values transferEncoding lines) request.framing
  keepAlive : request.keepAlive = ((values connection lines).getLast?.map keepAliveOf).getD .keep
  expectation : request.expectation = ((values expect lines).getLast?.map expectationOf).getD .none
  range : request.range = (values range lines).getLast?
  authorization : request.authorization = (values authorization lines).getLast?

/-- What a first line says of a request. -/
def Starts (line : Text) (request : Request) : Prop :=
  ∃ minor, line = request.method.render ++ ' ' :: request.target ++ ' ' :: "HTTP/1.".toList ++ minor
    ∧ ' ' ∉ request.target ∧ ' ' ∉ minor

/-! ## All lines -/

theorem values_concat (name line : Text) (lines : List Text) :
    values name (lines ++ [line]) = values name lines ++ (valueOf name line).toList := by
  rw [values, values, List.filterMap_append]
  rcases h : valueOf name line with - | value
  · rw [List.filterMap_cons_none h]
    rfl
  · rw [List.filterMap_cons_some h]
    rfl

private theorem values_of_none {name line : Text} (h : valueOf name line = none)
    (lines : List Text) : values name (lines ++ [line]) = values name lines := by
  rw [values_concat, h]
  exact List.append_nil _

private theorem values_of_gives {name line value : Text} (h : Gives name line value)
    (lines : List Text) : values name (lines ++ [line]) = values name lines ++ [value] := by
  rw [values_concat, h.1]
  rfl

/-- A length says how long the body is, unless the body is chunked. -/
private theorem delimits_length {lengths encodings : List Text} {framing : Framing} {value : Text}
    {n : ℕ} (h : Delimits lengths encodings framing) (hframing : framing ≠ .chunked)
    (hn : Text.parseU64 value = some n) : Delimits (lengths ++ [value]) encodings (.length n) := by
  have hlengths : encodings = [] ∧ ∀ value ∈ lengths, (Text.parseU64 value).isSome := by
    rcases framing with - | m | -
    · exact ⟨h.2, by rw [h.1]; exact List.forall_mem_nil _⟩
    · exact ⟨h.1, h.2.1⟩
    · exact absurd rfl hframing
  refine ⟨hlengths.1, fun value' hmem ↦ ?_, ?_⟩
  · rcases List.mem_append.mp hmem with hmem | hmem
    · exact hlengths.2 value' hmem
    · obtain rfl := List.mem_singleton.mp hmem
      rw [hn]
      rfl
  · rw [List.getLast?_concat]
    exact hn

private theorem delimits_chunked {lengths encodings : List Text} {framing : Framing}
    (h : Delimits lengths encodings framing) (hframing : ∀ n, framing ≠ .length n) (value : Text) :
    Delimits lengths (encodings ++ [value]) .chunked := by
  refine ⟨?_, List.concat_ne_nil _ _⟩
  rcases framing with - | n | -
  · exact h.1
  · exact absurd rfl (hframing n)
  · exact h.1

/-- The last line that gives a field a value counts, if there is one. -/
private theorem Sets.last {β : Type} {name line : Text} {lines : List Text} {read : Text → β}
    {default old new : β} (h : Sets name line read old new)
    (hold : old = ((values name lines).getLast?.map read).getD default) :
    new = ((values name (lines ++ [line])).getLast?.map read).getD default := by
  rw [h, values_concat]
  rcases valueOf name line with - | value
  · rw [Option.toList_none, List.append_nil]
    exact hold
  · rw [Option.toList_some, List.getLast?_concat]
    rfl

private theorem Sets.last_some {name line : Text} {lines : List Text} {old new : Option Text}
    (h : Sets name line some old new) (hold : old = (values name lines).getLast?) :
    new = (values name (lines ++ [line])).getLast? := by
  have hsome : ∀ value : Option Text, (value.map some).getD none = value := by
    rintro (_ | value) <;> rfl
  have hlast : new = ((values name (lines ++ [line])).getLast?.map some).getD none :=
    h.last (hold.trans (hsome _).symm)
  rwa [hsome] at hlast

private theorem Delimits.absorb {lines : List Text} {request request' : Request} {line : Text}
    (h : Delimits (values contentLength lines) (values transferEncoding lines) request.framing)
    (habsorb : Http.absorb request line = .ok request') :
    Delimits (values contentLength (lines ++ [line])) (values transferEncoding (lines ++ [line]))
      request'.framing := by
  obtain ⟨value, n, hgives, hn, hframing, hframing'⟩ | ⟨value, hgives, hframing, hframing'⟩
    | ⟨hlength, hencoding, hframing'⟩ := framing_of_absorb habsorb
  · rw [values_of_gives hgives, values_of_none (hgives.2 transferEncoding (by decide)), hframing']
    exact delimits_length h hframing hn
  · rw [values_of_gives hgives, values_of_none (hgives.2 contentLength (by decide)), hframing']
    exact delimits_chunked h hframing value
  · rw [values_of_none hlength, values_of_none hencoding, hframing']
    exact h

theorem Says.absorb {lines : List Text} {request request' : Request} {line : Text}
    (h : Says lines request) (habsorb : Http.absorb request line = .ok request') :
    Says (lines ++ [line]) request' where
  colon := List.forall_mem_append.mpr
    ⟨h.colon, List.forall_mem_singleton.mpr (absorb_cases habsorb).1⟩
  framing := h.framing.absorb habsorb
  keepAlive := (absorbs_of_absorb habsorb).keepAlive.last h.keepAlive
  expectation := (absorbs_of_absorb habsorb).expectation.last h.expectation
  range := (absorbs_of_absorb habsorb).range.last_some h.range
  authorization := (absorbs_of_absorb habsorb).authorization.last_some h.authorization

/-- A request of which nothing but its first line was read. -/
def Request.bare (method : Method) (target : Text) : Request :=
  { method, target, framing := .empty, keepAlive := .keep, expectation := .none, range := none,
    authorization := none }

theorem says_nil (method : Method) (target : Text) : Says [] (.bare method target) :=
  ⟨List.forall_mem_nil _, ⟨rfl, rfl⟩, rfl, rfl, rfl, rfl⟩

private theorem foldlM_concat {lines : List Text} {line : Text} {request request' : Request} :
    (lines ++ [line]).foldlM absorb request = .ok request'
      ↔ ∃ next, lines.foldlM absorb request = .ok next ∧ absorb next line = .ok request' := by
  rw [List.foldlM_append]
  rcases lines.foldlM absorb request with error | next
  · exact iff_of_false (by rintro ⟨⟩) (by rintro ⟨_, ⟨⟩, _⟩)
  · change (absorb next line >>= pure) = _ ↔ _
    rw [bind_pure]
    exact ⟨fun h ↦ ⟨next, rfl, h⟩, by rintro ⟨_, ⟨⟩, h⟩; exact h⟩

theorem says_of_foldlM {lines : List Text} {method : Method} {target : Text} {request : Request}
    (h : lines.foldlM absorb (.bare method target) = .ok request) :
    Says lines request ∧ request.method = method ∧ request.target = target := by
  induction lines using List.reverseRecOn generalizing request with
  | nil =>
    cases h
    exact ⟨says_nil method target, rfl, rfl⟩
  | append_singleton lines line ih =>
    obtain ⟨next, hlines, hline⟩ := foldlM_concat.mp h
    obtain ⟨hhead, hmethod, htarget⟩ := ih hlines
    refine ⟨hhead.absorb hline, ?_⟩
    rw [← hmethod, ← htarget]
    obtain ⟨-, ⟨_, _, -, -, -, rfl⟩ | ⟨_, -, -, rfl⟩ | ⟨_, -, rfl⟩ | ⟨_, -, rfl⟩ | ⟨_, -, rfl⟩
      | ⟨_, -, rfl⟩ | ⟨-, rfl⟩⟩ := absorb_cases hline
    all_goals exact ⟨rfl, rfl⟩

theorem exists_foldlM {lines : List Text} (hcolon : ∀ line ∈ lines, ':' ∈ line)
    (hlengths : ∀ value ∈ values contentLength lines, (Text.parseU64 value).isSome)
    (hboth : values contentLength lines = [] ∨ values transferEncoding lines = [])
    (method : Method) (target : Text) :
    ∃ request, lines.foldlM absorb (.bare method target) = .ok request := by
  induction lines using List.reverseRecOn with
  | nil => exact ⟨_, rfl⟩
  | append_singleton lines line ih =>
    rw [values_concat] at hlengths hboth
    rw [values_concat] at hboth
    obtain ⟨hcolon, hlast⟩ := List.forall_mem_append.mp hcolon
    obtain ⟨hlengths, hlength⟩ := List.forall_mem_append.mp hlengths
    simp only [List.append_eq_nil_iff] at hboth
    obtain ⟨next, hnext⟩ := ih hcolon hlengths (hboth.imp And.left And.left)
    have hframing := (says_of_foldlM hnext).1.framing
    obtain ⟨request, hrequest⟩ : ∃ request, absorb next line = .ok request := by
      refine exists_absorb (hlast line (List.mem_singleton_self line)) ?_ ?_
      · intro value hvalue
        rw [hvalue] at hlength hboth
        refine ⟨hlength value (List.mem_singleton_self value), fun hchunked ↦ ?_⟩
        rw [hchunked] at hframing
        exact hframing.2 (hboth.resolve_left fun h ↦ List.cons_ne_nil _ _ h.2).1
      · intro value hvalue n hn
        rw [hvalue] at hboth
        rw [hn] at hframing
        have hnil := (hboth.resolve_right fun h ↦ List.cons_ne_nil _ _ h.2).1
        rw [hnil] at hframing
        exact absurd hframing.2.2 (by simp)
    exact ⟨request, foldlM_concat.mpr ⟨next, hnext, hrequest⟩⟩

/-- What delimits a body is no mixture. -/
theorem Delimits.sound {lengths encodings : List Text} {framing : Framing}
    (h : Delimits lengths encodings framing) :
    (∀ value ∈ lengths, (Text.parseU64 value).isSome) ∧ (lengths = [] ∨ encodings = []) := by
  rcases framing with - | n | -
  · exact ⟨by rw [h.1]; exact List.forall_mem_nil _, .inl h.1⟩
  · exact ⟨h.2.1, .inr h.1⟩
  · exact ⟨by rw [h.1]; exact List.forall_mem_nil _, .inl h.1⟩

theorem Delimits.unique {lengths encodings : List Text} {framing framing' : Framing}
    (h : Delimits lengths encodings framing) (h' : Delimits lengths encodings framing') :
    framing = framing' := by
  rcases framing with - | n | - <;> rcases framing' with - | n' | -
  · rfl
  · rw [h.1] at h'
    exact absurd h'.2.2 (by simp)
  · exact absurd h.2 h'.2
  · rw [h'.1] at h
    exact absurd h.2.2 (by simp)
  · rw [Option.some.inj (h.2.2.symm.trans h'.2.2)]
  · exact absurd h.1 h'.2
  · exact absurd h'.2 h.2
  · exact absurd h'.1 h.2
  · rfl

theorem Says.unique {lines : List Text} {request request' : Request} (h : Says lines request)
    (h' : Says lines request') (hmethod : request.method = request'.method)
    (htarget : request.target = request'.target) : request = request' := by
  have hframing := h.framing.unique h'.framing
  have hkeepAlive := h.keepAlive.trans h'.keepAlive.symm
  have hexpectation := h.expectation.trans h'.expectation.symm
  have hrange := h.range.trans h'.range.symm
  have hauthorization := h.authorization.trans h'.authorization.symm
  obtain ⟨method, target, framing, keepAlive, expectation, range, authorization⟩ := request
  obtain ⟨method', target', framing', keepAlive', expectation', range', authorization'⟩ := request'
  dsimp only at *
  rw [hmethod, htarget, hframing, hkeepAlive, hexpectation, hrange, hauthorization]

/-- The fold over the header lines finds what they say. -/
theorem foldlM_absorb_eq_ok {lines : List Text} {method : Method} {target : Text}
    {request : Request} : lines.foldlM absorb (.bare method target) = .ok request
      ↔ Says lines request ∧ request.method = method ∧ request.target = target := by
  refine ⟨says_of_foldlM, ?_⟩
  rintro ⟨hhead, hmethod, htarget⟩
  obtain ⟨hlengths, hboth⟩ := hhead.framing.sound
  obtain ⟨request', hrequest'⟩ := exists_foldlM hhead.colon hlengths hboth method target
  obtain ⟨hhead', hmethod', htarget'⟩ := says_of_foldlM hrequest'
  rw [hrequest', hhead.unique hhead' (hmethod.trans hmethod'.symm) (htarget.trans htarget'.symm)]

/-! ## The head -/

theorem Method.parse_eq_some {text : Text} {method : Method} :
    parse text = some method ↔ text = method.render := by
  constructor
  · intro h
    rw [parse] at h
    have hrender := List.find?_some h
    exact (of_decide_eq_true hrender).symm
  · rintro rfl
    cases method <;> rfl

/-- A first line that is read says something of a bare request. -/
theorem requestLine_eq_ok {line : Text} {request : Request} : requestLine line = .ok request
    ↔ Starts line request ∧ request = .bare request.method request.target := by
  constructor
  · intro h
    rw [requestLine] at h
    split at h
    · next method target version hsplit =>
      split at h
      · next hversion =>
        split at h
        · next parsed hmethod =>
          cases h
          obtain ⟨minor, hminor⟩ := Option.isSome_iff_exists.mp hversion
          obtain rfl := Text.stripPrefix_eq_some.mp hminor
          obtain rfl := Method.parse_eq_some.mp hmethod
          have hparts : ∀ part ∈ line.splitOn ' ', ' ' ∉ part :=
            fun part hpart ↦ Text.notMem_of_mem_splitOn hpart
          have hline : [' '].intercalate (line.splitOn ' ') = line := List.intercalate_splitOn ' '
          rw [hsplit] at hparts hline
          have hversion' : ' ' ∉ "HTTP/1.".toList ++ minor := hparts _ (by simp)
          refine ⟨⟨minor, ?_, hparts target (by simp), fun hmem ↦ ?_⟩, rfl⟩
          · rw [← hline]
            simp [List.intercalate]
          · exact hversion' (List.mem_append_right _ hmem)
        · cases h
      · cases h
    · cases h
  · rintro ⟨⟨minor, rfl, htarget, hminor⟩, hbare⟩
    have hmethod : ' ' ∉ request.method.render := by
      cases request.method <;> decide
    have hversion : ' ' ∉ "HTTP/1.".toList ++ minor := by
      rw [List.mem_append, not_or]
      exact ⟨by decide, hminor⟩
    have hsplit : (request.method.render ++ ' ' :: request.target ++ ' ' :: "HTTP/1.".toList
        ++ minor).splitOn ' '
        = [request.method.render, request.target, "HTTP/1.".toList ++ minor] := by
      rw [List.append_assoc, List.append_assoc, List.cons_append, List.cons_append,
        List.splitOn_append_cons_self_of_not_mem hmethod,
        List.splitOn_append_cons_self_of_not_mem htarget,
        List.splitOn_eq_singleton hversion]
    rw [requestLine, hsplit]
    dsimp only
    rw [Text.stripPrefix_append, Method.parse_eq_some.mpr rfl, Option.isSome_some, if_pos rfl]
    exact congrArg _ hbare.symm

theorem said_of_parse {head : Bytes} {request : Request} (h : parse head = .ok request) :
    ∃ text line lines, Text.fromUtf8 head = some text
      ∧ Text.splitCrlfTerminator text = line :: lines ∧ Starts line request
      ∧ Says (lines.filter (· ≠ [])) request := by
  rw [parse] at h
  rcases htext : Text.fromUtf8 head with - | text
  · rw [htext] at h
    cases h
  rw [htext] at h
  dsimp only at h
  rcases hlines : Text.splitCrlfTerminator text with - | ⟨line, lines⟩
  · rw [hlines] at h
    cases h
  rw [hlines] at h
  dsimp only at h
  rcases hfirst : requestLine line with error | first
  · rw [hfirst] at h
    cases h
  rw [hfirst] at h
  obtain ⟨⟨minor, hline, hstarts⟩, hbare⟩ := requestLine_eq_ok.mp hfirst
  rw [hbare] at h
  obtain ⟨hhead, hmethod, htarget⟩ := foldlM_absorb_eq_ok.mp h
  rw [← hmethod, ← htarget] at hline
  rw [← htarget] at hstarts
  exact ⟨text, line, lines, rfl, hlines, ⟨minor, hline, hstarts⟩, hhead⟩

/-- **The language of request heads.** A head is accepted exactly if its first line and the others
say a request, and it is then read as that request. -/
theorem parse_eq_ok_iff {head : Bytes} {request : Request} : parse head = .ok request
    ↔ ∃ text line lines, Text.fromUtf8 head = some text
      ∧ Text.splitCrlfTerminator text = line :: lines ∧ Starts line request
      ∧ Says (lines.filter (· ≠ [])) request := by
  constructor
  · exact said_of_parse
  · rintro ⟨text, line, lines, htext, hlines, hstarts, hhead⟩
    have hfirst : requestLine line = .ok (.bare request.method request.target) :=
      requestLine_eq_ok.mpr ⟨hstarts, rfl⟩
    rw [parse, htext]
    dsimp only
    rw [hlines]
    dsimp only
    rw [hfirst]
    exact foldlM_absorb_eq_ok.mpr ⟨hhead, rfl, rfl⟩

/-! ## How a client says it -/

open Response (crlf)
open Response.Reply (field)

def framingLines : Framing → List Text
  | .empty => []
  | .length n => [field "Content-Length".toList (Text.decimal n)]
  | .chunked => [field "Transfer-Encoding".toList "chunked".toList]

def keepAliveLines : KeepAlive → List Text
  | .keep => []
  | .close => [field "Connection".toList "close".toList]

def expectationLines : Expectation → List Text
  | .none => []
  | .continue => [field "Expect".toList "100-continue".toList]

namespace Request

/-- The header lines of a request, as far as there is something to say. -/
def headers (request : Request) : List Text :=
  framingLines request.framing ++ keepAliveLines request.keepAlive
    ++ expectationLines request.expectation
    ++ request.range.toList.map (field "Range".toList)
    ++ request.authorization.toList.map (field "Authorization".toList)

def lines (request : Request) : List Text :=
  (request.method.render ++ ' ' :: request.target ++ ' ' :: "HTTP/1.1".toList) :: request.headers

def render (request : Request) : Text := request.lines.flatMap (· ++ crlf) ++ crlf

/-- What a client says fits on its line, and its values have no white space at their ends. -/
structure Sayable (request : Request) : Prop where
  target : ' ' ∉ request.target ∧ ¬crlf <:+: request.target
  framing : ∀ n, request.framing = .length n → n < 2 ^ 64
  values : ∀ value, request.range = some value ∨ request.authorization = some value →
    Text.Trimmed value ∧ ¬crlf <:+: value

end Request

private theorem splitOnce_field {name : Text} (value : Text) (hname : ':' ∉ name) :
    Text.splitOnce [':'] (field name value) = some (name, ' ' :: value) :=
  Text.splitOnce_eq_some.mpr ⟨List.append_assoc .., hname⟩

private theorem trim_space {value : Text} (h : Text.Trimmed value) :
    Text.trim (' ' :: value) = value := by
  have hpad : Text.trim ([' '] ++ value ++ []) = Text.trim value :=
    Text.trim_pad (List.forall_mem_singleton.mpr (by decide)) (List.forall_mem_nil _)
  rw [List.append_nil] at hpad
  exact hpad.trans (Text.trim_eq_self h)

private theorem foldlM_singleton (request : Request) (line : Text) :
    [line].foldlM absorb request = absorb request line := by
  rw [List.foldlM_cons]
  exact bind_pure _

/-! Each part of the header lines is absorbed into its own field. -/

private theorem foldlM_framing {framing : Framing} (h : ∀ n, framing = .length n → n < 2 ^ 64)
    (request : Request) : (framingLines framing).foldlM absorb { request with framing := .empty }
      = .ok { request with framing } := by
  rcases framing with - | n | -
  · rfl
  · have hdigits := Text.digits_decimal (h n rfl)
    have htrimmed : Text.Trimmed (Text.decimal n) :=
      Text.trimmed_of_forall fun c hc ↦ Text.isWhiteSpace_of_isDigit (hdigits.digit c hc)
    have hempty : Framing.empty ≠ .chunked := Framing.noConfusion
    refine (foldlM_singleton _ _).trans ?_
    rw [absorb, splitOnce_field _ (by decide)]
    dsimp only
    rw [if_pos (by decide), if_pos hempty, trim_space htrimmed,
      Text.parseU64_eq_some.mpr (.inl hdigits)]
    rfl
  · refine (foldlM_singleton _ _).trans ?_
    rw [absorb, splitOnce_field _ (by decide)]
    rfl

private theorem foldlM_keepAlive (keepAlive : KeepAlive) (request : Request) :
    (keepAliveLines keepAlive).foldlM absorb { request with keepAlive := .keep }
      = .ok { request with keepAlive } := by
  rcases keepAlive with - | -
  · rfl
  · refine (foldlM_singleton _ _).trans ?_
    rw [absorb, splitOnce_field _ (by decide)]
    rfl

private theorem foldlM_expectation (expectation : Expectation) (request : Request) :
    (expectationLines expectation).foldlM absorb { request with expectation := .none }
      = .ok { request with expectation } := by
  rcases expectation with - | -
  · refine (foldlM_singleton _ _).trans ?_
    rw [absorb, splitOnce_field _ (by decide)]
    rfl
  · rfl

private theorem foldlM_range {range : Option Text}
    (h : ∀ value, range = some value → Text.Trimmed value) (request : Request) :
    (range.toList.map (field "Range".toList)).foldlM absorb { request with range := none }
      = .ok { request with range } := by
  rcases range with - | value
  · rfl
  · refine (foldlM_singleton _ _).trans ?_
    rw [absorb, splitOnce_field _ (by decide)]
    dsimp only
    rw [trim_space (h value rfl)]
    rfl

private theorem foldlM_credential {authorization : Option Text}
    (h : ∀ value, authorization = some value → Text.Trimmed value) (request : Request) :
    (authorization.toList.map (field "Authorization".toList)).foldlM absorb
        { request with authorization := none } = .ok { request with authorization } := by
  rcases authorization with - | value
  · rfl
  · refine (foldlM_singleton _ _).trans ?_
    rw [absorb, splitOnce_field _ (by decide)]
    dsimp only
    rw [trim_space (h value rfl)]
    rfl

private theorem foldlM_append_ok {lines more : List Text} {request next : Request}
    (h : lines.foldlM absorb request = .ok next) :
    (lines ++ more).foldlM absorb request = more.foldlM absorb next := by
  rw [List.foldlM_append, h]
  rfl

theorem foldlM_headers {request : Request} (h : request.Sayable) :
    request.headers.foldlM absorb (.bare request.method request.target) = .ok request := by
  obtain ⟨method, target, framing, keepAlive, expectation, range, authorization⟩ := request
  have hrange : ∀ value, range = some value → Text.Trimmed value :=
    fun value hvalue ↦ (h.values value (.inl hvalue)).1
  have hauthorization : ∀ value, authorization = some value → Text.Trimmed value :=
    fun value hvalue ↦ (h.values value (.inr hvalue)).1
  rw [Request.headers, List.append_assoc, List.append_assoc, List.append_assoc]
  refine (foldlM_append_ok (foldlM_framing h.framing (.bare method target))).trans ?_
  refine (foldlM_append_ok (foldlM_keepAlive keepAlive
    { Request.bare method target with framing })).trans ?_
  refine (foldlM_append_ok (foldlM_expectation expectation
    { Request.bare method target with framing, keepAlive })).trans ?_
  refine (foldlM_append_ok (foldlM_range hrange
    { Request.bare method target with framing, keepAlive, expectation })).trans ?_
  exact foldlM_credential hauthorization
    { Request.bare method target with framing, keepAlive, expectation, range }

theorem splitCrlfTerminator_render {lines : List Text} (h : ∀ line ∈ lines, ¬crlf <:+: line) :
    Text.splitCrlfTerminator (lines.flatMap (· ++ crlf) ++ crlf) = lines ++ [[]] := by
  have hsplit : Text.splitCrlf (lines.flatMap (· ++ crlf) ++ crlf) = lines ++ [[], []] := by
    induction lines with
    | nil => rfl
    | cons line lines ih =>
      obtain ⟨hline, hlines⟩ := List.forall_mem_cons.mp h
      rw [List.flatMap_cons, List.append_assoc, List.append_assoc, crlf, List.cons_append,
        List.cons_append, List.nil_append, Text.splitCrlf_append hline]
      exact congrArg _ (ih hlines)
  have hlast : lines ++ [[], []] = (lines ++ [[]]) ++ [([] : Text)] := by
    rw [List.append_assoc, List.singleton_append]
  rw [Text.splitCrlfTerminator, hsplit, hlast, List.getLast?_concat, if_pos rfl,
    List.dropLast_concat]

private theorem not_crlf_of_plain {text : Text} (h : Text.Plain text) : ¬crlf <:+: text :=
  fun hbreak ↦ (h _ (hbreak.subset List.mem_cons_self)).2.1 rfl

private theorem not_crlf_field {name value : Text} (hname : Text.Plain name)
    (hvalue : ¬crlf <:+: value) : field name value ≠ [] ∧ ¬crlf <:+: field name value := by
  refine ⟨by simp [field], ?_⟩
  have hcolon : (name ++ ": ".toList).getLast? = some ' ' := by simp
  rw [field, crlf, Text.pair_infix_append, hcolon, not_or, not_or]
  exact ⟨not_crlf_of_plain (hname.append (by decide)), fun hend ↦ absurd hend.1 (by decide), hvalue⟩

theorem mem_lines {request : Request} (h : request.Sayable) :
    ∀ line ∈ request.lines, line ≠ [] ∧ ¬crlf <:+: line := by
  rw [Request.lines]
  refine List.forall_mem_cons.mpr ⟨⟨by simp, ?_⟩, ?_⟩
  · have hmethod : ¬crlf <:+: request.method.render := by
      cases request.method <;> decide
    rw [crlf, Text.pair_infix_append, Text.pair_infix_append, Text.pair_infix_cons]
    rintro ((hline | ⟨-, hspace⟩ | ⟨hspace, -⟩ | hline) | ⟨-, hspace⟩ | hline)
    · exact hmethod hline
    · exact absurd (Option.some.inj hspace) (by decide)
    · exact absurd hspace (by decide)
    · exact h.target.2 hline
    · exact absurd hspace (by decide)
    · exact absurd hline (by decide)
  rw [Request.headers]
  simp only [List.forall_mem_append]
  refine ⟨⟨⟨⟨?_, ?_⟩, ?_⟩, ?_⟩, ?_⟩
  · rcases request.framing with - | n | -
    · exact List.forall_mem_nil _
    · exact List.forall_mem_singleton.mpr
        (not_crlf_field (by decide) (not_crlf_of_plain (Text.plain_decimal n)))
    · exact List.forall_mem_singleton.mpr (not_crlf_field (by decide) (by decide))
  · rcases request.keepAlive with - | -
    · exact List.forall_mem_nil _
    · exact List.forall_mem_singleton.mpr (not_crlf_field (by decide) (by decide))
  · rcases request.expectation with - | -
    · exact List.forall_mem_singleton.mpr (not_crlf_field (by decide) (by decide))
    · exact List.forall_mem_nil _
  · intro line hline
    obtain ⟨value, hvalue, rfl⟩ := List.mem_map.mp hline
    exact not_crlf_field (by decide) (h.values value (.inl (Option.mem_toList.mp hvalue))).2
  · intro line hline
    obtain ⟨value, hvalue, rfl⟩ := List.mem_map.mp hline
    exact not_crlf_field (by decide) (h.values value (.inr (Option.mem_toList.mp hvalue))).2

/-- A written request is measured as one head, whatever follows it. -/
theorem headLen_render {request : Request} (h : request.Sayable) (rest : Bytes) :
    headLen (Text.utf8 request.render ++ rest) = some (Text.utf8 request.render).length := by
  rw [Request.render, Response.Reply.utf8_flatMap_crlf]
  refine headLen_lines rest (by simp [Request.lines]) fun bytes hbytes ↦ ?_
  obtain ⟨line, hline, rfl⟩ := List.mem_map.mp hbytes
  obtain ⟨hnil, hbreak⟩ := mem_lines h line hline
  exact ⟨fun hbytes ↦ hbreak (Text.crlf_infix_of_utf8 hbytes),
    fun hempty ↦ hnil (Text.utf8_injective hempty)⟩

theorem parse_utf8_render {request : Request} (h : request.Sayable) :
    parse (Text.utf8 request.render) = .ok request := by
  have hlines := mem_lines h
  have hcut : Text.splitCrlfTerminator request.render = request.lines ++ [[]] :=
    splitCrlfTerminator_render fun line hline ↦ (hlines line hline).2
  have hfilter : (request.headers ++ [[]]).filter (· ≠ []) = request.headers := by
    rw [List.filter_append, List.filter_eq_self.mpr]
    · simp
    · exact fun line hline ↦ decide_eq_true (hlines line (List.mem_cons_of_mem _ hline)).1
  have hfirst : requestLine (request.method.render ++ ' ' :: request.target
      ++ ' ' :: "HTTP/1.1".toList) = .ok (.bare request.method request.target) := by
    refine requestLine_eq_ok.mpr ⟨⟨['1'], ?_, h.target.1, by decide⟩, rfl⟩
    rw [List.append_assoc _ _ ['1']]
    rfl
  rw [parse, Text.fromUtf8_utf8]
  dsimp only
  rw [hcut, Request.lines, List.cons_append]
  dsimp only
  rw [hfirst, hfilter]
  exact foldlM_headers h

theorem sayable_of_parse {head : Bytes} {request : Request} (h : parse head = .ok request) :
    request.Sayable := by
  obtain ⟨text, line, lines, -, hcut, ⟨minor, rfl, hspace, -⟩, hfields⟩ := said_of_parse h
  have hbreak : ∀ piece ∈ Text.splitCrlfTerminator text, ¬crlf <:+: piece := by
    intro piece hpiece
    rw [Text.splitCrlfTerminator] at hpiece
    split at hpiece
    · exact Text.notInfix_of_mem_splitCrlf (List.mem_of_mem_dropLast hpiece)
    · exact Text.notInfix_of_mem_splitCrlf hpiece
  rw [hcut] at hbreak
  obtain ⟨hfirst, hlines⟩ := List.forall_mem_cons.mp hbreak
  have hvalue : ∀ name value, (values name (lines.filter (· ≠ []))).getLast? = some value →
      Text.Trimmed value ∧ ¬crlf <:+: value := by
    intro name value hlast
    obtain ⟨line, hline, hgives⟩ := List.mem_filterMap.mp (List.mem_of_getLast? hlast)
    rw [valueOf] at hgives
    split at hgives
    · cases hgives
    next spelled rest hsplit =>
    split at hgives
    · obtain rfl := Option.some.inj hgives
      obtain ⟨rfl, -⟩ := Text.splitOnce_eq_some.mp hsplit
      refine ⟨Text.trimmed_trim rest, fun hinside ↦ ?_⟩
      refine hlines _ (List.mem_of_mem_filter hline) ?_
      exact (hinside.trans (Text.trim_infix rest)).trans
        ((List.suffix_cons ':' rest).trans (List.suffix_append spelled _)).isInfix
    · cases hgives
  refine ⟨⟨hspace, fun hinside ↦ hfirst ?_⟩, fun n hn ↦ ?_, fun value hsome ↦ ?_⟩
  · refine hinside.trans ⟨request.method.render ++ [' '], ' ' :: "HTTP/1.".toList ++ minor, ?_⟩
    simp
  · have hframing := hfields.framing
    rw [hn] at hframing
    obtain ⟨length, -, hlength⟩ := Option.bind_eq_some_iff.mp hframing.2.2
    obtain hdigits | ⟨digits, -, hdigits⟩ := Text.parseU64_eq_some.mp hlength
    · exact hdigits.lt
    · exact hdigits.lt
  · rcases hsome with hrange | hauthorization
    · exact hvalue Http.range value (hfields.range.symm.trans hrange)
    · exact hvalue Http.authorization value (hfields.authorization.symm.trans hauthorization)

/-- **Round trip of requests.** A request that some head says, written out, is measured as one head,
whatever comes after it, and is parsed back. -/
theorem parse_rendered {head : Bytes} {request : Request} (h : parse head = .ok request)
    (rest : Bytes) : headLen (Text.utf8 request.render ++ rest)
        = some (Text.utf8 request.render).length
      ∧ parse (Text.utf8 request.render) = .ok request :=
  ⟨headLen_render (sayable_of_parse h) rest, parse_utf8_render (sayable_of_parse h)⟩

/-- A head with a line feed in its target, and its fields in an order and a case of their own. -/
def pushing : Text :=
  "PUT /a\nb HTTP/1.0\r\nAUTHORIZATION:Bearer t \r\nrange: bytes=1\r-\r\n".toList
    ++ "Content-Length: 2\r\nX: y\r\nExpect: 100-continue\r\n\r\n".toList

theorem parse_rendered_pushing : ∃ request, parse (Text.utf8 pushing) = .ok request
    ∧ request.target = "/a\nb".toList ∧ request.range = some "bytes=1\r-".toList
    ∧ request.render ≠ pushing
    ∧ headLen (Text.utf8 request.render ++ [1, 2]) = some (Text.utf8 request.render).length
    ∧ parse (Text.utf8 request.render) = .ok request := by
  have hparse : parse (Text.utf8 pushing) = .ok ⟨.put, "/a\nb".toList, .length 2, .keep, .continue,
      some "bytes=1\r-".toList, some "Bearer t".toList⟩ := by
    rw [parse, Text.fromUtf8_utf8]
    decide +kernel
  exact ⟨_, hparse, rfl, rfl, by decide, parse_rendered hparse [1, 2]⟩

end Http

end Bincache
