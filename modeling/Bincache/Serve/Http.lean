import Bincache.Lib.Text

/-!
# HTTP/1.1 request heads

Exactly the surface a Nix client uses. A head is measured by its blank line and parsed whole; header
lines are absorbed in order.
-/

namespace Bincache

namespace Http

/-- Ceiling on a request head. -/
def headLenMax : ℕ := 16 * 1024

/-- Ceiling on the body of a narinfo `PUT`. -/
def metadataBodyMax : ℕ := 1024 * 1024

/-- The blank line that ends a request head. -/
def headEnd : Bytes := [13, 10, 13, 10]

inductive Method
  | get | head | put
deriving DecidableEq, Repr

namespace Method

def variants : List Method := [get, head, put]

def render : Method → Text
  | get => "GET".toList
  | head => "HEAD".toList
  | put => "PUT".toList

def parse (text : Text) : Option Method := variants.find? fun method ↦ method.render = text

end Method

/-- Whether the connection survives this exchange. -/
inductive KeepAlive
  | keep
  | close
deriving DecidableEq, Repr

/-- Whether the client is waiting for `100 Continue` before it sends a body. -/
inductive Expectation
  | continue
  | none
deriving DecidableEq, Repr

/-- How the request body is delimited. -/
inductive Framing
  | empty
  | length (length : ℕ)
  | chunked
deriving DecidableEq, Repr

inductive Error
  | encoding
  | requestLine
  | method (method : Text)
  | version (version : Text)
  | header (line : Text)
  | length
  | conflictingFraming
deriving DecidableEq

structure Request where
  method : Method
  target : Text
  framing : Framing
  keepAlive : KeepAlive
  expectation : Expectation
  range : Option Text
  authorization : Option Text
deriving DecidableEq

/-- Bytes consumed by the head, once it is complete. -/
def headLen : Bytes → Option ℕ
  | [] => none
  | byte :: buffer =>
    if headEnd <+: byte :: buffer then some headEnd.length else (headLen buffer).map (· + 1)

def absorb (request : Request) (line : Text) : Except Error Request :=
  match Text.splitOnce [':'] line with
  | none => throw (.header line)
  | some (name, value) =>
    let value := Text.trim value
    if Text.eqIgnoreAsciiCase name "content-length".toList then
      if request.framing ≠ .chunked then
        match Text.parseU64 value with
        | some length => pure { request with framing := .length length }
        | none => throw .length
      else throw .conflictingFraming
    else if Text.eqIgnoreAsciiCase name "transfer-encoding".toList then
      match request.framing with
      | .length _ => throw .conflictingFraming
      | _ => pure { request with framing := .chunked }
    else if Text.eqIgnoreAsciiCase name "connection".toList then
      if Text.eqIgnoreAsciiCase value "close".toList then
        pure { request with keepAlive := .close }
      else pure { request with keepAlive := .keep }
    else if Text.eqIgnoreAsciiCase name "expect".toList then
      if Text.eqIgnoreAsciiCase value "100-continue".toList then
        pure { request with expectation := .continue }
      else pure { request with expectation := .none }
    else if Text.eqIgnoreAsciiCase name "range".toList then
      pure { request with range := some value }
    else if Text.eqIgnoreAsciiCase name "authorization".toList then
      pure { request with authorization := some value }
    else pure request

def requestLine (line : Text) : Except Error Request :=
  match line.splitOn ' ' with
  | [method, target, version] =>
    if (Text.stripPrefix "HTTP/1.".toList version).isSome then
      match Method.parse method with
      | some method => pure
          { method, target, framing := .empty, keepAlive := .keep, expectation := .none,
            range := none, authorization := none }
      | none => throw (.method method)
    else throw (.version version)
  | _ => throw .requestLine

def parse (head : Bytes) : Except Error Request :=
  match Text.fromUtf8 head with
  | none => throw .encoding
  | some text =>
    match Text.splitCrlfTerminator text with
    | [] => throw .requestLine
    | line :: lines => do
      let request ← requestLine line
      (lines.filter (· ≠ [])).foldlM absorb request

namespace Request

/-- How many body bytes follow the head, for the routes that take one. -/
def bodyLen (request : Request) : ℕ :=
  match request.framing with
  | .length length => length
  | .empty | .chunked => 0

/-- Whether a body follows that a bodyless answer would leave unread. -/
def carriesBody (request : Request) : Bool :=
  match request.framing with
  | .empty => false
  | .length length => 0 < length
  | .chunked => true

theorem bodyLen_eq_zero {request : Request} (h : request.carriesBody = false) :
    request.bodyLen = 0 := by
  rw [bodyLen]
  rw [carriesBody] at h
  split at h
  · next heq => rw [heq]
  · next length heq =>
    rw [heq]
    simpa using h
  · exact absurd h (by decide)

theorem bodyLen_pos {request : Request} (h : request.carriesBody = true)
    (hchunked : request.framing ≠ .chunked) : 0 < request.bodyLen := by
  rw [bodyLen]
  rw [carriesBody] at h
  split at h
  · exact absurd h (by decide)
  · next length heq =>
    rw [heq]
    simpa using h
  · next heq => exact absurd heq hchunked

end Request

end Http

end Bincache
