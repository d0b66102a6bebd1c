import Bincache.Serve.Http

/-!
# Response heads

A head under construction is the text of its lines so far; the blank line is written by `finish`, so
a half-built head cannot be sent. -/

namespace Bincache

namespace Response

/-- Announced on every response. -/
def server : Text := "bincache".toList

inductive Status
  | continue | ok | created | noContent | partialContent | badRequest | unauthorized | notFound
  | methodNotAllowed | lengthRequired | contentTooLarge | rangeNotSatisfiable | serverError
  | notImplemented
deriving DecidableEq, Repr

namespace Status

/-- Code and reason phrase together. -/
def line : Status → ℕ × Text
  | «continue» => (100, "Continue".toList)
  | ok => (200, "OK".toList)
  | created => (201, "Created".toList)
  | noContent => (204, "No Content".toList)
  | partialContent => (206, "Partial Content".toList)
  | badRequest => (400, "Bad Request".toList)
  | unauthorized => (401, "Unauthorized".toList)
  | notFound => (404, "Not Found".toList)
  | methodNotAllowed => (405, "Method Not Allowed".toList)
  | lengthRequired => (411, "Length Required".toList)
  | contentTooLarge => (413, "Content Too Large".toList)
  | rangeNotSatisfiable => (416, "Range Not Satisfiable".toList)
  | serverError => (500, "Internal Server Error".toList)
  | notImplemented => (501, "Not Implemented".toList)

def code (status : Status) : ℕ := status.line.1

def reason (status : Status) : Text := status.line.2

end Status

def crlf : Text := ['\r', '\n']

/-- `HTTP/1.1 <code> <reason>`, ended. -/
def statusLine (status : Status) : Text :=
  "HTTP/1.1 ".toList ++ Text.decimal status.code ++ ' ' :: status.reason ++ crlf

def headerLine (name value : Text) : Text := name ++ ": ".toList ++ value ++ crlf

def connectionValue : Http.KeepAlive → Text
  | .keep => "keep-alive".toList
  | .close => "close".toList

/-- A response head under construction. -/
structure Head where
  text : Text

namespace Head

def new (status : Status) (keepAlive : Http.KeepAlive) : Head :=
  ⟨statusLine status ++ headerLine "Server".toList server
    ++ headerLine "Connection".toList (connectionValue keepAlive)⟩

def header (head : Head) (name value : Text) : Head := ⟨head.text ++ headerLine name value⟩

def length (head : Head) (bytes : ℕ) : Head :=
  head.header "Content-Length".toList (Text.decimal bytes)

/-- Closes the head. The body, if any, follows. -/
def finish (head : Head) : Bytes := Text.utf8 (head.text ++ crlf)

/-- Head and body in one buffer. -/
def withBody (head : Head) (body : Bytes) : Bytes := (head.length body.length).finish ++ body

end Head

def bare (status : Status) (keepAlive : Http.KeepAlive) (length : ℕ) : Bytes :=
  ((Head.new status keepAlive).length length).finish

end Response

end Bincache
