import Bincache.Serve.Http
import Bincache.Store

/-!
# Connections

The bytes read from a socket that no request has consumed yet, and the ways a request consumes them:
a head, a whole small body, or a streamed body chunk by chunk.
-/

namespace Bincache

/-- The read side of one keep-alive connection. -/
structure Connection where
  buffer : Bytes := []

namespace Connection

/-- Bytes requested per socket read, and the most a chunk holds. -/
def readChunk : ℕ := 64 * 1024

/-- Bytes sent per payload chunk. -/
def sendChunk : ℕ := 256 * 1024

inductive Error
  | read (source : IoError)
  | write (source : IoError)
  | truncated
  | headTooLong
deriving DecidableEq

/-- The bytes that arrived; none means the peer half-closed. -/
def recv : Call Error Bytes := Attempt.context .read (ExceptT.mk (.call .recv .done))

def send (bytes : Bytes) : Call Error Unit :=
  Attempt.context .write (ExceptT.mk (.call (.send bytes) .done))

/-- Reads until a complete request head is buffered; `none` when the peer closed between
requests. -/
def head (connection : Connection) : Call Error (Option Bytes × Connection) :=
  match Http.headLen connection.buffer with
  | some len => pure (some (connection.buffer.take len), ⟨connection.buffer.drop len⟩)
  | none =>
    if connection.buffer.length ≤ Http.headLenMax then do
      let read ← recv
      if _h : read = [] then
        if connection.buffer = [] then pure (none, connection) else throw .truncated
      else head ⟨connection.buffer ++ read⟩
    else throw .headTooLong
termination_by Http.headLenMax + 1 - connection.buffer.length
decreasing_by
  have := List.length_pos_of_ne_nil _h
  rw [List.length_append]
  omega

/-- A whole small body. -/
def body (connection : Connection) (len : ℕ) : Call Error (Bytes × Connection) :=
  if connection.buffer.length < len then do
    let read ← recv
    if _h : read = [] then throw .truncated else body ⟨connection.buffer ++ read⟩ len
  else pure (connection.buffer.take len, ⟨connection.buffer.drop len⟩)
termination_by len - connection.buffer.length
decreasing_by
  have := List.length_pos_of_ne_nil _h
  rw [List.length_append]
  omega

/-- The connection once something is buffered. -/
def fill (connection : Connection) : Call Error Connection :=
  if connection.buffer = [] then do
    let read ← recv
    if read = [] then throw .truncated else pure ⟨read⟩
  else pure connection

/-- The next slice of a streamed body of which `remaining` bytes are left. What is left after it is
`remaining` less the length of the slice. -/
def chunk (connection : Connection) (remaining : ℕ) : Call Error (Bytes × Connection) :=
  if remaining = 0 then pure ([], connection)
  else do
    let connection ← connection.fill
    let take := min (min connection.buffer.length remaining) readChunk
    pure (connection.buffer.take take, ⟨connection.buffer.drop take⟩)

def discard (connection : Connection) (remaining : ℕ) : Call Error Connection :=
  if 0 < remaining then do
    let (chunk, connection) ← connection.chunk remaining
    if _h : chunk = [] then throw .truncated
    else discard connection (remaining - chunk.length)
  else pure connection
termination_by remaining
decreasing_by
  have := List.length_pos_of_ne_nil _h
  omega

end Connection

end Bincache
