import AsrServer.RequestHeader

/-!
The read path of `Http_Server::recv_request`: `read_data`,
`read_http_header_timeout` and `readn_timeout`. A `Conn` is what they work on:
the handle's `_read_buf`, the bytes the kernel has still to deliver, and `plan`,
one entry for each coming `read_data`, which bounds the bytes that read
returns. An entry 0 or the end of `plan` is a poll that times out or a read
that fails, so the loops recur on `plan`. `info` stands for `GetInfo`: the length
it stores for a header it accepts.
-/

namespace AsrServer.ReadPath

open Bytes

def readBufSize : Nat := 512

structure Conn where
  read_buf : List Byte
  unread : List Byte
  plan : List Nat
  deriving DecidableEq, Repr

inductive HeaderResult where
  | complete (http : List Byte)
  | error
  | out_of_range
  deriving DecidableEq, Repr

/-- `read_data` under one entry of the plan: the bytes read and those left.
Nothing read is a result `n <= 0`. -/
def read_data (size : Nat) (unread : List Byte) (buf_len : Nat) : List Byte × List Byte :=
  (unread.take (min size buf_len), unread.drop (min size buf_len))

/-- The body of the `if` in `read_http_header_timeout`. The test is on the
narrowed position, so a miss (`npos` becomes -1) and a negative position are the
same to it. -/
def cut_header (buffer : List Byte) : Option (HeaderResult × List Byte) :=
  match find buffer crlfcrlf with
  | none => none
  | some found =>
      let pos := toInt found
      if 0 ≤ pos then
        match substr buffer (toInt (pos + 4)) with
        | some rest => some (.complete (substrTo buffer pos), rest)
        | none => some (.out_of_range, buffer)
      else none

def header_loop (buffer unread : List Byte) (plan : List Nat) : HeaderResult × Conn :=
  match cut_header buffer with
  | some (result, rest) => (result, ⟨rest, unread, plan⟩)
  | none =>
      match plan with
      | [] => (.error, ⟨buffer, unread, []⟩)
      | size :: later =>
          let got := read_data size unread readBufSize
          if got.1 = [] then (.error, ⟨buffer, unread, later⟩)
          else header_loop (buffer ++ cstr got.1) got.2 later

def read_http_header_timeout (conn : Conn) : HeaderResult × Conn :=
  header_loop conn.read_buf conn.unread conn.plan

inductive BodyResult where
  | ret (count : Int) (content : List Byte)
  | out_of_range
  deriving DecidableEq, Repr

/-- The loop of `readn_timeout`; `left` is positive where it reads. -/
def body_loop (buf_len : Int) (content : List Byte) (left : Int) (unread : List Byte)
    (plan : List Nat) : BodyResult × Conn :=
  if 0 < left then
    match plan with
    | [] => (.ret (toInt (buf_len - left)) content, ⟨[], unread, []⟩)
    | size :: later =>
        let got := read_data size unread (min left.toNat readBufSize)
        if got.1 = [] then (.ret (toInt (buf_len - left)) content, ⟨[], unread, later⟩)
        else
          body_loop buf_len (content ++ cstr got.1) (left - got.1.length) got.2 later
  else (.ret buf_len content, ⟨[], unread, plan⟩)

def readn_timeout (conn : Conn) (buf_len : Int) : BodyResult × Conn :=
  let left := toInt (buf_len - conn.read_buf.length)
  if left < 0 then
    match substr conn.read_buf buf_len with
    | some rest =>
        (.ret buf_len (substrTo conn.read_buf buf_len), { conn with read_buf := rest })
    | none => (.out_of_range, conn)
  else body_loop buf_len conn.read_buf left conn.unread conn.plan

/-- How one `recv_request` ends. `disconnect` carries the header and the bytes
of a body that stopped short, or nothing when no header came; `out_of_range` is
the exception of `substr` leaving the call. -/
inductive Outcome where
  | submitted (http : List Byte) (request : List Byte)
  | invalid (http : List Byte)
  | disconnect (short : Option (List Byte × List Byte))
  | out_of_range
  deriving DecidableEq, Repr

/-- The test `httpheader.length() > 0 && GetInfo(httpheader, length) == 0`. -/
def verdict (info : List Byte → Option Int) (http : List Byte) : Option Int :=
  if http = [] then none else info http

def recv_request (info : List Byte → Option Int) (conn : Conn) : Outcome × Conn :=
  match read_http_header_timeout conn with
  | (.error, after) => (.disconnect none, after)
  | (.out_of_range, after) => (.out_of_range, after)
  | (.complete http, after) =>
      match verdict info http with
      | none => (.invalid http, after)
      | some length =>
          match readn_timeout after length with
          | (.out_of_range, last) => (.out_of_range, last)
          | (.ret buf_len request, last) =>
              if buf_len = length then (.submitted http request, last)
              else (.disconnect (some (http, request)), last)

/-- The two ends of `recv_request` that give the descriptor back to epoll. -/
def Outcome.rearmed : Outcome → Bool
  | .submitted _ _ | .invalid _ => true
  | .disconnect _ | .out_of_range => false

structure Call where
  before : Conn
  outcome : Outcome
  after : Conn
  deriving DecidableEq, Repr

/-- The first `count` calls on one connection, each continuing where the last
left the buffer. A connection that is not given back has no further call. -/
def calls (info : List Byte → Option Int) : Nat → Conn → List Call
  | 0, _ => []
  | count + 1, conn =>
      let call : Call := ⟨conn, (recv_request info conn).1, (recv_request info conn).2⟩
      call :: if call.outcome.rearmed then calls info count call.after else []

/-- The header and the connection as `GetInfo` meets them, when there is a header. -/
def opened (conn : Conn) : Option (List Byte × Conn) :=
  match read_http_header_timeout conn with
  | (.complete http, mid) => some (http, mid)
  | _ => none

def Conn.pending (conn : Conn) : List Byte := conn.read_buf ++ conn.unread

def Call.observed (call : Call) : Outcome × List Byte := (call.outcome, call.after.pending)

def Call.start (stream : List Byte) (call : Call) : Nat :=
  stream.length - call.before.pending.length

def Conn.fresh (stream : List Byte) (plan : List Nat) : Conn := ⟨[], stream, plan⟩

/-- Every read returns at least a byte and none times out while bytes remain. -/
def Conn.Flowing (conn : Conn) : Prop :=
  (∀ size ∈ conn.plan, 0 < size) ∧ conn.unread.length ≤ conn.plan.length

end AsrServer.ReadPath
