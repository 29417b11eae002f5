import Sbpfs.Libc.Request

/-!
# Receiving a message

`sbp_recv` of the client and of the data node. A first loop collects bytes in a buffer on
the stack until the buffer is found to hold a whole head, a second one reads the rest of
the message into the block that is returned. What the stack buffer held before is part of
what the first loop searches.
-/
namespace Sbpfs.Libc.Recv

open Sbpfs.Lib.Program Sbpfs.Lib.Search Sbpfs.Cfs.Layout
open Sbpfs.Wire.Head Sbpfs.Wire.Number Sbpfs.Libc.Request

@[simp] abbrev BUF_SIZE : Nat := 4096

/-- `sizeof(content_len)`. -/
@[simp] abbrev contentLenSize : Nat := 64

/-- `get_missing_len`, -1 also for its errors. The value is copied into an array of 64 bytes
with room for a NUL; a line that ends before its value begins has a negative length, which
`memcpy` takes for a huge one. -/
def getMissingLen (buf : Str) (receivedBytes : Nat) : Except Stop Int :=
  match strstr buf 0 headerFlag with
  | none => .ok (-1)
  | some headerEnd =>
    let headerLength := headerEnd + headerFlag.length
    match strstr buf 0 CONTENT_LEN with
    | none => .ok (-1)
    | some contentLenStart =>
      match strstr buf contentLenStart crlf with
      | none => .ok (-1)
      | some contentLenEnd =>
        let contentLenStart := contentLenStart + (CONTENT_LEN.length + 2)
        if contentLenStart ≤ contentLenEnd ∧ contentLenEnd - contentLenStart < contentLenSize then
          let contentLen := (buf.drop contentLenStart).take (contentLenEnd - contentLenStart)
          let contentLength := u64OfInt (atoll contentLen)
          .ok (s64 (u64Sub (u64 (contentLength + headerLength)) receivedBytes))
        else .error .fault

/-- What `recv` stores at `p`. -/
def overwrite (b : Str) (p : Nat) (s : Str) : Str := b.take p ++ s ++ b.drop (p + s.length)

/-- One `recv` of at most `cap` bytes from the chunks that are still to come; no bytes when the
peer has closed the connection. -/
def recv (cap : Nat) : List Str → Str × List Str
  | [] => ([], [])
  | c :: cs => if c.length ≤ cap then (c, cs) else (c.take cap, c.drop cap :: cs)

/-- Where the first loop was left: the buffer, the bytes received, the bytes missing and the
chunks still to come. -/
structure Head where
  buf : Str
  receivedLen : Nat
  missingBytes : Nat
  rest : List Str

/-- The first loop; `none` for its error exits. It goes on only after a chunk that it has
taken whole, since the buffer is full after another one. -/
def recvHead (buf : Str) (receivedLen : Nat) : List Str → Except Stop (Option Head)
  | [] => .ok none
  | c :: cs =>
    let (got, rest) := recv (BUF_SIZE - receivedLen) (c :: cs)
    if got.length = 0 then .ok none
    else
      let buf := overwrite buf receivedLen got
      let receivedLen := receivedLen + got.length
      match getMissingLen buf receivedLen with
      | .error e => .error e
      | .ok missingBytes =>
        if missingBytes < 0 then
          if receivedLen ≥ BUF_SIZE then .ok none else recvHead buf receivedLen cs
        else .ok (some ⟨buf, receivedLen, missingBytes.toNat, rest⟩)

/-- The second loop, with `body` received; `none` when the connection is closed too early. -/
def recvBody (missingBytes : Nat) (body : Str) : List Str → Option Str
  | [] => none
  | c :: cs =>
    let (got, _) := recv (missingBytes - body.length) (c :: cs)
    let body := body ++ got
    if body.length ≥ missingBytes then some body
    else if got.length = 0 then none
    else recvBody missingBytes body cs

/-- `sbp_recv`: `rec_buf` and `rec_len`, `none` for -1. `stale` is what its buffer held before,
`mem` the outcome of its allocation. -/
def sbpRecv (mem : Bool) (stale : { s : Str // s.length = BUF_SIZE }) (chunks : List Str) :
    Except Stop (Option (Str × Nat)) := do
  match ← recvHead (stale.val ++ [0]) 0 chunks with
  | none => return none
  | some ⟨buf, receivedLen, missingBytes, rest⟩ =>
    if mem then
      match if missingBytes = 0 then some [] else recvBody missingBytes [] rest with
      | none => return none
      | some body =>
        return some (buf.take receivedLen ++ body ++ [0], missingBytes + receivedLen + 1)
    else return none

end Sbpfs.Libc.Recv
