/-
  `compat_sendfile` of src/sys/socket/sendfile.c as a state machine.

  A state is the function's variables together with what the outside sees: the position of the
  file descriptor, the bytes that the socket has accepted and `*len`. `Point` is the system call
  that the function waits for; `step` is what it does with the reply until the next call or the
  return. The calls before the first transfer are made at most once each, `begin` runs through
  them with the replies in `Descriptors`. `Fits` says which replies the kernel may give to a
  transfer; `len` is not null.
-/
import Librecompat.Darwin
import Librecompat.Lib.Run

namespace Librecompat.Sendfile

/-- `struct sf_hdtr`: the header and the trailer vector, `[]` for a null pointer or a count
    of `0`. -/
structure Hdtr where
  headers : List (List UInt8)
  trailers : List (List UInt8)

/-- The arguments; `len` is the value of `*len` on entry. -/
structure Args where
  offset : Int
  len : Int
  hdtr : Option Hdtr
  flags : Int

/-- The file and the replies to the calls that come before the first transfer. -/
structure Descriptors where
  /-- The contents of the file. -/
  file : List UInt8
  /-- The position of `fd` on entry. -/
  pos : Int
  /-- `fstat (fd, …)`: is it a regular file? -/
  statFd : Except Errno Bool
  /-- `fstat (s, …)`: is it a socket? -/
  statSock : Except Errno Bool
  /-- `getsockopt (s, SOL_SOCKET, SO_TYPE, …)`. -/
  sockType : Except Errno Int
  /-- `getsockopt (s, SOL_SOCKET, SO_ERROR, …)`. -/
  sockError : Except Errno Int
  /-- `lseek (fd, 0, SEEK_CUR)`. -/
  tell : Except Errno Unit
  /-- `lseek (fd, offset, SEEK_SET)`. -/
  seek : Except Errno Unit
  /-- Does `malloc` succeed? -/
  malloc : Bool

def SOCK_STREAM : Int := 1
def SENDFILE_BUFFER_SIZE : Int := 256 * 1024

/-- The call that is being made, or the return. -/
inductive Point where
  | headers
  | read (toRead : Int)
  | write (chunk : List UInt8) (totalSent : Nat)
  | trailers
  | restore (ret : Int)
  | done (ret : Int)
  deriving DecidableEq

structure State where
  point : Point
  sbytes : Int
  sentHeadersAndFile : Int
  filePos : Int
  origOffset : Int
  /-- The buffer is allocated. -/
  buffer : Bool
  /-- `*len`. -/
  len : Int
  errno : Errno
  /-- The position of `fd`. -/
  fdPos : Int
  /-- The bytes accepted by the socket during the call. -/
  out : List UInt8

/-- A reply: a count of bytes (for `lseek` any value but `-1`) or `-1` with an `errno`. -/
inductive Reply where
  | count (n : Nat)
  | error (e : Errno)
  deriving DecidableEq

def Args.headers (a : Args) : List (List UInt8) := (a.hdtr.map Hdtr.headers).getD []
def Args.trailers (a : Args) : List (List UInt8) := (a.hdtr.map Hdtr.trailers).getD []

/-! ## From one call to the next -/

/-- `*len = sbytes; return -1;` with `errno` set. -/
def State.fail (s : State) (e : Errno) : State :=
  { s with errno := e, len := s.sbytes, point := .done (-1) }

/-- `cleanup:`, up to the call of `lseek`. -/
def State.cleanup (ret : Int) (s : State) : State :=
  { s with len := s.sbytes, buffer := false,
           point := if s.origOffset ≠ -1 then .restore ret else .done ret }

/-- `*len = sbytes; return ret;` with `ret` still `0`. -/
def State.finish (s : State) : State := { s with len := s.sbytes, point := .done 0 }

/-- `send_trailers:`. -/
def sendTrailers (a : Args) (s : State) : State :=
  if a.trailers ≠ [] then { s with point := .trailers } else s.finish

/-- How many bytes a pass of the body loop asks `read` for. -/
def toRead (a : Args) (fileSize : Int) (s : State) : Int :=
  let n := if a.len = 0 then SENDFILE_BUFFER_SIZE
    else if a.len - s.sentHeadersAndFile > SENDFILE_BUFFER_SIZE then SENDFILE_BUFFER_SIZE
    else a.len - s.sentHeadersAndFile
  if n > fileSize - s.filePos then fileSize - s.filePos else n

/-- The head of the body loop. -/
def loopHead (a : Args) (fileSize : Int) (s : State) : State :=
  if (a.len = 0 ∨ s.sentHeadersAndFile < a.len) ∧ s.filePos < fileSize then
    if toRead a fileSize s = 0 then sendTrailers a s
    else { s with point := .read (toRead a fileSize s) }
  else sendTrailers a s

/-- The socket accepts `bs`. -/
def State.accept (s : State) (bs : List UInt8) : State := { s with out := s.out ++ bs }

/-- `n` bytes of headers or file data are counted as sent. -/
def State.count (s : State) (n : Nat) : State :=
  { s with sbytes := s.sbytes + n, sentHeadersAndFile := s.sentHeadersAndFile + n }

/-! ## The start -/

/-- Phase 1: the first transfer is that of the headers or belongs to the body. -/
def sendHeaders (a : Args) (fileSize : Int) (s : State) : State :=
  if a.headers ≠ [] then { s with point := .headers } else loopHead a fileSize s

/-- From the check of the offset to the first transfer. -/
def openFile (a : Args) (d : Descriptors) (s : State) : State :=
  if a.offset ≥ d.file.length then { s with len := 0, point := .done 0 }
  else
    match d.tell with
    | .error e => s.fail e
    | .ok _ =>
      match d.seek with
      | .error e => s.fail e
      | .ok _ =>
        let s := { s with origOffset := d.pos, fdPos := a.offset }
        if d.malloc then sendHeaders a d.file.length { s with buffer := true }
        else State.cleanup (-1) { s with errno := ENOMEM }

/-- The checks of the socket. -/
def checkSocket (a : Args) (d : Descriptors) (s : State) : State :=
  match d.statSock with
  | .error e => s.fail e
  | .ok isSock =>
    if !isSock then s.fail ENOTSOCK
    else
      match d.sockType with
      | .error e => s.fail e
      | .ok sockType =>
        if sockType ≠ SOCK_STREAM then s.fail EINVAL
        else
          match d.sockError with
          | .error e => s.fail e
          | .ok sockError => if sockError ≠ 0 then s.fail ENOTCONN else openFile a d s

/-- The variables on entry; `file_pos` is set where the body begins. -/
def State.entry (a : Args) (d : Descriptors) : State where
  point := .done 0
  sbytes := 0
  sentHeadersAndFile := 0
  filePos := a.offset
  origOffset := -1
  buffer := false
  len := 0
  errno := 0
  fdPos := d.pos
  out := []

/-- From the entry to the first transfer or the return. -/
def begin (a : Args) (d : Descriptors) : State :=
  let s := State.entry a d
  if a.flags ≠ 0 then s.fail EINVAL
  else if a.offset < 0 then s.fail EINVAL
  else
    match d.statFd with
    | .error e => s.fail e
    | .ok isReg => if !isReg then s.fail ENOTSUP else checkSocket a d s

/-! ## The replies -/

/-- `writev` on the headers has returned. -/
def onHeaders (a : Args) (fileSize : Int) (s : State) : Reply → State
  | .error e => State.cleanup (-1) { s with errno := e }
  | .count n =>
    let s := (s.accept (a.headers.flatten.take n)).count n
    if a.len > 0 ∧ s.sentHeadersAndFile ≥ a.len then sendTrailers a s else loopHead a fileSize s

/-- `read` has returned. -/
def onRead (a : Args) (file : List UInt8) (s : State) : Reply → State
  | .error e =>
    if e = EINTR then loopHead a file.length { s with errno := e }
    else State.cleanup (-1) { s with errno := e }
  | .count n =>
    if n = 0 then sendTrailers a s
    else { s with fdPos := s.fdPos + n,
                  point := .write ((file.drop s.fdPos.toNat).take n) 0 }

/-- `write` of the part of `chunk` behind `totalSent` has returned. -/
def onWrite (a : Args) (fileSize : Int) (chunk : List UInt8) (totalSent : Nat) (s : State) :
    Reply → State
  | .error e =>
    if e = EINTR then { s with errno := e, point := .write chunk totalSent }
    else if e = EAGAIN ∨ e = EWOULDBLOCK then
      State.cleanup 0 ({ s with errno := e }.count totalSent)
    else State.cleanup (-1) { s with errno := e }
  | .count n =>
    let s := s.accept ((chunk.drop totalSent).take n)
    if totalSent + n < chunk.length then { s with point := .write chunk (totalSent + n) }
    else
      loopHead a fileSize
        { s.count (totalSent + n) with filePos := s.filePos + (totalSent + n : Nat) }

/-- `writev` on the trailers has returned. -/
def onTrailers (a : Args) (s : State) : Reply → State
  | .error e => State.cleanup (-1) { s with errno := e }
  | .count n =>
    { s.accept (a.trailers.flatten.take n) with sbytes := s.sbytes + n }.finish

/-- `lseek (fd, orig_offset, SEEK_SET)` has returned. -/
def onRestore (ret : Int) (s : State) : Reply → State
  | .error e => { s with errno := e, point := .done ret }
  | .count _ => { s with fdPos := s.origOffset, point := .done ret }

/-- What the function does with a reply; after the return there is nothing to reply to. -/
def step (a : Args) (file : List UInt8) (s : State) (r : Reply) : Option State :=
  match s.point with
  | .headers => some (onHeaders a file.length s r)
  | .read _ => some (onRead a file s r)
  | .write chunk totalSent => some (onWrite a file.length chunk totalSent s r)
  | .trailers => some (onTrailers a s r)
  | .restore ret => some (onRestore ret s r)
  | .done _ => none

/-- The replies the kernel may give: a transfer takes at most what it is asked to, and a `read`
    in front of the end of the file is not empty. -/
def Fits (a : Args) (file : List UInt8) (s : State) : Reply → Prop
  | .error _ => True
  | .count n =>
    match s.point with
    | .headers => n ≤ a.headers.flatten.length
    | .read toRead => n ≤ toRead ∧ s.fdPos + n ≤ file.length ∧ (n = 0 → file.length ≤ s.fdPos)
    | .write chunk totalSent => totalSent + n ≤ chunk.length
    | .trailers => n ≤ a.trailers.flatten.length
    | .restore _ => True
    | .done _ => True

instance (a : Args) (file : List UInt8) (s : State) : (r : Reply) → Decidable (Fits a file s r)
  | .error _ => inferInstanceAs (Decidable True)
  | .count n =>
    match h : s.point with
    | .headers => decidable_of_iff (n ≤ a.headers.flatten.length) (by simp [Fits, h])
    | .read toRead =>
      decidable_of_iff
        (n ≤ toRead ∧ s.fdPos + n ≤ file.length ∧ (n = 0 → file.length ≤ s.fdPos))
        (by simp [Fits, h])
    | .write chunk totalSent => decidable_of_iff (totalSent + n ≤ chunk.length) (by simp [Fits, h])
    | .trailers => decidable_of_iff (n ≤ a.trailers.flatten.length) (by simp [Fits, h])
    | .restore _ => decidable_of_iff True (by simp [Fits, h])
    | .done _ => decidable_of_iff True (by simp [Fits, h])

end Librecompat.Sendfile
