import IndexServer.StringFunctions.Wide
import IndexServer.Lib.Segments
import Mathlib.Data.Nat.Digits.Defs

/-!
# The client connection

`Client::send_` and `Client::receive`. A message travels as the eight bytes of its length and then
in blocks. The calls of `recv` are numbered from zero, and the peer answers each of them with some
of the bytes asked for, or with an error; the array that a call fills keeps what it held behind
them. Arrays on the stack start with any content. A copy that leaves a string or an array has no
result. `size_t` has 64 bits, as in the builds for x64; one of 32 bits would cut a length from
`2 ^ 32` on.
-/

namespace IndexServer

namespace Client

def bufferSize : ℕ := 4096

/-- The longest string, where `size_t` has 64 bits. -/
def maxSize : ℕ := 2 ^ 63 - 1

/-- The largest `size_t` of 64 bits. -/
def npos : ℕ := 2 ^ 64 - 1

/-- The value that a conversion to `int` leaves of an integer. -/
def wrap32 (x : Int) : Int := x.bmod (2 ^ 32)

/-- The bytes of a `long long` in memory. -/
def longBytes (x : Int) : List UInt8 :=
  (List.range 8).map fun i => .ofNat ((x % 2 ^ 64).toNat / 256 ^ i)

def longLongOf (bytes : List UInt8) : Int :=
  let value : ℕ := Nat.ofDigits 256 (bytes.map UInt8.toNat)
  wrap64 value

/-- `memcpy(&target[i], &source[j], count)`. -/
def memcpy (target : List UInt8) (i : ℕ) (source : List UInt8) (j count : ℕ) :
    Exec (List UInt8) :=
  if i + count ≤ target.length ∧ j + count ≤ source.length then
    .ok (target.take i ++ (source.drop j).take count ++ target.drop (i + count))
  else .error .outOfRange

/-- `s += t`. -/
def append (s t : List UInt8) : Exec (List UInt8) :=
  if s.length + t.length ≤ maxSize then .ok (s ++ t) else .error .thrown

/-- `s.resize(n)`, for a `long long` that becomes a `size_t` of 64 bits. -/
def resize (s : List UInt8) (n : Int) : Exec (List UInt8) :=
  if 0 ≤ n ∧ n ≤ maxSize then .ok (s.take n.toNat ++ List.replicate (n.toNat - s.length) 0)
  else .error .thrown

/-- `s.find_last_not_of(c)`. -/
def findLastNotOf (s : List UInt8) (c : UInt8) : ℕ :=
  match s.reverse.findIdx? (· != c) with
  | some behind => s.length - 1 - behind
  | none => npos

/-! ### Sending -/

/-- The local variables of `send_` that its loop changes, and the buffers sent so far. -/
structure Sending where
  sndBuf : List UInt8
  i : ℕ
  sent : List (List UInt8)
  deriving DecidableEq, Repr

/-- The loop of `send_`, for the value it returns and the buffers it has sent. Each round moves on
by a block, so it ends within as many rounds as there are blocks. -/
def sendLoop (fails : ℕ → Bool) (smessage : List UInt8) (dataLength : Int) :
    ℕ → Sending → Exec (Int × List (List UInt8))
  | 0, _ => .error .noReturn
  | fuel + 1, s =>
      if s.i < dataLength then do
        let sndBuf ← memcpy s.sndBuf 0 smessage s.i bufferSize
        if fails s.sent.length then return (-1, s.sent)
        else
          let s : Sending := { sndBuf, i := s.i + bufferSize, sent := s.sent ++ [sndBuf] }
          sendLoop fails smessage dataLength fuel s
      else return (0, s.sent)

/-- `send_` behind the conversion of its argument; `fails` says which calls of `send` return an
error. -/
def sendBytes (fails : ℕ → Bool) (sndBuf : Vector UInt8 bufferSize) (smessage : List UInt8) :
    Exec (Int × List (List UInt8)) := do
  let padding := List.replicate (bufferSize - smessage.length % bufferSize) 32
  let smessage ← append smessage padding
  let dataLength : Int := smessage.length
  let lenBuf := longBytes dataLength
  if fails 0 then return (-1, [])
  else
    let s : Sending := { sndBuf := sndBuf.toList, i := 0, sent := [lenBuf] }
    sendLoop fails smessage dataLength (smessage.length / bufferSize + 2) s

def send_ (fails : ℕ → Bool) (sndBuf : Vector UInt8 bufferSize) (message : WString) :
    Exec (Int × List (List UInt8)) := sendBytes fails sndBuf (ws2s message)

/-! ### Receiving -/

def requested : ℕ → ℕ
  | 0 => 8
  | _ + 1 => bufferSize

/-- What the calls of `recv` deliver: at most what they ask for, or an error. -/
structure Peer where
  deliver : ℕ → Option (List UInt8)
  deliver_le : ∀ n bytes, deliver n = some bytes → bytes.length ≤ requested n

/-- The array that the call is given, after it. -/
def Peer.recv (peer : Peer) (n : ℕ) (buffer : List UInt8) : Option (List UInt8) :=
  (peer.deliver n).map fun bytes => bytes ++ buffer.drop bytes.length

/-- The local variables of `receive`, how often it has called `recv`, and whether the last call has
failed. -/
structure Receiving where
  dataLength : Int
  receivedString : List UInt8
  rcvBuf : List UInt8
  i : ℕ
  calls : ℕ
  failed : Bool
  deriving DecidableEq, Repr

def receiveLoop (peer : Peer) : ℕ → Receiving → Exec Receiving
  | 0, _ => .error .noReturn
  | fuel + 1, s =>
      if s.i < s.dataLength then
        match peer.recv s.calls s.rcvBuf with
        | none => .ok { s with calls := s.calls + 1, failed := true }
        | some rcvBuf => do
            let receivedString ← memcpy s.receivedString s.i rcvBuf 0 bufferSize
            receiveLoop peer fuel
              { s with receivedString, rcvBuf, i := s.i + bufferSize, calls := s.calls + 1 }
      else return s

/-- `receive` behind the call that fills the header. -/
def receiveBlocks (peer : Peer) (lenBuf rcvBuf : List UInt8) : Exec Receiving := do
  let dataLength := longLongOf lenBuf
  let receivedString ← resize [] dataLength
  let s : Receiving :=
    { dataLength, receivedString, rcvBuf, i := 0, calls := 1, failed := false }
  receiveLoop peer (dataLength.toNat / bufferSize + 2) s

/-- What a call of `receive` returns and leaves in `*answer`, the string it has converted for it,
and how often it has called `recv`. -/
structure Outcome where
  returned : Int
  answer : WString
  receivedString : List UInt8
  calls : ℕ
  deriving DecidableEq, Repr

/-- `receive` behind its loop. -/
def Receiving.finish (s : Receiving) (mbstowcs_s : Mbstowcs) (answer : WString) : Outcome :=
  if s.failed then
    { returned := -1, answer, receivedString := s.receivedString, calls := s.calls }
  else
    let pos := (findLastNotOf s.receivedString 32 + 1) % 2 ^ 64
    let receivedString := s.receivedString.take pos
    { returned := wrap32 s.dataLength, answer := s2ws mbstowcs_s receivedString, receivedString,
      calls := s.calls }

def receive (mbstowcs_s : Mbstowcs) (peer : Peer) (lenBuf : Vector UInt8 8)
    (rcvBuf : Vector UInt8 bufferSize) (answer : WString) : Exec Outcome :=
  match peer.recv 0 lenBuf.toList with
  | none => .ok { returned := -1, answer, receivedString := [], calls := 1 }
  | some lenBuf => do
      let s ← receiveBlocks peer lenBuf rcvBuf.toList
      return s.finish mbstowcs_s answer

end Client

end IndexServer
