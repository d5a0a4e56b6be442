import Sginx.MiniServer
import Sginx.SizeT

/-!
`Readline` and `Writeline` of `core/sgx_rush.c`, over the answers of `read` and `write`. A list of
answers that is used up stands for a call that has not come back.
-/

namespace Sginx.Rush

open Sginx.Http (Byte lf)
open Sginx.Mini (CharBuf cells)

def eintr : ℤ := 4

inductive ReadResult where
  | byte (c : Byte)
  | interrupted
  | endOfFile
  | error
deriving DecidableEq, Repr

/-- `stored` is how far `sgx_buffer` has moved and `rest` the answers that were not asked for. -/
structure ReadlineAnswer where
  result : ℤ
  buf : CharBuf
  stored : ℕ
  rest : List ReadResult

def readlineEnd (sgxLen : ℕ) (buf : CharBuf) (stored : ℕ) (rest : List ReadResult) :
    ReadlineAnswer :=
  ⟨sgxLen, Function.update buf stored 0, stored, rest⟩

/-- A buffer is shorter than `2 ^ 63` bytes, so `sgx_len` does not overflow. -/
def readlineLoop (sgxMaxLen : ℕ) : List ReadResult → ℕ → CharBuf → ℕ → Option ReadlineAnswer
  | [], sgxLen, buf, stored =>
    if sgxLen < sgxMaxLen then none else some (readlineEnd sgxLen buf stored [])
  | result :: rest, sgxLen, buf, stored =>
    if sgxLen < sgxMaxLen then
      match result with
      | .byte sgxC =>
        let buf := Function.update buf stored sgxC
        if sgxC = lf then some (readlineEnd sgxLen buf (stored + 1) rest)
        else readlineLoop sgxMaxLen rest (sgxLen + 1) buf (stored + 1)
      | .endOfFile =>
        if sgxLen = 1 then some ⟨0, buf, stored, rest⟩
        else some (readlineEnd sgxLen buf stored rest)
      | .interrupted => readlineLoop sgxMaxLen rest sgxLen buf stored
      | .error => some ⟨-1, buf, stored, rest⟩
    else some (readlineEnd sgxLen buf stored (result :: rest))

def readline (sgxMaxLen : ℕ) (results : List ReadResult) (buf : CharBuf) : Option ReadlineAnswer :=
  readlineLoop sgxMaxLen results 1 buf 0

structure WriteResult where
  num : ℤ
  errno : ℤ
deriving DecidableEq, Repr

structure WritelineState where
  left : ℕ
  buffer : ℕ
  accepted : List Byte
deriving DecidableEq, Repr

/-- A round of the loop, `none` where the function returns -1. -/
def writelineRound (buf : CharBuf) (s : WritelineState) (result : WriteResult) :
    Option WritelineState :=
  if result.num ≤ 0 then
    if result.errno = eintr then some s else none
  else
    some
      { left := sizeSub s.left result.num.toNat
        buffer := s.buffer + result.num.toNat
        accepted := s.accepted ++ cells buf s.buffer result.num.toNat }

/-- `result` is `none` while the function has not returned. -/
structure WritelineAnswer where
  result : Option ℤ
  state : WritelineState
deriving DecidableEq, Repr

def writelineLoop (sgxMaxLen : ℕ) (buf : CharBuf) :
    List WriteResult → WritelineState → WritelineAnswer
  | [], s => ⟨if 0 < s.left then none else some (sizeSigned sgxMaxLen), s⟩
  | result :: rest, s =>
    if 0 < s.left then
      match writelineRound buf s result with
      | some s => writelineLoop sgxMaxLen buf rest s
      | none => ⟨some (-1), s⟩
    else ⟨some (sizeSigned sgxMaxLen), s⟩

def writeline (sgxMaxLen : ℕ) (buf : CharBuf) (results : List WriteResult) : WritelineAnswer :=
  writelineLoop sgxMaxLen buf results ⟨sgxMaxLen, 0, []⟩

end Sginx.Rush
