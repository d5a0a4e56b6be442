import Sginx.SizeT
import Sginx.Library.RingBuffer

/-!
`http/http_request.h`, `sgx_init_request` and the read loop of `sgx_request_run` (`http/http.c`).
A pointer into `buf` is the offset from its first byte, and the positions `pos` and `last` are
natural numbers, which do not wrap.
-/

namespace Sginx.Http

open Sginx.Library.RingBuffer

abbrev Byte := UInt8

abbrev Ptr := Option ℤ

def sgxMaxBuf : ℕ := 8124

instance : NeZero sgxMaxBuf := ⟨by decide⟩

structure SgxHttpHeader where
  keyStart : Ptr
  keyEnd : Ptr
  valueStart : Ptr
  valueEnd : Ptr
deriving DecidableEq, Repr

/-- `list` holds the headers in list order. -/
structure SgxHttpRequest where
  root : Option ℕ
  fd : ℤ
  epfd : ℤ
  buf : Fin sgxMaxBuf → Byte
  pos : ℕ
  last : ℕ
  state : ℕ
  requestStart : Ptr
  methodEnd : Ptr
  method : ℤ
  uriStart : Ptr
  uriEnd : Ptr
  httpMajor : ℤ
  httpMinor : ℤ
  requestEnd : Ptr
  list : List SgxHttpHeader
  curHeaderKeyStart : Ptr
  curHeaderKeyEnd : Ptr
  curHeaderValueStart : Ptr
  curHeaderValueEnd : Ptr

def zeroRequest : SgxHttpRequest where
  root := none
  fd := 0
  epfd := 0
  buf := fun _ => 0
  pos := 0
  last := 0
  state := 0
  requestStart := none
  methodEnd := none
  method := 0
  uriStart := none
  uriEnd := none
  httpMajor := 0
  httpMinor := 0
  requestEnd := none
  list := []
  curHeaderKeyStart := none
  curHeaderKeyEnd := none
  curHeaderValueStart := none
  curHeaderValueEnd := none

structure SgxConf where
  root : Option ℕ
  port : ℤ
  threadNum : ℤ

def sgxOk : ℤ := 0

def sgxInitRequest (request : SgxHttpRequest) (fd epfd : ℤ) (config : SgxConf) :
    ℤ × SgxHttpRequest :=
  (sgxOk, { request with
    fd := fd
    epfd := epfd
    last := 0
    pos := 0
    state := 0
    root := config.root
    list := [] })

def sgxMin (a b : ℕ) : ℕ := if a < b then a else b

def remainSize (request : SgxHttpRequest) : ℕ :=
  sgxMin (sizeSub (sizeSub sgxMaxBuf (sizeSub request.last request.pos)) 1)
    (sizeSub sgxMaxBuf (request.last % sgxMaxBuf))

/-- What `read` answers: the bytes it stored, none at the end of the stream, or `errno`. -/
inductive ReadResult where
  | bytes (bs : List Byte)
  | failed (errno : ℤ)

inductive LogMessage where
  | overflow
  | readZero
  | readErr
deriving DecidableEq, Repr

inductive LoopExit where
  | again
  | leave
  | err
deriving DecidableEq, Repr

def eagain : ℤ := 11

/-- `read` stores at `plast[0], plast[1], ..`, where `plast` is the slot `start`. -/
def storeFrom (buf : Fin sgxMaxBuf → Byte) (start : ℕ) (bs : List Byte) : Fin sgxMaxBuf → Byte :=
  fun s => if start ≤ s then bs[s - start]?.getD (buf s) else buf s

def overflowCheck (request : SgxHttpRequest) : List LogMessage :=
  if sgxMaxBuf ≤ sizeSub request.last request.pos then [.overflow] else []

def sgxRequestRunRound (request : SgxHttpRequest) :
    ReadResult → SgxHttpRequest × List LogMessage × LoopExit
  | .bytes bs =>
    let request' := { request with
      buf := storeFrom request.buf (request.last % sgxMaxBuf) bs }
    if bs.length = 0 then (request', overflowCheck request' ++ [.readZero], .err)
    else
      let request'' := { request' with last := sizeAdd request.last bs.length }
      (request'', overflowCheck request' ++ overflowCheck request'', .again)
  | .failed errno =>
    if errno ≠ eagain then (request, overflowCheck request ++ [.readErr], .err)
    else (request, overflowCheck request, .leave)

theorem storeFrom_eq (buf : Fin sgxMaxBuf → Byte) (last : ℕ) (bs : List Byte)
    (h : last % sgxMaxBuf + bs.length ≤ sgxMaxBuf) :
    storeFrom buf (last % sgxMaxBuf) bs = putAll buf last bs := by
  induction bs generalizing buf last with
  | nil => funext s; simp [storeFrom, putAll]
  | cons b bs ih =>
    rw [List.length_cons] at h
    funext s
    cases bs with
    | nil =>
      by_cases hs : s = slot sgxMaxBuf last
      · simp [storeFrom, putAll, put, hs]
      · have hne : (s : ℕ) ≠ last % sgxMaxBuf := fun he => hs (Fin.ext he)
        rw [putAll, putAll, put, Function.update_of_ne hs, storeFrom]
        split_ifs with hle
        · rw [List.getElem?_eq_none (by simp; omega), Option.getD_none]
        · rfl
    | cons b' bs =>
      rw [List.length_cons] at h
      have hmod : (last + 1) % sgxMaxBuf = last % sgxMaxBuf + 1 := by
        simp only [sgxMaxBuf] at h ⊢
        omega
      have hih := congrFun (ih (put buf last b) (last + 1) (by rw [hmod, List.length_cons]; omega)) s
      rw [putAll, ← hih, hmod]
      by_cases hs : s = slot sgxMaxBuf last
      · simp [storeFrom, put, hs]
      · have hne : (s : ℕ) ≠ last % sgxMaxBuf := fun he => hs (Fin.ext he)
        simp only [storeFrom, put, Function.update_of_ne hs]
        by_cases hle : last % sgxMaxBuf + 1 ≤ s
        · rw [if_pos hle, if_pos (by omega),
            show (s : ℕ) - last % sgxMaxBuf = (s - (last % sgxMaxBuf + 1)) + 1 by omega,
            List.getElem?_cons_succ]
        · rw [if_neg hle, if_neg (by omega)]

end Sginx.Http
