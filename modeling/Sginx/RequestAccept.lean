import Sginx.FdLine
import Sginx.RequestCgi

/-!
`sgx_request_accept` of `test/sgx_mini.c`. The arrays hold anything before they are written to, and
so does the memory behind them.
-/

namespace Sginx.Mini

open Sginx.Http (Byte chr)
open Sginx.Library.CString

def shIsspace (c : Byte) : Bool := c = 32 ∨ 9 ≤ c ∧ c ≤ 13

/-- A byte of `sgx_buf` that is read, or one of `sgx_type` or `sgx_path` that is written. -/
inductive Access where
  | buf (index : ℕ)
  | type (index : ℕ)
  | path (index : ℕ)
deriving DecidableEq, Repr

/-- `room` is what `sizeof(sgx_type) - 1` leaves for `sgx_lt`. The byte is tested before it. -/
def typeLoop : ℕ → CharBuf → CharBuf → ℕ → ℕ → List Access × CharBuf × ℕ × ℕ
  | 0, _, type, lt, rt => ([.buf rt], type, lt, rt)
  | room + 1, buf, type, lt, rt =>
    if shIsspace (buf rt) then ([.buf rt], type, lt, rt)
    else
      let (log, rest) := typeLoop room buf (Function.update type lt (buf rt)) (lt + 1) (rt + 1)
      (.buf rt :: .type lt :: log, rest)

/-- Nothing is returned when the blanks do not end within the `room` bytes that `sgx_buf` has
left. -/
def skipBlanks : ℕ → CharBuf → ℕ → List Access × Option ℕ
  | 0, _, _ => ([], none)
  | room + 1, buf, rt =>
    if buf rt ≠ 0 ∧ shIsspace (buf rt) then
      let (log, rest) := skipBlanks room buf (rt + 1)
      (.buf rt :: log, rest)
    else ([.buf rt], some rt)

/-- `room` is what `sizeof(sgx_path) - 1` leaves for `sgx_lt`. It is tested before the byte. -/
def pathLoop : ℕ → CharBuf → CharBuf → ℕ → ℕ → List Access × CharBuf × ℕ × ℕ
  | 0, _, path, lt, rt => ([], path, lt, rt)
  | room + 1, buf, path, lt, rt =>
    if shIsspace (buf rt) then ([.buf rt], path, lt, rt)
    else
      let (log, rest) := pathLoop room buf (Function.update path lt (buf rt)) (lt + 1) (rt + 1)
      (.buf rt :: .path lt :: log, rest)

def get : List Byte := "GET".toList.map chr

inductive Extracted where
  | refused
  | outside
  | taken (type path : CharBuf) (iscgi : ℤ)

def extractRequest (buf type path : CharBuf) : List Access × Extracted :=
  let (log₁, type, lt, rt) := typeLoop 31 buf type 0 0
  let type := Function.update type lt 0
  let iscgi := strcasecmp type post
  if iscgi ≠ 0 ∧ strcasecmp type get ≠ 0 then (log₁ ++ [.type lt], .refused)
  else
    match skipBlanks (1024 - rt) buf rt with
    | (log₂, none) => (log₁ ++ .type lt :: log₂, .outside)
    | (log₂, some rt) =>
      let path := Function.update path 0 (chr '.')
      let (log₃, path, lt', _) := pathLoop 510 buf path 1 rt
      (log₁ ++ .type lt :: (log₂ ++ .path 0 :: (log₃ ++ [.path lt'])),
        .taken type (Function.update path lt' 0) iscgi)

def queryLoop : ℕ → CharBuf → ℕ → ℕ
  | 0, _, query => query
  | room + 1, path, query =>
    if path query ≠ 0 ∧ path query ≠ chr '?' then queryLoop room path (query + 1) else query

/-- The path, `sgx_iscgi`, and the string at `sgx_query` where it is assigned. -/
def cutQuery (path : CharBuf) (iscgi : ℤ) : CharBuf × ℤ × Option (List Byte) :=
  if iscgi ≠ 0 then
    let query := queryLoop 512 path 0
    if path query = chr '?' then
      let path := Function.update path query 0
      (path, 0, some (cString path (query + 1) (511 - query)))
    else (path, iscgi, some (cString path query (512 - query)))
  else (path, iscgi, none)

inductive AcceptEvent where
  | rsp501
  | rsp404
  | stat (path : List Byte)
  | sendFile (path : List Byte)
  | requestCgi (path type : List Byte) (query : Option (List Byte))
  | close
deriving DecidableEq, Repr

def executable (mode : ℕ) : Prop := mode &&& 64 ≠ 0 ∨ mode &&& 8 ≠ 0 ∨ mode &&& 1 ≠ 0

instance (mode : ℕ) : Decidable (executable mode) := inferInstanceAs (Decidable (_ ∨ _ ∨ _))

/-- `stat` answers the `st_mode` of a file, if there is one. -/
def sgxRequestAccept (stat : List Byte → Option ℕ) (fd : Stream) (buf type path : CharBuf) :
    Option (List AcceptEvent) :=
  let (n, buf, fd) := sgxGetFdLine fd buf intBuf
  if n = 0 then some [.rsp501, .close]
  else
    match (extractRequest buf type path).2 with
    | .refused => some [.rsp501, .close]
    | .outside => none
    | .taken type path iscgi =>
      let (path, iscgi, query) := cutQuery path iscgi
      let name := cString path 0 512
      match stat name with
      | none => (skipHeaders fd buf).map fun _ => [.stat name, .rsp404, .close]
      | some mode =>
        let iscgi := if executable mode then 0 else iscgi
        if iscgi ≠ 0 then some [.stat name, .sendFile name, .close]
        else some [.stat name, .requestCgi name (cString type 0 32) query, .close]

end Sginx.Mini
