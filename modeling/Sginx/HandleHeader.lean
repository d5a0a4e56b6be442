import Sginx.Library.CString
import Sginx.ParseRequestLine

/-!
`sgx_http_handle_header` (`http/http_request.c`). The addresses of the list nodes are of any type, a
node stands for the allocation that it is in, and the C library's `free`, `strptime` and `mktime`
are parameters.
-/

namespace Sginx.Http

open Sginx.Library.CString

def sgxHttpNotModified : ℤ := 304

structure SgxHttpOut where
  fd : ℤ
  keepAlive : ℤ
  mtime : ℤ
  modified : ℤ
  status : ℤ
deriving DecidableEq, Repr

def sgxInitOut (out : SgxHttpOut) (fd : ℤ) : ℤ × SgxHttpOut :=
  (sgxOk, { out with
    fd := fd
    keepAlive := 0
    modified := 1
    status := 0 })

structure Tm where
  sec : ℤ
  min : ℤ
  hour : ℤ
  mday : ℤ
  mon : ℤ
  year : ℤ
  wday : ℤ
  yday : ℤ
  isdst : ℤ
deriving DecidableEq, Repr

structure TimeLib where
  strptime : (ℕ → Byte) → String → Tm → Option Tm
  mktime : Tm → ℤ

/-- What the handlers read besides the headers: `behind` is the memory outside of `buf` and `stale`
what the variable `tm` holds when the handler of an entry starts. -/
structure HandleEnv where
  lib : TimeLib
  request : SgxHttpRequest
  behind : ℤ → Byte
  stale : ℕ → Tm

def plainEnv (request : SgxHttpRequest) : HandleEnv where
  lib := ⟨fun _ _ _ => none, fun _ => 0⟩
  request := request
  behind := fun _ => 0
  stale := fun _ => ⟨0, 0, 0, 0, 0, 0, 0, 0, 0⟩

/-- The conversion of an `int` or of a difference of pointers to `size_t`. -/
def sizeOfInt (x : ℤ) : ℕ := (x % sizeMod).toNat

/-- No pointer of a header in the list is `NULL`. -/
def ptrDiff (p q : Ptr) : ℤ := (ptrSub p q).getD 0

def HandleEnv.chars (env : HandleEnv) (p : Ptr) (i : ℕ) : Byte :=
  (byteAt env.request (p.getD 0 + i)).getD (env.behind (p.getD 0 + i))

structure HandlerCall where
  lib : TimeLib
  tm : Tm
  data : ℕ → Byte
  len : ℤ

abbrev SgxHttpHeaderHandler := HandlerCall → SgxHttpOut → SgxHttpOut

def sgxHttpProcessIgnore : SgxHttpHeaderHandler := fun _ out => out

def keepAliveText : List Byte := ['k', 'e', 'e', 'p', '-', 'a', 'l', 'i', 'v', 'e'].map chr

def sgxHttpProcessConnection : SgxHttpHeaderHandler := fun call out =>
  if strncasecmp (literal keepAliveText) call.data (sizeOfInt call.len) = 0 then
    { out with keepAlive := 1 }
  else out

/-- `fabs(difftime(mtime, client_time)) < SGX_TIME_EPS`, with `SGX_TIME_EPS` a millionth. -/
def sameTime (mtime clientTime : ℤ) : Prop := |mtime - clientTime| * 1000000 < 1

instance (mtime clientTime : ℤ) : Decidable (sameTime mtime clientTime) :=
  inferInstanceAs (Decidable (_ < _))

def sgxHttpProcessIfModifiedSince : SgxHttpHeaderHandler := fun call out =>
  match call.lib.strptime call.data "%a, %d %b %Y %H:%M:%S GMT" call.tm with
  | none => out
  | some tm =>
    -- the last statement is `out -> status - SGX_HTTP_NOT_MODIFIED;`, which assigns nothing
    if sameTime out.mtime (call.lib.mktime tm) then { out with modified := 0 } else out

structure SgxHttpHeaderHandle where
  name : List Byte
  handler : SgxHttpHeaderHandler

def hostName : List Byte := ['H', 'o', 's', 't'].map chr

def connectionName : List Byte := ['C', 'o', 'n', 'n', 'e', 'c', 't', 'i', 'o', 'n'].map chr

def ifModifiedSinceName : List Byte :=
  ['I', 'f', '-', 'M', 'o', 'd', 'i', 'f', 'i', 'e', 'd', '-', 'S', 'i', 'n', 'c', 'e'].map chr

def sgxHttpHeadersIn : List SgxHttpHeaderHandle :=
  [⟨hostName, sgxHttpProcessIgnore⟩, ⟨connectionName, sgxHttpProcessConnection⟩,
    ⟨ifModifiedSinceName, sgxHttpProcessIfModifiedSince⟩, ⟨[], sgxHttpProcessIgnore⟩]

def nameMatches (env : HandleEnv) (head : SgxHttpHeader) (name : List Byte) : Bool :=
  decide (strncmp (env.chars head.keyStart) (literal name)
    (sizeOfInt (ptrDiff head.keyEnd head.keyStart)) = 0)

def handlerLoop (env : HandleEnv) (tm : Tm) (head : SgxHttpHeader) (out : SgxHttpOut) :
    List SgxHttpHeaderHandle → SgxHttpOut × List (List Byte)
  | [] => (out, [])
  | i :: rest =>
    if i.name.length > 0 then
      if nameMatches env head i.name then
        let len := cInt (ptrDiff head.valueEnd head.valueStart)
        (i.handler ⟨env.lib, tm, env.chars head.valueStart, len⟩ out, [i.name])
      else handlerLoop env tm head out rest
    else (out, [])

def handleEntry (env : HandleEnv) (tm : Tm) (head : SgxHttpHeader) (out : SgxHttpOut) :
    SgxHttpOut × List (List Byte) :=
  handlerLoop env tm head out sgxHttpHeadersIn

/-- A `sgx_list_head` and the header around it; the node in the request is in no header. -/
structure ListNode (α : Type) where
  prev : α
  next : α
  header : SgxHttpHeader
deriving DecidableEq

abbrev NodeMemory (α : Type) := α → Option (ListNode α)

inductive Fault where
  | freed
  | fuel
deriving DecidableEq, Repr

variable {α : Type}

def load (mem : NodeMemory α) (x : α) : Except Fault (ListNode α) :=
  match mem x with
  | none => .error .freed
  | some node => .ok node

structure HandleState (α : Type) where
  mem : NodeMemory α
  out : SgxHttpOut
  runs : List (List (List Byte))
  visited : List α
  freed : List α

variable [DecidableEq α]

def storeNext (mem : NodeMemory α) (x link : α) : Except Fault (NodeMemory α) := do
  let node ← load mem x
  .ok (Function.update mem x (some { node with next := link }))

def storePrev (mem : NodeMemory α) (x link : α) : Except Fault (NodeMemory α) := do
  let node ← load mem x
  .ok (Function.update mem x (some { node with prev := link }))

def listDelNode (mem : NodeMemory α) (entry : α) : Except Fault (NodeMemory α) := do
  let node ← load mem entry
  let mem ← storeNext mem node.prev node.next
  storePrev mem node.next node.prev

def handleRound (env : HandleEnv) (free : NodeMemory α → α → NodeMemory α) (pos : α)
    (s : HandleState α) : Except Fault (HandleState α) := do
  let node ← load s.mem pos
  let handled := handleEntry env (env.stale s.visited.length) node.header s.out
  let mem ← listDelNode s.mem pos
  .ok ⟨free mem pos, handled.1, s.runs ++ [handled.2], s.visited ++ [pos], s.freed ++ [pos]⟩

def handleLoop (env : HandleEnv) (free : NodeMemory α → α → NodeMemory α) (head : α) :
    ℕ → α → HandleState α → Except Fault (HandleState α)
  | 0, _, _ => .error .fuel
  | fuel + 1, pos, s =>
    if pos = head then .ok s
    else do
      let s ← handleRound env free pos s
      -- `pos = pos->next` comes after the body, which has freed the entry at `pos`
      let node ← load s.mem pos
      handleLoop env free head fuel node.next s

def sgxHttpHandleHeader (env : HandleEnv) (free : NodeMemory α → α → NodeMemory α) (fuel : ℕ)
    (head : α) (mem : NodeMemory α) (out : SgxHttpOut) : Except Fault (HandleState α) := do
  let node ← load mem head
  handleLoop env free head fuel node.next ⟨mem, out, [], [], []⟩

def handleEntries (env : HandleEnv) : ℕ → List SgxHttpHeader → SgxHttpOut →
    SgxHttpOut × List (List (List Byte))
  | _, [], out => (out, [])
  | k, head :: rest, out =>
    let first := handleEntry env (env.stale k) head out
    let others := handleEntries env (k + 1) rest first.1
    (others.1, first.2 :: others.2)

end Sginx.Http
