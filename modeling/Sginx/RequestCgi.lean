import Sginx.Library.CString
import Sginx.Library.Decimal
import Sginx.MiniServer

/-!
`sgx_request_cgi` of `test/sgx_mini.c` up to `fork`.
-/

namespace Sginx.Mini

open Sginx.Http (Byte chr)
open Sginx.Library.CString (strcasecmp)
open Sginx.Library.Decimal (atoi)

def post : List Byte := "POST".toList.map chr

def contentLength : List Byte := "Content-Length:".toList.map chr

/-- A round of the header loop. A string that `atoi` reads ends inside the buffer. -/
def postHeader (buf : CharBuf) (contlen : ℤ) : CharBuf × ℤ :=
  let buf := Function.update buf 15 0
  if strcasecmp buf contentLength = 0 then (buf, atoi (cells buf 16 1008)) else (buf, contlen)

def postHeaders (fd : Stream) (buf : CharBuf) : Option (Stream × CharBuf × ℤ) :=
  drain postHeader fd buf (-1)

/-- The ends of `sgx_pocgi`, which the child writes to, and of `sgx_picgi`, which it reads from. -/
inductive PipeEnd where
  | pocgi (i : Fin 2)
  | picgi (i : Fin 2)
deriving DecidableEq, Repr

inductive CgiEvent where
  | rsp400
  | rsp500
  | close (pipe : PipeEnd)
  | toClient (bytes : List Byte)
  | toChild (c : Byte)
  | waitpid
deriving DecidableEq, Repr

structure CgiSystem where
  pocgi : Bool
  picgi : Bool
  fork : Bool

/-- Seventeen bytes are sent, the `NUL` of the literal with them. -/
def okLine : List Byte := "HTTP1.0 200 OK\r\n".toList.map chr ++ [0]

def rounds (isPost : Bool) (contlen : ℤ) : ℕ := if isPost then contlen.toNat else 0

/-- How far `sgx_request_cgi` comes before the steps of a child can be among its own. -/
inductive CgiStart where
  | returned (events : List CgiEvent)
  -- behind `fork`, with so many rounds of the loop over the body to go
  | forked (total : ℕ)

def forkCgi (system : CgiSystem) (isPost : Bool) (contlen : ℤ) : CgiStart :=
  if ¬ system.pocgi then .returned [.rsp500]
  else if ¬ system.picgi then .returned [.close (.pocgi 0), .close (.pocgi 1), .rsp500]
  else if ¬ system.fork then
    .returned
      [.close (.pocgi 0), .close (.pocgi 1), .close (.picgi 0), .close (.picgi 1), .rsp500]
  else .forked (rounds isPost contlen)

def CgiSystem.Starts (system : CgiSystem) : Prop := system.pocgi ∧ system.picgi ∧ system.fork

instance (system : CgiSystem) : Decidable system.Starts := inferInstanceAs (Decidable (_ ∧ _ ∧ _))

theorem forkCgi_starts {system : CgiSystem} (h : system.Starts) (isPost : Bool) (contlen : ℤ) :
    forkCgi system isPost contlen = .forked (rounds isPost contlen) := by
  obtain ⟨hpocgi, hpicgi, hfork⟩ := h
  simp [forkCgi, hpocgi, hpicgi, hfork]

def sgxRequestCgi (system : CgiSystem) (type : CharBuf) (fd : Stream) (buf : CharBuf) :
    Option (CgiStart × Stream) :=
  if strcasecmp type post = 0 then
    (postHeaders fd buf).map fun (fd, _, contlen) =>
      if contlen = -1 then (.returned [.rsp400], fd) else (forkCgi system true contlen, fd)
  else (skipHeaders fd buf).map fun (fd, _, _) => (forkCgi system false (-1), fd)

def readEnd : Fin 2 := 0

def writeEnd : Fin 2 := 1

end Sginx.Mini
