import Sginx.Request

/-!
What the two parsers of `http/http_parse.c` share: `sgx_code.h`, pointers to bytes of the buffer and
the loop over the unread bytes.
-/

namespace Sginx.Http

open Sginx.Library.RingBuffer

/-- `sgx_code.h`, which redefines the `SGX_AGAIN` of `http_request.h`. -/
def sgxAgain : ℤ := -2

def sgxHttpParseInvalidMethod : ℤ := 10
def sgxHttpParseInvalidRequest : ℤ := 11
def sgxHttpParseInvalidHeader : ℤ := 12
def sgxHttpUnknown : ℤ := 0x0001
def sgxHttpGet : ℤ := 0x0002
def sgxHttpHead : ℤ := 0x0004
def sgxHttpPost : ℤ := 0x0008

def chr (c : Char) : Byte := UInt8.ofNat c.toNat

def cr : Byte := 13
def lf : Byte := 10

theorem cr_ne_lf : cr ≠ lf := by decide

theorem cr_ne_space : cr ≠ chr ' ' := by decide

theorem cr_ne_colon : cr ≠ chr ':' := by decide

theorem lf_ne_space : lf ≠ chr ' ' := by decide

theorem lf_ne_colon : lf ≠ chr ':' := by decide

def ptrAt (pos : ℕ) : Ptr := some (slot sgxMaxBuf pos : ℕ)

theorem slot_eq_of_ptrAt {i j : ℕ} (h : ptrAt i = ptrAt j) : slot sgxMaxBuf i = slot sgxMaxBuf j := by
  apply Fin.ext
  exact_mod_cast Option.some.inj h

/-- How one round of the loop of a parser ends: at `break`, at `return` or at `goto done`. -/
inductive Step (σ : Type) where
  | next (request : SgxHttpRequest) (state : σ)
  | ret (code : ℤ) (request : SgxHttpRequest)
  | done (request : SgxHttpRequest)

/-- `step` is the body of the loop and `done` the code after the label; a state is kept in the
request as a number. -/
structure Parser (σ : Type) where
  code : σ → ℕ
  ofCode : ℕ → Option σ
  ofCode_code : ∀ s, ofCode (code s) = some s
  step : SgxHttpRequest → σ → ℕ → Step σ
  done : SgxHttpRequest → ℕ → SgxHttpRequest

variable {σ : Type} (P : Parser σ)

def Parser.loop : ℕ → SgxHttpRequest → σ → ℕ → ℤ × SgxHttpRequest
  | 0, request, state, pos => (sgxAgain, { request with pos := pos, state := P.code state })
  | n + 1, request, state, pos =>
    match P.step request state pos with
    | .next request state => Parser.loop n request state (pos + 1)
    | .ret code request => (code, request)
    | .done request => (sgxOk, P.done request pos)

/-- A state that no `case` names makes the loop skip all bytes. -/
def Parser.parse (request : SgxHttpRequest) : ℤ × SgxHttpRequest :=
  match P.ofCode request.state with
  | some state => P.loop (request.last - request.pos) request state request.pos
  | none => (sgxAgain, { request with pos := max request.pos request.last })

end Sginx.Http
