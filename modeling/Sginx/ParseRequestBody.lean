import Sginx.ParserLoop

/-!
`sgx_http_parse_request_body` (`http/http_parse.c`), with `MAX_BUF` read as `SGX_MAX_BUF`;
`malloc` succeeds.
-/

namespace Sginx.Http

open Sginx.Library.RingBuffer

inductive BodyState where
  | swStart
  | swKey
  | swSpacesBeforeColon
  | swSpacesAfterColon
  | swValue
  | swCr
  | swCrlf
  | swCrlfcr
deriving DecidableEq, Repr

def BodyState.code : BodyState → ℕ
  | .swStart => 0
  | .swKey => 1
  | .swSpacesBeforeColon => 2
  | .swSpacesAfterColon => 3
  | .swValue => 4
  | .swCr => 5
  | .swCrlf => 6
  | .swCrlfcr => 7

def BodyState.ofCode : ℕ → Option BodyState
  | 0 => some .swStart
  | 1 => some .swKey
  | 2 => some .swSpacesBeforeColon
  | 3 => some .swSpacesAfterColon
  | 4 => some .swValue
  | 5 => some .swCr
  | 6 => some .swCrlf
  | 7 => some .swCrlfcr
  | _ => none

theorem BodyState.ofCode_code (s : BodyState) : BodyState.ofCode s.code = some s := by
  cases s <;> rfl

def listAdd (head : SgxHttpHeader) (list : List SgxHttpHeader) : List SgxHttpHeader := head :: list

def bodyStep (request : SgxHttpRequest) (state : BodyState) (pos : ℕ) : Step BodyState :=
  let p := ptrAt pos
  let c := request.buf (slot sgxMaxBuf pos)
  match state with
  | .swStart =>
    if c = cr ∨ c = lf then .next request .swStart
    else .next { request with curHeaderKeyStart := p } .swKey
  | .swKey =>
    if c = chr ' ' then .next { request with curHeaderKeyEnd := p } .swSpacesBeforeColon
    else if c = chr ':' then .next { request with curHeaderKeyEnd := p } .swSpacesAfterColon
    else .next request .swKey
  | .swSpacesBeforeColon =>
    if c = chr ' ' then .next request .swSpacesBeforeColon
    else if c = chr ':' then .next request .swSpacesAfterColon
    else .ret sgxHttpParseInvalidHeader request
  | .swSpacesAfterColon =>
    if c = chr ' ' then .next request .swSpacesAfterColon
    else .next { request with curHeaderValueStart := p } .swValue
  | .swValue =>
    if c = cr then .next { request with curHeaderValueEnd := p } .swCr
    else if c = lf then .next { request with curHeaderValueEnd := p } .swCrlf
    else .next request .swValue
  | .swCr =>
    if c = lf then
      let head : SgxHttpHeader :=
        { keyStart := request.curHeaderKeyStart
          keyEnd := request.curHeaderKeyEnd
          valueStart := request.curHeaderValueStart
          valueEnd := request.curHeaderValueEnd }
      .next { request with list := listAdd head request.list } .swCrlf
    else .ret sgxHttpParseInvalidHeader request
  | .swCrlf =>
    if c = cr then .next request .swCrlfcr
    else .next { request with curHeaderKeyStart := p } .swKey
  | .swCrlfcr =>
    if c = lf then .done request
    else .ret sgxHttpParseInvalidHeader request

def bodyDone (request : SgxHttpRequest) (pos : ℕ) : SgxHttpRequest :=
  { request with pos := pos + 1, state := BodyState.swStart.code }

def bodyParser : Parser BodyState where
  code := BodyState.code
  ofCode := BodyState.ofCode
  ofCode_code := BodyState.ofCode_code
  step := bodyStep
  done := bodyDone

def sgxHttpParseRequestBody (request : SgxHttpRequest) : ℤ × SgxHttpRequest :=
  bodyParser.parse request

end Sginx.Http
