import Sginx.ParserLoop

/-!
`sgx_http_parse_request_line` (`http/http_parse.c`), with the states read as pairwise distinct,
`request -> start` as `request_start`, `CF` as `LF`, and at `done` `i` as `pos` and `p` as the
pointer to the current byte.
-/

namespace Sginx.Http

open Sginx.Library.RingBuffer

inductive LineState where
  | swStart
  | swMethod
  | swSpacesBeforeUri
  | swAfterSlashInUri
  | swHttp
  | swHttpH
  | swHttpHT
  | swHttpHTT
  | swHttpHTTP
  | swFirstMajorDigit
  | swMajorDigit
  | swFirstMinorDigit
  | swMinorDigit
  | swSpacesAfterDigit
  | swAlmostDone
deriving DecidableEq, Repr

def LineState.code : LineState → ℕ
  | .swStart => 0
  | .swMethod => 1
  | .swSpacesBeforeUri => 2
  | .swAfterSlashInUri => 3
  | .swHttp => 4
  | .swHttpH => 5
  | .swHttpHT => 6
  | .swHttpHTT => 7
  | .swHttpHTTP => 8
  | .swFirstMajorDigit => 9
  | .swMajorDigit => 10
  | .swFirstMinorDigit => 11
  | .swMinorDigit => 12
  | .swSpacesAfterDigit => 13
  | .swAlmostDone => 14

def LineState.ofCode : ℕ → Option LineState
  | 0 => some .swStart
  | 1 => some .swMethod
  | 2 => some .swSpacesBeforeUri
  | 3 => some .swAfterSlashInUri
  | 4 => some .swHttp
  | 5 => some .swHttpH
  | 6 => some .swHttpHT
  | 7 => some .swHttpHTT
  | 8 => some .swHttpHTTP
  | 9 => some .swFirstMajorDigit
  | 10 => some .swMajorDigit
  | 11 => some .swFirstMinorDigit
  | 12 => some .swMinorDigit
  | 13 => some .swSpacesAfterDigit
  | 14 => some .swAlmostDone
  | _ => none

theorem LineState.ofCode_code (s : LineState) : LineState.ofCode s.code = some s := by
  cases s <;> rfl

/-- The difference of two pointers; with `NULL` it is no number that a `switch` names. -/
def ptrSub : Ptr → Ptr → Option ℤ
  | some p, some q => some (p - q)
  | _, _ => none

def byteAt (request : SgxHttpRequest) (i : ℤ) : Option Byte :=
  if h : 0 ≤ i ∧ i.toNat < sgxMaxBuf then some (request.buf ⟨i.toNat, h.2⟩) else none

/-- `*(uint32_t *) m == ((c3 << 24) | (c2 << 16) | (c1 << 8) | c0)`, little-endian. -/
def sgxStr4Cmp (request : SgxHttpRequest) (m : Ptr) (c0 c1 c2 c3 : Char) : Bool :=
  match m with
  | none => false
  | some i => byteAt request i = some (chr c0) ∧ byteAt request (i + 1) = some (chr c1) ∧
      byteAt request (i + 2) = some (chr c2) ∧ byteAt request (i + 3) = some (chr c3)

def switchMethod (request : SgxHttpRequest) (p : Ptr) : SgxHttpRequest :=
  let methodPos := request.requestStart
  match ptrSub p methodPos with
  | some 3 =>
    if sgxStr4Cmp request methodPos 'G' 'E' 'T' ' ' then { request with method := sgxHttpGet }
    else request
  | some 4 =>
    if sgxStr4Cmp request methodPos 'P' 'O' 'S' 'T' then { request with method := sgxHttpPost }
    else if sgxStr4Cmp request methodPos 'H' 'E' 'A' 'D' then
      { request with method := sgxHttpHead }
    else request
  | _ => { request with method := sgxHttpUnknown }

/-- `(c < 'A' || c >> 'Z') && c != '_'`: a shift by 90 places, not a comparison. -/
def invalidMethodByte (c : Byte) : Bool :=
  (c < chr 'A' ∨ c.toNat >>> (chr 'Z').toNat ≠ 0) ∧ c ≠ chr '_'

def notDigit (c : Byte) : Bool := c < chr '0' ∨ chr '9' < c

def lineStep (request : SgxHttpRequest) (state : LineState) (pos : ℕ) : Step LineState :=
  let p := ptrAt pos
  let c := request.buf (slot sgxMaxBuf pos)
  match state with
  | .swStart =>
    let request := { request with requestStart := p }
    if c = cr ∨ c = lf then .next request .swStart
    else if invalidMethodByte c then .ret sgxHttpParseInvalidMethod request
    else .next request .swMethod
  | .swMethod =>
    if c = chr ' ' then
      .next (switchMethod { request with methodEnd := p } p) .swSpacesBeforeUri
    else if invalidMethodByte c then .ret sgxHttpParseInvalidMethod request
    else .next request .swMethod
  | .swSpacesBeforeUri =>
    if c = chr '/' then .next { request with uriStart := p } .swAfterSlashInUri
    else if c = chr ' ' then .next request .swSpacesBeforeUri
    else .ret sgxHttpParseInvalidRequest request
  | .swAfterSlashInUri =>
    if c = chr ' ' then .next { request with uriEnd := p } .swHttp
    else .next request .swAfterSlashInUri
  | .swHttp =>
    if c = chr ' ' then .next request .swHttp
    else if c = chr 'H' then .next request .swHttpH
    else .ret sgxHttpParseInvalidRequest request
  | .swHttpH =>
    if c = chr 'T' then .next request .swHttpHT
    else .ret sgxHttpParseInvalidRequest request
  | .swHttpHT =>
    if c = chr 'T' then .next request .swHttpHTT
    else .ret sgxHttpParseInvalidRequest request
  | .swHttpHTT =>
    if c = chr 'P' then .next request .swHttpHTTP
    else .ret sgxHttpParseInvalidRequest request
  | .swHttpHTTP =>
    if c = chr '/' then .next request .swFirstMajorDigit
    else .ret sgxHttpParseInvalidRequest request
  | .swFirstMajorDigit =>
    if c < chr '1' ∨ chr '9' < c then .ret sgxHttpParseInvalidRequest request
    else .next { request with httpMajor := cInt ((c.toNat : ℤ) - (chr '0').toNat) } .swMajorDigit
  | .swMajorDigit =>
    if c = chr '.' then .next request .swFirstMinorDigit
    else if notDigit c then .ret sgxHttpParseInvalidRequest request
    else
      -- `'c'` is the character
      .next { request with httpMajor := cInt (request.httpMajor * 10 + (chr 'c').toNat - 0) }
        .swMajorDigit
  | .swFirstMinorDigit =>
    if notDigit c then .ret sgxHttpParseInvalidRequest request
    else .next { request with httpMinor := cInt ((c.toNat : ℤ) - (chr '0').toNat) } .swMinorDigit
  | .swMinorDigit =>
    if c = cr then .next request .swAlmostDone
    else if c = lf then .done request
    else if c = chr ' ' then .next request .swSpacesAfterDigit
    else if notDigit c then .ret sgxHttpParseInvalidRequest request
    else
      .next { request with httpMinor := cInt (request.httpMinor * 10 + c.toNat - (chr '0').toNat) }
        .swMinorDigit
  | .swSpacesAfterDigit =>
    if c = chr ' ' then .next request .swSpacesAfterDigit
    else if c = cr then .next request .swAlmostDone
    else if c = lf then .done request
    else .ret sgxHttpParseInvalidRequest request
  | .swAlmostDone =>
    let request := { request with requestEnd := p.map (· - 1) }
    if c = lf then .done request
    else .ret sgxHttpParseInvalidRequest request

def lineDone (request : SgxHttpRequest) (pos : ℕ) : SgxHttpRequest :=
  { request with
    pos := pos + 1
    requestEnd := if request.requestEnd = none then ptrAt pos else request.requestEnd
    state := LineState.swStart.code }

def lineParser : Parser LineState where
  code := LineState.code
  ofCode := LineState.ofCode
  ofCode_code := LineState.ofCode_code
  step := lineStep
  done := lineDone

def sgxHttpParseRequestLine (request : SgxHttpRequest) : ℤ × SgxHttpRequest :=
  lineParser.parse request

end Sginx.Http
