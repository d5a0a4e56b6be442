import Sginx.ParseRequestBody
import Sginx.ScannedParser

namespace Sginx.Http

open Sginx.Library.RingBuffer Sginx.Library.Scanning

inductive BodyCursor where
  | keyStart
  | keyEnd
  | valueStart
  | valueEnd
deriving DecidableEq, Repr

def bodyNext : BodyState → Byte → BodyState ⊕ ScanExit
  | .swStart, c => if c = cr ∨ c = lf then .inl .swStart else .inl .swKey
  | .swKey, c =>
    if c = chr ' ' then .inl .swSpacesBeforeColon
    else if c = chr ':' then .inl .swSpacesAfterColon else .inl .swKey
  | .swSpacesBeforeColon, c =>
    if c = chr ' ' then .inl .swSpacesBeforeColon
    else if c = chr ':' then .inl .swSpacesAfterColon
    else .inr .invalidHeader
  | .swSpacesAfterColon, c => if c = chr ' ' then .inl .swSpacesAfterColon else .inl .swValue
  | .swValue, c => if c = cr then .inl .swCr else if c = lf then .inl .swCrlf else .inl .swValue
  | .swCr, c => if c = lf then .inl .swCrlf else .inr .invalidHeader
  | .swCrlf, c => if c = cr then .inl .swCrlfcr else .inl .swKey
  | .swCrlfcr, c => if c = lf then .inr .done else .inr .invalidHeader

def bodyMarks : BodyState → Byte → BodyCursor → Bool
  | .swStart, c, .keyStart => c ≠ cr ∧ c ≠ lf
  | .swCrlf, c, .keyStart => c ≠ cr
  | .swKey, c, .keyEnd => c = chr ' ' ∨ c = chr ':'
  | .swSpacesAfterColon, c, .valueStart => c ≠ chr ' '
  | .swValue, c, .valueEnd => c = cr ∨ c = lf
  | _, _, _ => false

def bodyEmits : BodyState → Byte → Bool
  | .swCr, c => c = lf
  | _, _ => false

def bodyScanner : Scanner Byte BodyState ScanExit BodyCursor Unit where
  next := bodyNext
  marks := bodyMarks
  emits := bodyEmits
  fold _ _ r := r

def renderEntry (base : ℕ) (request : SgxHttpRequest) (cursor : BodyCursor → Option ℕ) :
    SgxHttpHeader where
  keyStart := ptrFrom base request.curHeaderKeyStart (cursor .keyStart)
  keyEnd := ptrFrom base request.curHeaderKeyEnd (cursor .keyEnd)
  valueStart := ptrFrom base request.curHeaderValueStart (cursor .valueStart)
  valueEnd := ptrFrom base request.curHeaderValueEnd (cursor .valueEnd)

def renderBody (base : ℕ) (request : SgxHttpRequest) (r : Record BodyCursor Unit) :
    SgxHttpRequest :=
  let head := renderEntry base request r.cursor
  { request with
    curHeaderKeyStart := head.keyStart
    curHeaderKeyEnd := head.keyEnd
    curHeaderValueStart := head.valueStart
    curHeaderValueEnd := head.valueEnd
    list := r.entries.map (renderEntry base request) ++ request.list }

theorem bodyStep_render (base k : ℕ) (request : SgxHttpRequest) (s : BodyState)
    (r : Record BodyCursor Unit) : bodyStep (renderBody base request r) s (base + k) =
      let c := request.buf (slot sgxMaxBuf (base + k))
      stepTo (renderBody base request (bodyScanner.note s c k r)) (bodyNext s c) := by
  have hbuf : (renderBody base request r).buf = request.buf := rfl
  simp only [bodyStep, hbuf]
  generalize request.buf (slot sgxMaxBuf (base + k)) = c
  by_cases hcr : c = cr
  · cases s <;> simp [bodyNext, stepTo, ScanExit.code, renderBody, renderEntry, Scanner.note,
      bodyScanner, bodyMarks, bodyEmits, ptrFrom, hcr, cr_ne_lf, cr_ne_space, cr_ne_colon]
  by_cases hlf : c = lf
  · cases s <;> simp [bodyNext, stepTo, ScanExit.code, renderBody, renderEntry, Scanner.note,
      bodyScanner, bodyMarks, bodyEmits, ptrFrom, listAdd, hlf, cr_ne_lf.symm, lf_ne_space, lf_ne_colon]
  cases s <;> simp only [bodyNext] <;> split_ifs <;>
    simp_all [stepTo, ScanExit.code, renderBody, renderEntry, Scanner.note, bodyScanner, bodyMarks, bodyEmits, ptrFrom]

def bodyScanned : ScannedBy bodyParser bodyScanner where
  register _ := ()
  render := renderBody
  Ready _ _ _ _ _ _ := True
  render_empty _ _ := rfl
  render_moved _ _ _ _ _ _ _ := rfl
  register_moved _ _ _ _ _ := rfl
  ready_append _ _ _ _ _ _ _ _ := trivial
  ready_next _ _ _ _ _ _ _ _ _ := trivial
  step_eq base request s k r _ _ := bodyStep_render base k request s r

end Sginx.Http
