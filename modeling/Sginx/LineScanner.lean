import Sginx.ParseRequestLine
import Sginx.ScannedParser

namespace Sginx.Http

open Sginx.Library.RingBuffer Sginx.Library.Scanning

inductive LineCursor where
  | requestStart
  | methodEnd
  | uriStart
  | uriEnd
  | requestEnd
deriving DecidableEq, Repr

structure LineRegister where
  httpMajor : ℤ
  httpMinor : ℤ
  token : List Byte

def lineNext : LineState → Byte → LineState ⊕ ScanExit
  | .swStart, c =>
    if c = cr ∨ c = lf then .inl .swStart
    else if invalidMethodByte c then .inr .invalidMethod else .inl .swMethod
  | .swMethod, c =>
    if c = chr ' ' then .inl .swSpacesBeforeUri
    else if invalidMethodByte c then .inr .invalidMethod else .inl .swMethod
  | .swSpacesBeforeUri, c =>
    if c = chr '/' then .inl .swAfterSlashInUri
    else if c = chr ' ' then .inl .swSpacesBeforeUri else .inr .invalidRequest
  | .swAfterSlashInUri, c => if c = chr ' ' then .inl .swHttp else .inl .swAfterSlashInUri
  | .swHttp, c =>
    if c = chr ' ' then .inl .swHttp
    else if c = chr 'H' then .inl .swHttpH else .inr .invalidRequest
  | .swHttpH, c => if c = chr 'T' then .inl .swHttpHT else .inr .invalidRequest
  | .swHttpHT, c => if c = chr 'T' then .inl .swHttpHTT else .inr .invalidRequest
  | .swHttpHTT, c => if c = chr 'P' then .inl .swHttpHTTP else .inr .invalidRequest
  | .swHttpHTTP, c => if c = chr '/' then .inl .swFirstMajorDigit else .inr .invalidRequest
  | .swFirstMajorDigit, c =>
    if c < chr '1' ∨ chr '9' < c then .inr .invalidRequest else .inl .swMajorDigit
  | .swMajorDigit, c =>
    if c = chr '.' then .inl .swFirstMinorDigit
    else if notDigit c then .inr .invalidRequest else .inl .swMajorDigit
  | .swFirstMinorDigit, c => if notDigit c then .inr .invalidRequest else .inl .swMinorDigit
  | .swMinorDigit, c =>
    if c = cr then .inl .swAlmostDone
    else if c = lf then .inr .done
    else if c = chr ' ' then .inl .swSpacesAfterDigit
    else if notDigit c then .inr .invalidRequest else .inl .swMinorDigit
  | .swSpacesAfterDigit, c =>
    if c = chr ' ' then .inl .swSpacesAfterDigit
    else if c = cr then .inl .swAlmostDone
    else if c = lf then .inr .done else .inr .invalidRequest
  | .swAlmostDone, c => if c = lf then .inr .done else .inr .invalidRequest

def lineMarks : LineState → Byte → LineCursor → Bool
  | .swStart, _, .requestStart => true
  | .swMethod, c, .methodEnd => c = chr ' '
  | .swSpacesBeforeUri, c, .uriStart => c = chr '/'
  | .swAfterSlashInUri, c, .uriEnd => c = chr ' '
  | .swAlmostDone, _, .requestEnd => true
  | _, _, _ => false

def lineFold : LineState → Byte → LineRegister → LineRegister
  | .swStart, c, r => { r with token := [c] }
  | .swMethod, c, r => if c = chr ' ' then r else { r with token := r.token ++ [c] }
  | .swFirstMajorDigit, c, r =>
    if c < chr '1' ∨ chr '9' < c then r
    else { r with httpMajor := cInt ((c.toNat : ℤ) - (chr '0').toNat) }
  | .swMajorDigit, c, r =>
    if c = chr '.' ∨ notDigit c then r
    else { r with httpMajor := cInt (r.httpMajor * 10 + (chr 'c').toNat - 0) }
  | .swFirstMinorDigit, c, r =>
    if notDigit c then r else { r with httpMinor := cInt ((c.toNat : ℤ) - (chr '0').toNat) }
  | .swMinorDigit, c, r =>
    if c = cr ∨ c = lf ∨ c = chr ' ' ∨ notDigit c then r
    else { r with httpMinor := cInt (r.httpMinor * 10 + c.toNat - (chr '0').toNat) }
  | _, _, r => r

def lineScanner : Scanner Byte LineState ScanExit LineCursor LineRegister where
  next := lineNext
  marks := lineMarks
  emits _ _ := false
  fold := lineFold

/-- What the method word says; a word of three or four bytes that is no method keeps `old`. -/
def methodOf (token : List Byte) (old : ℤ) : ℤ :=
  if token = [chr 'G', chr 'E', chr 'T'] then sgxHttpGet
  else if token = [chr 'P', chr 'O', chr 'S', chr 'T'] then sgxHttpPost
  else if token = [chr 'H', chr 'E', chr 'A', chr 'D'] then sgxHttpHead
  else if token.length = 3 ∨ token.length = 4 then old
  else sgxHttpUnknown

def methodAt (i : ℕ) (token : List Byte) (old : ℤ) : ℤ :=
  if Straddles sgxMaxBuf i (i + token.length) then sgxHttpUnknown else methodOf token old

theorem byteAt_slot (request : SgxHttpRequest) {i n d : ℕ}
    (hs : ¬ Straddles sgxMaxBuf i (i + n)) (hn : n < sgxMaxBuf) (hd : d ≤ n) :
    byteAt request (((i % sgxMaxBuf : ℕ) : ℤ) + (d : ℤ)) =
      some (request.buf (slot sgxMaxBuf (i + d))) := by
  have hsub := slot_sub (Nat.le_add_right i n) (Nat.add_lt_add_left hn i)
  have hmod := Nat.mod_lt (i + n) (show 0 < sgxMaxBuf by decide)
  rw [if_neg hs] at hsub
  have hlt : i % sgxMaxBuf + d < sgxMaxBuf := by omega
  have hslot : (i + d) % sgxMaxBuf = i % sgxMaxBuf + d := by
    rw [Nat.add_mod, Nat.mod_eq_of_lt (show d < sgxMaxBuf by omega), Nat.mod_eq_of_lt hlt]
  have hcast : (((i % sgxMaxBuf : ℕ) : ℤ) + (d : ℤ)).toNat = i % sgxMaxBuf + d := by omega
  rw [byteAt, dif_pos ⟨by omega, by omega⟩]
  congr 2
  apply Fin.ext
  simp only [slot_val, hslot, hcast]

theorem sgxStr4Cmp_slot (request : SgxHttpRequest) {i n : ℕ} (c0 c1 c2 c3 : Char)
    (hs : ¬ Straddles sgxMaxBuf i (i + n)) (hn : n < sgxMaxBuf) (h3 : 3 ≤ n) :
    sgxStr4Cmp request (ptrAt i) c0 c1 c2 c3 = true ↔
      request.buf (slot sgxMaxBuf i) = chr c0 ∧ request.buf (slot sgxMaxBuf (i + 1)) = chr c1 ∧
      request.buf (slot sgxMaxBuf (i + 2)) = chr c2 ∧
      request.buf (slot sgxMaxBuf (i + 3)) = chr c3 := by
  have hbyte (d : ℕ) (hd : d ≤ 3) := byteAt_slot request hs hn (hd.trans h3)
  have h0 := hbyte 0 (by omega)
  have h1 := hbyte 1 (by omega)
  have h2 := hbyte 2 (by omega)
  have h3 := hbyte 3 (by omega)
  simp only [Nat.cast_zero, add_zero, Nat.cast_one, Nat.cast_ofNat] at h0 h1 h2 h3
  simp only [sgxStr4Cmp, ptrAt, slot_val, h0, h1, h2, h3, Option.some.injEq, decide_eq_true_eq]

theorem switchMethod_default {request : SgxHttpRequest} {p : Ptr} {d : ℤ}
    (hsub : ptrSub p request.requestStart = some d) (h3 : d ≠ 3) (h4 : d ≠ 4) :
    switchMethod request p = { request with method := sgxHttpUnknown } := by
  simp only [switchMethod, hsub]
  split
  · rename_i h
    exact absurd (Option.some.inj h) h3
  · rename_i h
    exact absurd (Option.some.inj h) h4
  · rfl

theorem switchMethod_sub_three {request : SgxHttpRequest} {p : Ptr}
    (hsub : ptrSub p request.requestStart = some 3) : switchMethod request p =
      { request with method :=
          if sgxStr4Cmp request request.requestStart 'G' 'E' 'T' ' ' then sgxHttpGet
          else request.method } := by
  simp only [switchMethod, hsub]
  split_ifs <;> rfl

theorem switchMethod_sub_four {request : SgxHttpRequest} {p : Ptr}
    (hsub : ptrSub p request.requestStart = some 4) : switchMethod request p =
      { request with method :=
          if sgxStr4Cmp request request.requestStart 'P' 'O' 'S' 'T' then sgxHttpPost
          else if sgxStr4Cmp request request.requestStart 'H' 'E' 'A' 'D' then sgxHttpHead
          else request.method } := by
  simp only [switchMethod, hsub]
  split_ifs <;> rfl

theorem methodOf_three {token : List Byte} (h : token.length = 3) (old : ℤ) :
    methodOf token old = if token = [chr 'G', chr 'E', chr 'T'] then sgxHttpGet else old := by
  have hpost : token ≠ [chr 'P', chr 'O', chr 'S', chr 'T'] := by rintro rfl; cases h
  have hhead : token ≠ [chr 'H', chr 'E', chr 'A', chr 'D'] := by rintro rfl; cases h
  simp only [methodOf, if_neg hpost, if_neg hhead, if_pos (Or.inl h : token.length = 3 ∨ _)]

theorem methodOf_four {token : List Byte} (h : token.length = 4) (old : ℤ) :
    methodOf token old = if token = [chr 'P', chr 'O', chr 'S', chr 'T'] then sgxHttpPost
      else if token = [chr 'H', chr 'E', chr 'A', chr 'D'] then sgxHttpHead else old := by
  have hget : token ≠ [chr 'G', chr 'E', chr 'T'] := by rintro rfl; cases h
  simp only [methodOf, if_neg hget, if_pos (Or.inr h : _ ∨ token.length = 4)]

theorem methodOf_default {token : List Byte} (h3 : token.length ≠ 3) (h4 : token.length ≠ 4)
    (old : ℤ) : methodOf token old = sgxHttpUnknown := by
  have hget : token ≠ [chr 'G', chr 'E', chr 'T'] := by rintro rfl; exact h3 rfl
  have hpost : token ≠ [chr 'P', chr 'O', chr 'S', chr 'T'] := by rintro rfl; exact h4 rfl
  have hhead : token ≠ [chr 'H', chr 'E', chr 'A', chr 'D'] := by rintro rfl; exact h4 rfl
  rw [methodOf, if_neg hget, if_neg hpost, if_neg hhead, if_neg (not_or.mpr ⟨h3, h4⟩)]

theorem switchMethod_three {request : SgxHttpRequest} {i : ℕ} {token : List Byte} {p : Ptr}
    (hstart : request.requestStart = ptrAt i) (hsub : ptrSub p request.requestStart = some 3)
    (h : token.length = 3) (hs : ¬ Straddles sgxMaxBuf i (i + 3))
    (hold : Holds request.buf i token) (hspace : request.buf (slot sgxMaxBuf (i + 3)) = chr ' ') :
    switchMethod request p = { request with method := methodOf token request.method } := by
  obtain ⟨x, y, z, rfl⟩ := List.length_eq_three.mp h
  have hx : x = request.buf (slot sgxMaxBuf i) := Option.some.inj (hold 0 (by simp))
  have hy : y = request.buf (slot sgxMaxBuf (i + 1)) := Option.some.inj (hold 1 (by simp))
  have hz : z = request.buf (slot sgxMaxBuf (i + 2)) := Option.some.inj (hold 2 (by simp))
  have hcmp := sgxStr4Cmp_slot request 'G' 'E' 'T' ' ' hs (by decide) (le_refl 3)
  rw [switchMethod_sub_three hsub, methodOf_three h, hstart]
  simp only [hcmp, hspace, hx, hy, hz, List.cons.injEq, and_true]

theorem switchMethod_four {request : SgxHttpRequest} {i : ℕ} {token : List Byte} {p : Ptr}
    (hstart : request.requestStart = ptrAt i) (hsub : ptrSub p request.requestStart = some 4)
    (h : token.length = 4) (hs : ¬ Straddles sgxMaxBuf i (i + 4))
    (hold : Holds request.buf i token) :
    switchMethod request p = { request with method := methodOf token request.method } := by
  obtain ⟨w, x, y, z, rfl⟩ : ∃ w x y z, token = [w, x, y, z] := by
    match token, h with
    | [w, x, y, z], _ => exact ⟨w, x, y, z, rfl⟩
  have hw : w = request.buf (slot sgxMaxBuf i) := Option.some.inj (hold 0 (by simp))
  have hx : x = request.buf (slot sgxMaxBuf (i + 1)) := Option.some.inj (hold 1 (by simp))
  have hy : y = request.buf (slot sgxMaxBuf (i + 2)) := Option.some.inj (hold 2 (by simp))
  have hz : z = request.buf (slot sgxMaxBuf (i + 3)) := Option.some.inj (hold 3 (by simp))
  have hpost := sgxStr4Cmp_slot request 'P' 'O' 'S' 'T' hs (by decide) (by omega)
  have hhead := sgxStr4Cmp_slot request 'H' 'E' 'A' 'D' hs (by decide) (by omega)
  rw [switchMethod_sub_four hsub, methodOf_four h, hstart]
  simp only [hpost, hhead, hw, hx, hy, hz, List.cons.injEq, and_true]

theorem ptrSub_word {request : SgxHttpRequest} {i n : ℕ} (hstart : request.requestStart = ptrAt i)
    (hn : n < sgxMaxBuf) : ptrSub (ptrAt (i + n)) request.requestStart =
      some (((i + n : ℕ) : ℤ) - i - if Straddles sgxMaxBuf i (i + n) then (sgxMaxBuf : ℤ) else 0) := by
  rw [hstart, ← slot_sub (Nat.le_add_right i n) (Nat.add_lt_add_left hn i)]
  rfl

theorem switchMethod_straddle {request : SgxHttpRequest} {i n : ℕ}
    (hstart : request.requestStart = ptrAt i) (hn : n < sgxMaxBuf)
    (hs : Straddles sgxMaxBuf i (i + n)) :
    switchMethod request (ptrAt (i + n)) = { request with method := sgxHttpUnknown } := by
  have hptr := ptrSub_word hstart hn
  rw [if_pos hs] at hptr
  exact switchMethod_default hptr (by omega) (by omega)

theorem switchMethod_eq {request : SgxHttpRequest} {i : ℕ} {token : List Byte}
    (hstart : request.requestStart = ptrAt i) (hlen : token.length < sgxMaxBuf)
    (hold : Holds request.buf i token)
    (hspace : request.buf (slot sgxMaxBuf (i + token.length)) = chr ' ') :
    switchMethod request (ptrAt (i + token.length)) =
      { request with method := methodAt i token request.method } := by
  unfold methodAt
  by_cases hs : Straddles sgxMaxBuf i (i + token.length)
  · rw [if_pos hs]
    exact switchMethod_straddle hstart hlen hs
  have hptr := ptrSub_word hstart hlen
  rw [if_neg hs] at hptr ⊢
  by_cases h3 : token.length = 3
  · rw [h3] at hs hspace
    exact switchMethod_three hstart (by rw [hptr]; congr 1; omega) h3 hs hold hspace
  by_cases h4 : token.length = 4
  · rw [h4] at hs
    exact switchMethod_four hstart (by rw [hptr]; congr 1; omega) h4 hs hold
  rw [methodOf_default h3 h4]
  exact switchMethod_default hptr (by omega) (by omega)

def renderMethod (base : ℕ) (old : ℤ) (r : Record LineCursor LineRegister) : ℤ :=
  match r.cursor .methodEnd, r.cursor .requestStart with
  | some _, some i => methodAt (base + i) r.register.token old
  | _, _ => old

def renderRequestEnd (base : ℕ) (old : Ptr) : Option ℕ → Ptr
  | none => old
  | some k => (ptrAt (base + k)).map (· - 1)

def renderLine (base : ℕ) (request : SgxHttpRequest) (r : Record LineCursor LineRegister) :
    SgxHttpRequest :=
  { request with
    requestStart := ptrFrom base request.requestStart (r.cursor .requestStart)
    methodEnd := ptrFrom base request.methodEnd (r.cursor .methodEnd)
    method := renderMethod base request.method r
    uriStart := ptrFrom base request.uriStart (r.cursor .uriStart)
    uriEnd := ptrFrom base request.uriEnd (r.cursor .uriEnd)
    httpMajor := r.register.httpMajor
    httpMinor := r.register.httpMinor
    requestEnd := renderRequestEnd base request.requestEnd (r.cursor .requestEnd) }

def LineReady (base : ℕ) (buf : Fin sgxMaxBuf → Byte) (last : ℕ) :
    LineState → ℕ → Record LineCursor LineRegister → Prop
  | .swStart, k, r => r.cursor .methodEnd = none ∧ last ≤ base + k + sgxMaxBuf
  | .swMethod, k, r => r.cursor .methodEnd = none ∧ ∃ i, r.cursor .requestStart = some i ∧
      k = i + r.register.token.length ∧ Holds buf (base + i) r.register.token ∧
      last ≤ base + i + sgxMaxBuf
  | _, _, _ => True

theorem lineReady_append (base : ℕ) (buf : Fin sgxMaxBuf → Byte) (s : LineState) (k : ℕ)
    (r : Record LineCursor LineRegister) (bs : List Byte)
    (h : LineReady base buf (base + k) s k r) (hlen : k + bs.length ≤ sgxMaxBuf) :
    LineReady base (putAll buf (base + k) bs) (base + k + bs.length) s k r := by
  cases s with
  | swStart => exact ⟨h.1, by omega⟩
  | swMethod =>
    obtain ⟨hend, i, hstart, hk, hold, -⟩ := h
    have hput := hold.putAll bs (by omega)
    rw [Nat.add_assoc, ← hk] at hput
    exact ⟨hend, i, hstart, hk, hput.append_left, by omega⟩
  | _ => trivial

theorem lineReady_next (base : ℕ) (buf : Fin sgxMaxBuf → Byte) (last : ℕ) (s : LineState) (k : ℕ)
    (r : Record LineCursor LineRegister) (s' : LineState) (h : LineReady base buf last s k r)
    (hnext : lineNext s (buf (slot sgxMaxBuf (base + k))) = .inl s') :
    LineReady base buf last s' (k + 1)
      (lineScanner.note s (buf (slot sgxMaxBuf (base + k))) k r) := by
  generalize hc : buf (slot sgxMaxBuf (base + k)) = c at hnext ⊢
  cases s with
  | swStart =>
    obtain ⟨hend, hspan⟩ := h
    have hsame : (lineScanner.note .swStart c k r).cursor .methodEnd = none := by
      simpa [Scanner.note, lineScanner, lineMarks] using hend
    simp only [lineNext] at hnext
    split_ifs at hnext with hcr hbad
    · obtain rfl := Sum.inl.inj hnext
      exact ⟨hsame, by omega⟩
    · obtain rfl := Sum.inl.inj hnext
      exact ⟨hsame, k, by simp [Scanner.note, lineScanner, lineMarks], rfl,
        (holds_nil buf (base + k)).concat hc, by omega⟩
  | swMethod =>
    obtain ⟨hend, i, hstart, hk, hold, hspan⟩ := h
    simp only [lineNext] at hnext
    split_ifs at hnext with hspace hbad
    · obtain rfl := Sum.inl.inj hnext
      trivial
    · obtain rfl := Sum.inl.inj hnext
      have htoken : (lineScanner.note .swMethod c k r).register.token = r.register.token ++ [c] := by
        simp [Scanner.note, lineScanner, lineFold, hspace]
      refine ⟨by simpa [Scanner.note, lineScanner, lineMarks, hspace] using hend, i,
        by simpa [Scanner.note, lineScanner, lineMarks] using hstart, ?_, ?_, hspan⟩
      · rw [htoken, List.length_append, List.length_singleton]
        omega
      · rw [htoken]
        apply hold.concat
        rw [Nat.add_assoc, ← hk, hc]
  | _ =>
    simp only [lineNext] at hnext
    split_ifs at hnext <;> obtain rfl := Sum.inl.inj hnext <;> trivial

theorem lineStep_render (base : ℕ) (request : SgxHttpRequest) (s : LineState) (k : ℕ)
    (r : Record LineCursor LineRegister) (h : LineReady base request.buf request.last s k r)
    (hlast : base + k < request.last) : lineStep (renderLine base request r) s (base + k) =
      let c := request.buf (slot sgxMaxBuf (base + k))
      stepTo (renderLine base request (lineScanner.note s c k r)) (lineNext s c) := by
  have hbuf : (renderLine base request r).buf = request.buf := rfl
  simp only [lineStep, hbuf]
  generalize hc : request.buf (slot sgxMaxBuf (base + k)) = c
  cases s with
  | swStart =>
    obtain ⟨hend, -⟩ := h
    simp only [lineNext]
    split_ifs <;> simp [stepTo, ScanExit.code, renderLine, renderMethod, Scanner.note, lineScanner,
      lineMarks, lineFold, ptrFrom, hend]
  | swMethod =>
    obtain ⟨hend, i, hstart, hk, hold, hspan⟩ := h
    simp only [lineNext]
    split_ifs with hspace hbad
    · let request' := { renderLine base request r with methodEnd := ptrAt (base + k) }
      have hstart' : request'.requestStart = ptrAt (base + i) := by
        simp [request', renderLine, ptrFrom, hstart]
      have hpos : base + k = base + i + r.register.token.length := by omega
      have hswitch := switchMethod_eq hstart' (by omega) hold (by rw [← hpos]; exact hc.trans hspace)
      rw [← hpos] at hswitch
      refine (congrArg (Step.next · LineState.swSpacesBeforeUri) hswitch).trans ?_
      simp [request', stepTo, renderLine, renderMethod, Scanner.note, lineScanner, lineMarks,
        lineFold, ptrFrom, hend, hstart, hspace]
    · simp [stepTo, ScanExit.code, renderLine, renderMethod, Scanner.note, lineScanner, lineMarks,
        lineFold, hend, hspace]
    · simp [stepTo, renderLine, renderMethod, Scanner.note, lineScanner, lineMarks, lineFold, hend,
        hspace]
  | swFirstMajorDigit =>
    simp only [lineNext]
    by_cases hdigit : c < chr '1' ∨ chr '9' < c
    · simp [stepTo, ScanExit.code, renderLine, renderMethod, Scanner.note, lineScanner, lineMarks,
        lineFold, hdigit]
    · simp [stepTo, renderLine, renderMethod, Scanner.note, lineScanner, lineMarks, lineFold,
        hdigit]
  | _ =>
    simp only [lineNext]
    split_ifs <;>
    simp_all [stepTo, ScanExit.code, renderLine, renderMethod, renderRequestEnd, Scanner.note,
      lineScanner, lineMarks, lineFold, ptrFrom]

def lineScanned : ScannedBy lineParser lineScanner where
  register request := ⟨request.httpMajor, request.httpMinor, []⟩
  render := renderLine
  Ready := LineReady
  render_empty _ _ := rfl
  render_moved _ _ _ _ _ _ _ := rfl
  register_moved _ _ _ _ _ := rfl
  ready_append := lineReady_append
  ready_next := lineReady_next
  step_eq base request s k r := lineStep_render base request s k r

end Sginx.Http
