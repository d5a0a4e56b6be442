import Sginx.RecordedSlices

namespace Sginx.Http

open Sginx.Library.RingBuffer Sginx.Library.Scanning

def SameStraddle (pos pos' i j : ℕ) : Prop :=
  Straddles sgxMaxBuf (pos + i) (pos + j) ↔ Straddles sgxMaxBuf (pos' + i) (pos' + j)

theorem ptrSub_ptrAt (pos : ℕ) {i j : ℕ} (hij : i ≤ j) (hj : j < i + sgxMaxBuf) :
    ptrSub (ptrAt (pos + j)) (ptrAt (pos + i)) = some ((j : ℤ) - i -
      if Straddles sgxMaxBuf (pos + i) (pos + j) then (sgxMaxBuf : ℤ) else 0) := by
  have hsub := slot_sub (Nat.add_le_add_left hij pos) (show pos + j < pos + i + sgxMaxBuf by omega)
  simp only [ptrSub, ptrAt, slot_val, hsub]
  congr 2
  omega

theorem ptrSub_eq_iff (pos pos' : ℕ) {i j : ℕ} (hij : i ≤ j) (hj : j < i + sgxMaxBuf) :
    ptrSub (ptrAt (pos + j)) (ptrAt (pos + i)) = ptrSub (ptrAt (pos' + j)) (ptrAt (pos' + i)) ↔
      SameStraddle pos pos' i j := by
  rw [ptrSub_ptrAt pos hij hj, ptrSub_ptrAt pos' hij hj, Option.some.injEq, SameStraddle]
  have hM : (sgxMaxBuf : ℤ) = 8124 := rfl
  by_cases h : Straddles sgxMaxBuf (pos + i) (pos + j) <;>
    by_cases h' : Straddles sgxMaxBuf (pos' + i) (pos' + j)
  · exact iff_of_true (by rw [if_pos h, if_pos h']) (iff_of_true h h')
  · exact iff_of_false (by rw [if_pos h, if_neg h']; omega) (fun hi => h' (hi.mp h))
  · exact iff_of_false (by rw [if_neg h, if_pos h']; omega) (fun hi => h (hi.mpr h'))
  · exact iff_of_true (by rw [if_neg h, if_neg h']) (iff_of_false h h')

def UnknownWord (token : List Byte) (old : ℤ) : Prop :=
  token ≠ [chr 'G', chr 'E', chr 'T'] ∧ token ≠ [chr 'P', chr 'O', chr 'S', chr 'T'] ∧
    token ≠ [chr 'H', chr 'E', chr 'A', chr 'D'] ∧
    (token.length = 3 ∨ token.length = 4 → old = sgxHttpUnknown)

theorem methodOf_eq_unknown_iff (token : List Byte) (old : ℤ) :
    methodOf token old = sgxHttpUnknown ↔ UnknownWord token old := by
  have hget : sgxHttpGet ≠ sgxHttpUnknown := by decide
  have hpost : sgxHttpPost ≠ sgxHttpUnknown := by decide
  have hhead : sgxHttpHead ≠ sgxHttpUnknown := by decide
  unfold methodOf UnknownWord
  split_ifs with h1 h2 h3 h4
  · exact ⟨fun h => absurd h hget, fun h => absurd h1 h.1⟩
  · exact ⟨fun h => absurd h hpost, fun h => absurd h2 h.2.1⟩
  · exact ⟨fun h => absurd h hhead, fun h => absurd h3 h.2.2.1⟩
  · exact ⟨fun h => ⟨h1, h2, h3, fun _ => h⟩, fun h => h.2.2.2 h4⟩
  · exact ⟨fun _ => ⟨h1, h2, h3, fun h => absurd h h4⟩, fun _ => rfl⟩

theorem methodAt_eq_iff (pos pos' i : ℕ) (token : List Byte) (old : ℤ) :
    methodAt (pos + i) token old = methodAt (pos' + i) token old ↔
      SameStraddle pos pos' i (i + token.length) ∨ UnknownWord token old := by
  rw [← methodOf_eq_unknown_iff]
  unfold methodAt SameStraddle
  rw [Nat.add_assoc, Nat.add_assoc]
  by_cases h : Straddles sgxMaxBuf (pos + i) (pos + (i + token.length)) <;>
    by_cases h' : Straddles sgxMaxBuf (pos' + i) (pos' + (i + token.length)) <;>
    simp [h, h', eq_comm]

def lineRecord (request : SgxHttpRequest) : Record LineCursor LineRegister :=
  (lineScanner.run 0 (unread request) .swStart (Record.empty (lineScanned.register request))).2.2

def bodyRecord (request : SgxHttpRequest) : Record BodyCursor Unit :=
  (bodyScanner.run 0 (unread request) .swStart (Record.empty ())).2.2

theorem lineRecord_slices (request : SgxHttpRequest) :
    LineSlices 0 (unread request).length (lineRecord request) := by
  have hstart : LineMarked 0 .swStart [] (Record.empty (lineScanned.register request)) :=
    ⟨le_refl 0, rfl, rfl⟩
  have hend : LineSlices 0 ([].length + (unread request).length) (lineRecord request) :=
    line_slices_marked hstart rfl
  rwa [List.length_nil, Nat.zero_add] at hend

theorem bodyRecord_entries (request : SgxHttpRequest) :
    EntriesMarked 0 (unread request).length (bodyRecord request) := by
  have hstart : BodyMarked 0 .swStart [] (Record.empty ()) :=
    ⟨le_refl 0, trivial, fun _ hc => absurd hc (List.not_mem_nil)⟩
  have hend : EntriesMarked 0 ([].length + (unread request).length) (bodyRecord request) :=
    body_entries_marked hstart rfl
  rwa [List.length_nil, Nat.zero_add] at hend

def headLengths (head : SgxHttpHeader) : Option ℤ × Option ℤ :=
  (ptrSub head.keyEnd head.keyStart, ptrSub head.valueEnd head.valueStart)

def SameLine (first second : SgxHttpRequest) : Prop :=
  let answer := sgxHttpParseRequestLine first
  let answer' := sgxHttpParseRequestLine second
  answer'.1 = answer.1 ∧ answer'.2.method = answer.2.method ∧
    ((lineRecord first).cursor .uriEnd ≠ none →
      ptrSub answer'.2.uriEnd answer'.2.uriStart = ptrSub answer.2.uriEnd answer.2.uriStart)

def SameSection (first second : SgxHttpRequest) : Prop :=
  let answer := sgxHttpParseRequestBody first
  let answer' := sgxHttpParseRequestBody second
  answer'.1 = answer.1 ∧ answer'.2.list.map headLengths = answer.2.list.map headLengths

def SliceSameStraddle (pos pos' : ℕ) (start stop : Option ℕ) : Prop :=
  ∀ i j, start = some i → stop = some j → SameStraddle pos pos' i j

theorem SliceMarked.sameStraddle {n pos pos' : ℕ} {start stop : Option ℕ}
    (h : SliceMarked 0 n start stop) (hpos : pos + n < sgxMaxBuf) (hpos' : pos' + n < sgxMaxBuf) :
    SliceSameStraddle pos pos' start stop := by
  obtain ⟨i, j, rfl, rfl, -, hij, hlt⟩ := h
  rintro _ _ ⟨⟩ ⟨⟩
  have hnot (base : ℕ) (hbase : base + n < sgxMaxBuf) :
      ¬ Straddles sgxMaxBuf (base + i) (base + j) := by
    rw [Straddles, Nat.mod_eq_of_lt (show base + i < sgxMaxBuf by omega),
      Nat.mod_eq_of_lt (show base + j < sgxMaxBuf by omega)]
    omega
  exact iff_of_false (hnot pos hpos) (hnot pos' hpos')

def LineSameStraddle (pos pos' : ℕ) (r : Record LineCursor LineRegister) (old : ℤ) : Prop :=
  (SliceSameStraddle pos pos' (r.cursor .requestStart) (r.cursor .methodEnd) ∨
    UnknownWord r.register.token old) ∧
  SliceSameStraddle pos pos' (r.cursor .uriStart) (r.cursor .uriEnd)

def SectionSameStraddle (pos pos' : ℕ) (r : Record BodyCursor Unit) : Prop :=
  ∀ cursor ∈ r.entries, SliceSameStraddle pos pos' (cursor .keyStart) (cursor .keyEnd) ∧
    SliceSameStraddle pos pos' (cursor .valueStart) (cursor .valueEnd)

theorem sliceMarked_sub_iff {n : ℕ} {start stop : Option ℕ} (h : SliceMarked 0 n start stop)
    (hn : n ≤ sgxMaxBuf) (pos pos' : ℕ) (old₁ old₂ old₁' old₂' : Ptr) :
    ptrSub (ptrFrom pos' old₂' stop) (ptrFrom pos' old₁' start) =
      ptrSub (ptrFrom pos old₂ stop) (ptrFrom pos old₁ start) ↔
      SliceSameStraddle pos pos' start stop := by
  obtain ⟨i, j, rfl, rfl, -, hij, hlt⟩ := h
  simp only [ptrFrom]
  rw [eq_comm, ptrSub_eq_iff pos pos' hij (by omega)]
  constructor
  · rintro h i' j' hi hj
    obtain rfl := Option.some.inj hi
    obtain rfl := Option.some.inj hj
    exact h
  · exact fun h => h i j rfl rfl

theorem renderMethod_eq_iff {n : ℕ} {r : Record LineCursor LineRegister}
    (h : r.cursor .methodEnd = none ∨ MethodMarked 0 n r) (pos pos' : ℕ) (old : ℤ) :
    renderMethod pos' old r = renderMethod pos old r ↔
      SliceSameStraddle pos pos' (r.cursor .requestStart) (r.cursor .methodEnd) ∨
        UnknownWord r.register.token old := by
  rcases h with hnone | ⟨i, hi, he, -, -⟩
  · refine ⟨fun _ => .inl fun i j _ hj => ?_, fun _ => by simp [renderMethod, hnone]⟩
    rw [hnone] at hj
    cases hj
  · have hmethod (p : ℕ) : renderMethod p old r = methodAt (p + i) r.register.token old := by
      simp [renderMethod, hi, he]
    rw [hmethod, hmethod, eq_comm, methodAt_eq_iff]
    refine or_congr_left ⟨fun h i' j' hi' hj' => ?_, fun h => h _ _ hi he⟩
    rw [hi, Option.some.injEq] at hi'
    rw [he, Option.some.injEq] at hj'
    subst hi' hj'
    exact h

theorem ScannedBy.result_code {σ μ δ : Type} {P : Parser σ} {A : Scanner Byte σ ScanExit μ δ}
    (V : ScannedBy P A) (pos pos' : ℕ) (first second : SgxHttpRequest)
    (out : (σ ⊕ ScanExit) × ℕ × Record μ δ) :
    (V.result pos' second out).1 = (V.result pos first out).1 := by
  rcases out with ⟨s | x, k, r⟩
  · rfl
  · rw [V.result_inr_code, V.result_inr_code]

theorem result_line_fields (pos : ℕ) (request : SgxHttpRequest)
    (out : (LineState ⊕ ScanExit) × ℕ × Record LineCursor LineRegister) :
    let answer := lineScanned.result pos request out
    answer.2.method = renderMethod pos request.method out.2.2 ∧
      answer.2.uriStart = ptrFrom pos request.uriStart (out.2.2.cursor .uriStart) ∧
      answer.2.uriEnd = ptrFrom pos request.uriEnd (out.2.2.cursor .uriEnd) := by
  rcases out with ⟨s | x, k, r⟩
  · exact ⟨rfl, rfl, rfl⟩
  · cases x <;> exact ⟨rfl, rfl, rfl⟩

theorem result_body_list (pos : ℕ) (request : SgxHttpRequest)
    (out : (BodyState ⊕ ScanExit) × ℕ × Record BodyCursor Unit) :
    (bodyScanned.result pos request out).2.list =
      out.2.2.entries.map (renderEntry pos request) ++ request.list := by
  rcases out with ⟨s | x, k, r⟩
  · rfl
  · cases x <;> rfl

theorem unread_length (request : SgxHttpRequest) :
    (unread request).length = request.last - request.pos := by
  rw [unread, window_length]

theorem parse_line_eq {request : SgxHttpRequest} (hstate : request.state = 0)
    (hle : request.pos ≤ request.last) (hlen : (unread request).length ≤ sgxMaxBuf) :
    sgxHttpParseRequestLine request = lineScanned.result request.pos request
      (lineScanner.run 0 (unread request) .swStart
        (Record.empty (lineScanned.register request))) := by
  rw [unread_length] at hlen
  have hready : LineReady request.pos request.buf request.last .swStart 0
      (Record.empty (lineScanned.register request)) := ⟨rfl, by omega⟩
  exact lineScanned.parse_start request .swStart hle hstate hready

theorem same_line_iff {first second : SgxHttpRequest}
    (hsame : second = moved first second.buf second.pos second.last first.state)
    (hstate : first.state = 0) (hle : first.pos ≤ first.last) (hle' : second.pos ≤ second.last)
    (hbytes : unread second = unread first) (hlen : (unread first).length < sgxMaxBuf) :
    SameLine first second ↔
      LineSameStraddle first.pos second.pos (lineRecord first) first.method := by
  have hregister : lineScanned.register second = lineScanned.register first := by
    rw [hsame]
    rfl
  have hfirst := parse_line_eq hstate hle hlen.le
  have hsecond := parse_line_eq (show second.state = 0 by rw [hsame]; exact hstate) hle'
    (by rw [hbytes]; exact hlen.le)
  rw [hbytes, hregister] at hsecond
  have hslices := lineRecord_slices first
  unfold SameLine
  unfold lineRecord at hslices ⊢
  rw [hfirst, hsecond]
  generalize lineScanner.run 0 (unread first) .swStart
    (Record.empty (lineScanned.register first)) = out at hslices ⊢
  have hmethod : second.method = first.method := by rw [hsame]; rfl
  obtain ⟨hm, hus, hue⟩ := result_line_fields first.pos first out
  obtain ⟨hm', hus', hue'⟩ := result_line_fields second.pos second out
  simp only [hm, hus, hue, hm', hus', hue', hmethod, lineScanned.result_code first.pos second.pos
    first second out, true_and, LineSameStraddle]
  refine and_congr (renderMethod_eq_iff hslices.1 _ _ _) ?_
  rcases hslices.2 with hnone | huri
  · refine ⟨fun _ i j _ hj => ?_, fun _ h => absurd hnone h⟩
    rw [hnone] at hj
    cases hj
  · have hne : out.2.2.cursor .uriEnd ≠ none := by
      obtain ⟨i, j, -, hj, -⟩ := huri
      rw [hj]
      exact Option.some_ne_none j
    rw [← sliceMarked_sub_iff huri hlen.le first.pos second.pos first.uriStart first.uriEnd
      second.uriStart second.uriEnd]
    exact ⟨fun h => h hne, fun h _ => h⟩

theorem same_section_iff {first second : SgxHttpRequest}
    (hsame : second = moved first second.buf second.pos second.last first.state)
    (hstate : first.state = 0) (hle : first.pos ≤ first.last) (hle' : second.pos ≤ second.last)
    (hbytes : unread second = unread first) (hlen : (unread first).length < sgxMaxBuf) :
    SameSection first second ↔ SectionSameStraddle first.pos second.pos (bodyRecord first) := by
  have hfirst : sgxHttpParseRequestBody first = _ :=
    bodyScanned.parse_start first .swStart hle hstate trivial
  have hsecond : sgxHttpParseRequestBody second = _ :=
    bodyScanned.parse_start second .swStart hle' (by rw [hsame]; exact hstate) trivial
  have hentries := bodyRecord_entries first
  unfold SameSection
  unfold bodyRecord at hentries ⊢
  rw [hfirst, hsecond, hbytes]
  have hregister (request : SgxHttpRequest) : bodyScanned.register request = () := rfl
  simp only [hregister]
  generalize bodyScanner.run 0 (unread first) .swStart (Record.empty ()) = out at hentries ⊢
  have hlist : second.list = first.list := by rw [hsame]; rfl
  simp only [result_body_list, hlist, bodyScanned.result_code first.pos second.pos first second out,
    true_and, List.map_append, List.map_map, List.append_left_inj, List.map_inj_left,
    SectionSameStraddle]
  refine forall_congr' fun cursor => forall_congr' fun hcursor => ?_
  obtain ⟨hkey, hvalue⟩ := hentries cursor hcursor
  simp only [Function.comp, headLengths, renderEntry, Prod.mk.injEq]
  exact and_congr (sliceMarked_sub_iff hkey hlen.le _ _ _ _ _ _)
    (sliceMarked_sub_iff hvalue hlen.le _ _ _ _ _ _)

theorem ring_offset_independence_iff {first second : SgxHttpRequest}
    (hsame : second = moved first second.buf second.pos second.last first.state)
    (hstate : first.state = 0) (hle : first.pos ≤ first.last) (hle' : second.pos ≤ second.last)
    (hbytes : unread second = unread first) (hlen : (unread first).length < sgxMaxBuf) :
    (SameLine first second ↔
      LineSameStraddle first.pos second.pos (lineRecord first) first.method) ∧
    (SameSection first second ↔ SectionSameStraddle first.pos second.pos (bodyRecord first)) :=
  ⟨same_line_iff hsame hstate hle hle' hbytes hlen,
    same_section_iff hsame hstate hle hle' hbytes hlen⟩

theorem header_at_two_offsets :
    let text := "a: b\r\n\r\n".toList.map chr
    let first := append zeroRequest text
    let second := append (moved zeroRequest zeroRequest.buf 100 100 0) text
    SameSection first second := by
  intro text first second
  have hlen : (unread first).length = 8 := by
    rw [unread_append rfl (by decide)]
    rfl
  have h := ring_offset_independence_iff (show second =
    moved first second.buf second.pos second.last first.state from rfl) rfl (by decide) (by decide)
    (by rw [unread_append rfl (by decide), unread_append rfl (by decide)]) (by rw [hlen]; decide)
  apply h.2.mpr
  intro cursor hcursor
  obtain ⟨hkey, hvalue⟩ := bodyRecord_entries first cursor hcursor
  rw [hlen] at hkey hvalue
  exact ⟨hkey.sameStraddle (by decide) (by decide), hvalue.sameStraddle (by decide) (by decide)⟩

theorem method_depends_on_the_offset :
    let text := "GET / HTTP/1.0\n".toList.map chr
    let first := append zeroRequest text
    let second := append (moved zeroRequest zeroRequest.buf 8123 8123 0) text
    second = moved first second.buf second.pos second.last first.state ∧
      unread second = unread first ∧ (sgxHttpParseRequestLine first).2.method = sgxHttpGet ∧
      (sgxHttpParseRequestLine second).2.method = sgxHttpUnknown ∧ ¬ SameLine first second := by
  intro text first second
  have hget : (sgxHttpParseRequestLine first).2.method = sgxHttpGet := by decide
  have hunknown : (sgxHttpParseRequestLine second).2.method = sgxHttpUnknown := by decide
  refine ⟨rfl, ?_, hget, hunknown, fun h => ?_⟩
  · rw [unread_append rfl (by decide), unread_append rfl (by decide)]
  · have hmethod := h.2.1
    rw [hget, hunknown] at hmethod
    exact absurd hmethod (by decide)

end Sginx.Http
