import Sginx.BodyScanner
import Sginx.LineScanner

namespace Sginx.Http

open Sginx.Library.RingBuffer Sginx.Library.Scanning

/-- One call after each chunk has been received, up to the first answer that is not `SGX_AGAIN`. -/
def feed (parse : SgxHttpRequest → ℤ × SgxHttpRequest) :
    SgxHttpRequest → List (List Byte) → ℤ × SgxHttpRequest
  | request, [] => (sgxAgain, request)
  | request, chunk :: chunks =>
    let answer := parse (append request chunk)
    if answer.1 = sgxAgain then feed parse answer.2 chunks else answer

variable {σ μ δ : Type} {P : Parser σ} {A : Scanner Byte σ ScanExit μ δ} (V : ScannedBy P A)

theorem ScannedBy.feed_eq (chunks : List (List Byte)) (base k : ℕ) (request : SgxHttpRequest)
    (s : σ) (r : Record μ δ) (hpos : request.pos = base + k) (hlast : request.last = base + k)
    (hstate : request.state = P.code s) (hready : V.Ready base request.buf (base + k) s k r)
    (hlen : k + chunks.flatten.length ≤ sgxMaxBuf) :
    ∃ buf pos last state, feed P.parse (V.render base request r) chunks =
      V.result base (moved request buf pos last state) (A.run k chunks.flatten s r) := by
  induction chunks generalizing k request s r with
  | nil =>
    refine ⟨request.buf, request.pos, request.last, request.state, ?_⟩
    refine congrArg (Prod.mk sgxAgain) ?_
    rw [← hpos, ← hstate, V.render_moved]
    exact V.render_self base request r
  | cons chunk chunks ih =>
    rw [List.flatten_cons, List.length_append] at hlen
    have hready' := V.ready_append base request.buf s k r chunk hready (by omega)
    have hparse := V.parse_eq base k (append request chunk) s r hpos
      (by simp only [append]; omega) hstate (by simpa only [append, hlast] using hready')
    rw [unread_append (hlast.trans hpos.symm) (by omega)] at hparse
    rw [feed, V.render_append, hparse, List.flatten_cons, Scanner.run_append]
    rcases hrun : A.run k chunk s r with ⟨out, k', r'⟩
    cases out with
    | inl s' =>
      obtain rfl := A.run_inl hrun
      have hwindow : window (putAll request.buf (base + k) chunk) (base + k) chunk.length = chunk :=
        window_putAll request.buf (base + k) (by omega)
      have hafter : V.Ready base (putAll request.buf (base + k) chunk) (base + k + chunk.length)
          s' (k + chunk.length) r' := by
        apply V.ready_run chunk.length base k _ _ s r hready'
        rw [hwindow]
        exact hrun
      rw [Nat.add_assoc, ← hlast] at hafter
      rw [V.result_inl, if_pos rfl]
      exact ih (k + chunk.length) _ s' r' rfl (by simp only [moved, append, hlast, Nat.add_assoc])
        rfl hafter (by omega)
    | inr x =>
      refine ⟨(append request chunk).buf, request.pos, (append request chunk).last, request.state, ?_⟩
      have hne := V.result_inr_code base k' (append request chunk) x r' ▸ x.code_ne_again
      exact if_neg hne

theorem ScannedBy.feed_whole (chunks : List (List Byte)) (request : SgxHttpRequest) (s : σ)
    (hlast : request.last = request.pos) (hstate : request.state = P.code s)
    (hready : V.Ready request.pos request.buf request.pos s 0
      (Record.empty (V.register request)))
    (hlen : chunks.flatten.length ≤ sgxMaxBuf) :
    let out := A.run 0 chunks.flatten s (Record.empty (V.register request))
    P.parse (append request chunks.flatten) =
        V.result request.pos (append request chunks.flatten) out ∧
      ∃ buf pos last state, feed P.parse request chunks =
        V.result request.pos (moved request buf pos last state) out := by
  intro out
  constructor
  · have hready' := V.ready_append request.pos request.buf s 0 _ chunks.flatten hready (by omega)
    rw [Nat.add_zero] at hready'
    have hregister : V.register (append request chunks.flatten) = V.register request :=
      V.register_moved request _ request.pos _ request.state
    have hparse := V.parse_start (append request chunks.flatten) s (by simp only [append]; omega)
      hstate (by rw [hregister]; simpa only [append, hlast] using hready')
    rwa [unread_append hlast hlen, hregister] at hparse
  · have hfeed := V.feed_eq chunks request.pos 0 request s _ rfl hlast hstate hready (by omega)
    rwa [V.render_empty] at hfeed

theorem feed_line_eq_whole (chunks : List (List Byte)) (request : SgxHttpRequest)
    (hlast : request.last = request.pos) (hstate : request.state = LineState.swStart.code)
    (hlen : chunks.flatten.length ≤ sgxMaxBuf - 1) :
    let whole := sgxHttpParseRequestLine (append request chunks.flatten)
    let split := feed sgxHttpParseRequestLine request chunks
    split.1 = whole.1 ∧ (whole.1 = sgxOk ∨ whole.1 = sgxAgain →
      split.2.pos = whole.2.pos ∧ split.2.state = whole.2.state ∧
      split.2.method = whole.2.method ∧
      split.2.uriStart = whole.2.uriStart ∧ split.2.uriEnd = whole.2.uriEnd ∧
      split.2.httpMajor = whole.2.httpMajor ∧ split.2.httpMinor = whole.2.httpMinor ∧
      split.2.methodEnd = whole.2.methodEnd ∧ split.2.requestEnd = whole.2.requestEnd) := by
  intro whole split
  have hready : LineReady request.pos request.buf request.pos .swStart 0
      (Record.empty (lineScanned.register request)) := ⟨rfl, by omega⟩
  obtain ⟨hwhole, buf, pos, last, state, hsplit⟩ := lineScanned.feed_whole chunks request .swStart
    hlast hstate hready (by omega)
  have hw : whole = _ := hwhole
  have hs : split = _ := hsplit
  rw [hw, hs]
  rcases lineScanner.run 0 chunks.flatten .swStart (Record.empty (lineScanned.register request))
    with ⟨s | x, k, r⟩
  · exact ⟨rfl, fun _ => ⟨rfl, rfl, rfl, rfl, rfl, rfl, rfl, rfl, rfl⟩⟩
  · refine ⟨by rw [lineScanned.result_inr_code, lineScanned.result_inr_code], fun h => ?_⟩
    obtain rfl := lineScanned.result_inr_done h
    exact ⟨rfl, rfl, rfl, rfl, rfl, rfl, rfl, rfl, rfl⟩

theorem feed_line_in_two_chunks :
    let chunks := ["GE".toList.map chr, "T / HTTP/1.0\n".toList.map chr]
    let split := feed sgxHttpParseRequestLine zeroRequest chunks
    split.1 = sgxOk ∧ split.2.method = sgxHttpGet := by
  intro chunks split
  have h := feed_line_eq_whole chunks zeroRequest rfl rfl (by decide)
  have hok : (sgxHttpParseRequestLine (append zeroRequest chunks.flatten)).1 = sgxOk := by decide
  have hget : (sgxHttpParseRequestLine (append zeroRequest chunks.flatten)).2.method =
      sgxHttpGet := by decide
  exact ⟨h.1.trans hok, (h.2 (.inl hok)).2.2.1.trans hget⟩

theorem feed_body_eq_whole (chunks : List (List Byte)) (request : SgxHttpRequest) (s : BodyState)
    (hlast : request.last = request.pos) (hstate : request.state = s.code)
    (hlen : chunks.flatten.length ≤ sgxMaxBuf - 1) :
    let whole := sgxHttpParseRequestBody (append request chunks.flatten)
    let split := feed sgxHttpParseRequestBody request chunks
    split.1 = whole.1 ∧ split.2.list = whole.2.list ∧
      (∃ added, split.2.list = added ++ request.list) ∧
      (whole.1 = sgxOk ∨ whole.1 = sgxAgain →
        split.2.pos = whole.2.pos ∧ split.2.state = whole.2.state) := by
  intro whole split
  obtain ⟨hwhole, buf, pos, last, state, hsplit⟩ := bodyScanned.feed_whole chunks request s
    hlast hstate trivial (by omega)
  have hw : whole = _ := hwhole
  have hs : split = _ := hsplit
  rw [hw, hs]
  rcases bodyScanner.run 0 chunks.flatten s (Record.empty (bodyScanned.register request))
    with ⟨s' | x, k, r⟩
  · exact ⟨rfl, rfl, ⟨_, rfl⟩, fun _ => ⟨rfl, rfl⟩⟩
  · refine ⟨by rw [bodyScanned.result_inr_code, bodyScanned.result_inr_code], by cases x <;> rfl,
      ⟨r.entries.map (renderEntry request.pos request), by cases x <;> rfl⟩, fun h => ?_⟩
    obtain rfl := bodyScanned.result_inr_done h
    exact ⟨rfl, rfl⟩

theorem feed_body_cut_before_lf :
    let chunks := ["a: b\r".toList.map chr, "\n\r\n".toList.map chr]
    let split := feed sgxHttpParseRequestBody zeroRequest chunks
    split.1 = sgxOk ∧ split.2.list = [⟨ptrAt 0, ptrAt 1, ptrAt 3, ptrAt 4⟩] := by
  intro chunks split
  have h := feed_body_eq_whole chunks zeroRequest .swStart rfl rfl (by decide)
  exact ⟨h.1.trans (by decide), h.2.1.trans (by decide)⟩

end Sginx.Http
