import Sginx.ParserLoop
import Sginx.RequestRun
import Sginx.Library.Scanner

namespace Sginx.Http

open Sginx.Library.RingBuffer Sginx.Library.Scanning

inductive ScanExit where
  | done
  | invalidMethod
  | invalidRequest
  | invalidHeader
deriving DecidableEq, Repr

def ScanExit.code : ScanExit → ℤ
  | .done => sgxOk
  | .invalidMethod => sgxHttpParseInvalidMethod
  | .invalidRequest => sgxHttpParseInvalidRequest
  | .invalidHeader => sgxHttpParseInvalidHeader

theorem ScanExit.code_ne_again (x : ScanExit) : x.code ≠ sgxAgain := by
  cases x <;> decide

theorem ScanExit.code_eq_ok {x : ScanExit} : x.code = sgxOk ↔ x = .done := by
  cases x <;> decide

def unread (request : SgxHttpRequest) : List Byte :=
  window request.buf request.pos (request.last - request.pos)

theorem window_putAll (buf : Fin sgxMaxBuf → Byte) (i : ℕ) {bs : List Byte}
    (hlen : bs.length ≤ sgxMaxBuf) : window (putAll buf i bs) i bs.length = bs := by
  have hput := (holds_nil buf i).putAll bs (by simpa using hlen)
  exact hput.window_eq

theorem unread_append {request : SgxHttpRequest} (h : request.last = request.pos) {bs : List Byte}
    (hlen : bs.length ≤ sgxMaxBuf) : unread (append request bs) = bs := by
  simp only [unread, append, h, Nat.add_sub_cancel_left]
  exact window_putAll request.buf request.pos hlen

def ptrFrom (base : ℕ) (old : Ptr) : Option ℕ → Ptr
  | none => old
  | some k => ptrAt (base + k)

def moved (request : SgxHttpRequest) (buf : Fin sgxMaxBuf → Byte) (pos last state : ℕ) :
    SgxHttpRequest :=
  { request with buf := buf, pos := pos, last := last, state := state }

variable {σ μ δ : Type}

def stepTo (request : SgxHttpRequest) : σ ⊕ ScanExit → Step σ
  | .inl s => .next request s
  | .inr .done => .done request
  | .inr x => .ret x.code request

/-- `Ready base buf last s k r` says that the bytes which the parser will look at again are still in
the buffer. -/
structure ScannedBy (P : Parser σ) (A : Scanner Byte σ ScanExit μ δ) where
  register : SgxHttpRequest → δ
  render : ℕ → SgxHttpRequest → Record μ δ → SgxHttpRequest
  Ready : ℕ → (Fin sgxMaxBuf → Byte) → ℕ → σ → ℕ → Record μ δ → Prop
  render_empty : ∀ base request, render base request (Record.empty (register request)) = request
  render_moved : ∀ base request r buf pos last state,
    render base (moved request buf pos last state) r =
      moved (render base request r) buf pos last state
  register_moved : ∀ request buf pos last state,
    register (moved request buf pos last state) = register request
  ready_append : ∀ base buf s k r (bs : List Byte), Ready base buf (base + k) s k r →
    k + bs.length ≤ sgxMaxBuf →
    Ready base (putAll buf (base + k) bs) (base + k + bs.length) s k r
  ready_next : ∀ base buf last s k r s', Ready base buf last s k r →
    A.next s (buf (slot sgxMaxBuf (base + k))) = .inl s' →
    Ready base buf last s' (k + 1) (A.note s (buf (slot sgxMaxBuf (base + k))) k r)
  step_eq : ∀ base request s k r, Ready base request.buf request.last s k r →
    base + k < request.last → P.step (render base request r) s (base + k) =
      let c := request.buf (slot sgxMaxBuf (base + k))
      stepTo (render base request (A.note s c k r)) (A.next s c)

variable {P : Parser σ} {A : Scanner Byte σ ScanExit μ δ} (V : ScannedBy P A)

theorem ScannedBy.render_self (base : ℕ) (request : SgxHttpRequest) (r : Record μ δ) :
    V.render base request r =
      moved (V.render base request r) request.buf request.pos request.last request.state :=
  V.render_moved base request r request.buf request.pos request.last request.state

theorem ScannedBy.render_buf (base : ℕ) (request : SgxHttpRequest) (r : Record μ δ) :
    (V.render base request r).buf = request.buf := by
  rw [V.render_self, moved]

theorem ScannedBy.render_pos (base : ℕ) (request : SgxHttpRequest) (r : Record μ δ) :
    (V.render base request r).pos = request.pos := by
  rw [V.render_self, moved]

theorem ScannedBy.render_last (base : ℕ) (request : SgxHttpRequest) (r : Record μ δ) :
    (V.render base request r).last = request.last := by
  rw [V.render_self, moved]

theorem ScannedBy.render_state (base : ℕ) (request : SgxHttpRequest) (r : Record μ δ) :
    (V.render base request r).state = request.state := by
  rw [V.render_self, moved]

theorem ScannedBy.render_append (base : ℕ) (request : SgxHttpRequest) (r : Record μ δ)
    (bs : List Byte) : append (V.render base request r) bs = V.render base (append request bs) r := by
  have h := V.render_moved base request r (append request bs).buf request.pos
    (append request bs).last request.state
  refine Eq.trans ?_ h.symm
  rw [append, V.render_buf, V.render_last, moved, V.render_pos, V.render_state]
  rfl

def ScannedBy.result (base : ℕ) (request : SgxHttpRequest) :
    (σ ⊕ ScanExit) × ℕ × Record μ δ → ℤ × SgxHttpRequest
  | (.inl s, k, r) =>
    (sgxAgain, { V.render base request r with pos := base + k, state := P.code s })
  | (.inr .done, k, r) => (sgxOk, P.done (V.render base request r) (base + k))
  | (.inr x, _, r) => (x.code, V.render base request r)

theorem ScannedBy.result_inl (base k : ℕ) (request : SgxHttpRequest) (s : σ) (r : Record μ δ) :
    V.result base request (.inl s, k, r) = (sgxAgain,
      V.render base (moved request request.buf (base + k) request.last (P.code s)) r) := by
  rw [V.render_moved, ← V.render_buf base request r, ← V.render_last base request r]
  rfl

theorem ScannedBy.result_inr_code (base k : ℕ) (request : SgxHttpRequest) (x : ScanExit)
    (r : Record μ δ) : (V.result base request (.inr x, k, r)).1 = x.code := by
  cases x <;> rfl

theorem ScannedBy.result_inr_done {base k : ℕ} {request : SgxHttpRequest} {x : ScanExit}
    {r : Record μ δ} (h : (V.result base request (.inr x, k, r)).1 = sgxOk ∨
      (V.result base request (.inr x, k, r)).1 = sgxAgain) : x = .done := by
  rw [V.result_inr_code] at h
  rcases h with h | h
  · exact ScanExit.code_eq_ok.mp h
  · exact absurd h x.code_ne_again

theorem ScannedBy.loop_eq (n base k : ℕ) (request : SgxHttpRequest) (s : σ) (r : Record μ δ)
    (hready : V.Ready base request.buf request.last s k r) (hn : base + k + n ≤ request.last) :
    P.loop n (V.render base request r) s (base + k) =
      V.result base request (A.run k (window request.buf (base + k) n) s r) := by
  induction n generalizing k s r with
  | zero => rfl
  | succ n ih =>
    rw [Parser.loop, V.step_eq base request s k r hready (by omega), window, Scanner.run]
    dsimp only
    cases hnext : A.next s (request.buf (slot sgxMaxBuf (base + k))) with
    | inl s' => exact ih (k + 1) s' _ (V.ready_next _ _ _ _ _ _ _ hready hnext) (by omega)
    | inr x => cases x <;> rfl

theorem ScannedBy.ready_run (n base k : ℕ) (buf : Fin sgxMaxBuf → Byte) (last : ℕ) (s : σ)
    (r : Record μ δ) (hready : V.Ready base buf last s k r) {s' : σ} {k' : ℕ} {r' : Record μ δ}
    (hrun : A.run k (window buf (base + k) n) s r = (.inl s', k', r')) :
    V.Ready base buf last s' k' r' := by
  induction n generalizing k s r with
  | zero =>
    obtain ⟨rfl, rfl, rfl⟩ : s = s' ∧ k = k' ∧ r = r' := by simpa [window, Scanner.run] using hrun
    exact hready
  | succ n ih =>
    rw [window, Scanner.run] at hrun
    cases hnext : A.next s (buf (slot sgxMaxBuf (base + k))) with
    | inl s₁ =>
      rw [hnext] at hrun
      exact ih (k + 1) s₁ _ (V.ready_next _ _ _ _ _ _ _ hready hnext) hrun
    | inr x => rw [hnext] at hrun; cases hrun

theorem ScannedBy.parse_eq (base k : ℕ) (request : SgxHttpRequest) (s : σ) (r : Record μ δ)
    (hpos : request.pos = base + k) (hle : request.pos ≤ request.last)
    (hstate : request.state = P.code s) (hready : V.Ready base request.buf request.last s k r) :
    P.parse (V.render base request r) =
      V.result base request (A.run k (unread request) s r) := by
  rw [Parser.parse, V.render_state, hstate, P.ofCode_code, V.render_last, V.render_pos, unread, hpos]
  exact V.loop_eq _ base k request s r hready (by omega)

theorem ScannedBy.parse_start (request : SgxHttpRequest) (s : σ)
    (hle : request.pos ≤ request.last) (hstate : request.state = P.code s)
    (hready : V.Ready request.pos request.buf request.last s 0
      (Record.empty (V.register request))) :
    P.parse request = V.result request.pos request
      (A.run 0 (unread request) s (Record.empty (V.register request))) := by
  have h := V.parse_eq request.pos 0 request s _ rfl hle hstate hready
  rwa [V.render_empty] at h

end Sginx.Http
