import Sginx.Incremental

namespace Sginx.Http

open Sginx.Library.RingBuffer Sginx.Library.Scanning

variable {σ μ δ : Type}

structure SameRing (first second : SgxHttpRequest) : Prop where
  buf : first.buf = second.buf
  pos : first.pos = second.pos
  last : first.last = second.last

/-- `Agrees` relates the request to the record at a position, `Ends` does so behind the label
`done`. `Fits last chunk` is what a chunk stored at `last` has to meet. -/
structure FollowedBy (P : Parser σ) (A : Scanner Byte σ ScanExit μ δ) where
  Agrees : SgxHttpRequest → σ → ℕ → Record μ δ → Prop
  Ends : SgxHttpRequest → ℕ → Record μ δ → Prop
  Fits : ℕ → List Byte → Prop
  agrees_moved : ∀ request s pos r pos' state, Agrees request s pos r →
    Agrees { request with pos := pos', state := state } s pos r
  agrees_append : ∀ request s r chunk, Agrees request s request.last r →
    Fits request.last chunk → Agrees (append request chunk) s request.last r
  step_eq : ∀ request s pos r, Agrees request s pos r → pos < request.last →
    let c := request.buf (slot sgxMaxBuf pos)
    ∃ request', P.step request s pos = stepTo request' (A.next s c) ∧ SameRing request' request ∧
      (∀ s', A.next s c = .inl s' → Agrees request' s' (pos + 1) (A.note s c pos r)) ∧
      (A.next s c = .inr .done → Ends (P.done request' pos) pos (A.note s c pos r))
  done_pos : ∀ request pos, (P.done request pos).pos = pos + 1

variable {P : Parser σ} {A : Scanner Byte σ ScanExit μ δ} (F : FollowedBy P A)

def FollowedBy.FitsAll : ℕ → List (List Byte) → Prop
  | _, [] => True
  | last, chunk :: chunks =>
    chunk.length ≤ sgxMaxBuf ∧ F.Fits last chunk ∧ FollowedBy.FitsAll (last + chunk.length) chunks

theorem FollowedBy.fitsAll {last : ℕ} {chunks : List (List Byte)}
    (hfits : ∀ last chunk, F.Fits last chunk)
    (h : ∀ chunk ∈ chunks, chunk.length ≤ sgxMaxBuf) : F.FitsAll last chunks := by
  induction chunks generalizing last with
  | nil => trivial
  | cons chunk chunks ih =>
    rw [List.forall_mem_cons] at h
    exact ⟨h.1, hfits last chunk, ih h.2⟩

def FollowedBy.Follows (answer : ℤ × SgxHttpRequest) : (σ ⊕ ScanExit) × ℕ × Record μ δ → Prop
  | (.inl s, pos, r) => answer.1 = sgxAgain ∧ answer.2.pos = pos ∧ answer.2.last = pos ∧
      answer.2.state = P.code s ∧ F.Agrees answer.2 s pos r
  | (.inr x, pos, r) => answer.1 = x.code ∧
      (x = .done → answer.2.pos = pos + 1 ∧ F.Ends answer.2 pos r)

theorem FollowedBy.loop_follows (n pos : ℕ) (request : SgxHttpRequest) (s : σ) (r : Record μ δ)
    (h : F.Agrees request s pos r) (hn : pos + n = request.last) :
    F.Follows (P.loop n request s pos) (A.run pos (window request.buf pos n) s r) := by
  induction n generalizing pos request s r with
  | zero => exact ⟨rfl, rfl, hn.symm, rfl, F.agrees_moved _ _ _ _ _ _ h⟩
  | succ n ih =>
    obtain ⟨request', hstep, hsame, hnext, hdone⟩ := F.step_eq request s pos r h (by omega)
    rw [Parser.loop, window, Scanner.run, hstep]
    cases hn' : A.next s (request.buf (slot sgxMaxBuf pos)) with
    | inl s' =>
      have hlast : pos + 1 + n = request'.last := by
        rw [hsame.last]
        omega
      have hrest := ih (pos + 1) request' s' _ (hnext s' hn') hlast
      rwa [hsame.buf] at hrest
    | inr x =>
      cases x with
      | done => exact ⟨rfl, fun _ => ⟨F.done_pos request' pos, hdone hn'⟩⟩
      | _ => exact ⟨rfl, fun hx => absurd hx (by decide)⟩

theorem FollowedBy.parse_follows (request : SgxHttpRequest) (s : σ) (r : Record μ δ)
    (hle : request.pos ≤ request.last) (hstate : request.state = P.code s)
    (h : F.Agrees request s request.pos r) :
    F.Follows (P.parse request) (A.run request.pos (unread request) s r) := by
  rw [Parser.parse, hstate, P.ofCode_code]
  exact F.loop_follows _ _ _ _ _ h (by omega)

theorem feed_singleton (parse : SgxHttpRequest → ℤ × SgxHttpRequest) (request : SgxHttpRequest)
    (chunk : List Byte) : feed parse request [chunk] = parse (append request chunk) := by
  rw [feed]
  split_ifs with hagain
  · exact Prod.ext hagain.symm rfl
  · rfl

theorem FollowedBy.feed_cons_follows (chunks : List (List Byte)) (chunk : List Byte)
    (request : SgxHttpRequest) (s : σ) (r : Record μ δ) (hlast : request.last = request.pos)
    (hstate : request.state = P.code s) (hlen : chunk.length ≤ sgxMaxBuf)
    (h : F.Agrees (append request chunk) s request.pos r)
    (hfits : F.FitsAll (request.last + chunk.length) chunks) :
    F.Follows (feed P.parse request (chunk :: chunks))
      (A.run request.pos (chunk ++ chunks.flatten) s r) := by
  induction chunks generalizing chunk request s r with
  | nil =>
    have hparse := F.parse_follows (append request chunk) s r (by simp only [append]; omega) hstate h
    rw [unread_append hlast hlen] at hparse
    rw [List.flatten_nil, List.append_nil, feed_singleton]
    exact hparse
  | cons next rest ih =>
    have hparse := F.parse_follows (append request chunk) s r (by simp only [append]; omega) hstate h
    rw [unread_append hlast hlen] at hparse
    rw [feed, A.run_append]
    have hpos : (append request chunk).pos = request.pos := rfl
    rw [hpos] at hparse
    generalize P.parse (append request chunk) = answer at hparse ⊢
    rcases hrun : A.run request.pos chunk s r with ⟨s' | x, pos', r'⟩
    · obtain rfl := A.run_inl hrun
      rw [hrun] at hparse
      obtain ⟨hagain, hpos', hlast', hstate', hagrees⟩ := hparse
      obtain ⟨hnext, hfit, hrest⟩ := hfits
      rw [if_pos hagain]
      rw [hlast] at hfit hrest
      rw [← hlast'] at hagrees hfit hrest
      have hcall := ih next answer.2 s' r' (hlast'.trans hpos'.symm) hstate' hnext
        (by rw [hpos', ← hlast']; exact F.agrees_append _ _ _ _ hagrees hfit) hrest
      rwa [hpos'] at hcall
    · rw [hrun] at hparse
      have hne : answer.1 ≠ sgxAgain := by
        rw [hparse.1]
        exact x.code_ne_again
      rw [if_neg hne]
      exact hparse

theorem FollowedBy.feed_follows (chunks : List (List Byte)) (request : SgxHttpRequest) (s : σ)
    (r : Record μ δ) (hlast : request.last = request.pos) (hstate : request.state = P.code s)
    (h : F.Agrees request s request.pos r) (hfits : F.FitsAll request.last chunks) :
    F.Follows (feed P.parse request chunks) (A.run request.pos chunks.flatten s r) := by
  cases chunks with
  | nil => exact ⟨rfl, rfl, hlast, hstate, h⟩
  | cons chunk chunks =>
    obtain ⟨hlen, hfit, hrest⟩ := hfits
    rw [List.flatten_cons]
    refine F.feed_cons_follows chunks chunk request s r hlast hstate hlen ?_ hrest
    rw [← hlast] at h ⊢
    exact F.agrees_append _ _ _ _ h hfit

theorem append_unread {request : SgxHttpRequest} (hle : request.pos ≤ request.last) :
    append { request with last := request.pos } (unread request) = request := by
  simp only [append, unread, window_length, putAll_window, Nat.add_sub_cancel' hle]

theorem feed_unread (parse : SgxHttpRequest → ℤ × SgxHttpRequest) {request : SgxHttpRequest}
    (hle : request.pos ≤ request.last) :
    feed parse { request with last := request.pos } [unread request] = parse request := by
  rw [feed_singleton, append_unread hle]

end Sginx.Http
