import Sginx.Request

namespace Sginx.Http

open Sginx.Library.RingBuffer

/-- The request objects that a connection reaches, with the bytes received so far: read rounds of
`sgx_request_run` and steps that consume unread bytes, in any order. -/
inductive RingReachable : SgxHttpRequest → List Byte → Prop where
  | init (request : SgxHttpRequest) (fd epfd : ℤ) (config : SgxConf) :
      RingReachable (sgxInitRequest request fd epfd config).2 []
  | read {request : SgxHttpRequest} {stream : List Byte} (h : RingReachable request stream)
      (bs : List Byte) (hlen : bs.length ≤ remainSize request)
      (hlast : request.last + bs.length < sizeMod) :
      RingReachable (sgxRequestRunRound request (.bytes bs)).1 (stream ++ bs)
  | parse {request : SgxHttpRequest} {stream : List Byte} (h : RingReachable request stream)
      (request' : SgxHttpRequest) (hbuf : request'.buf = request.buf)
      (hlast : request'.last = request.last) (hpos : request.pos ≤ request'.pos)
      (hle : request'.pos ≤ request.last) : RingReachable request' stream

def append (request : SgxHttpRequest) (bs : List Byte) : SgxHttpRequest :=
  { request with
    buf := putAll request.buf request.last bs
    last := request.last + bs.length }

structure RingInv (request : SgxHttpRequest) (stream : List Byte) : Prop where
  last_eq : request.last = stream.length
  pos_le : request.pos ≤ request.last
  room : request.last < request.pos + sgxMaxBuf
  nowrap : request.last < sizeMod
  holds : Holds request.buf request.pos (stream.drop request.pos)

theorem remainSize_eq {request : SgxHttpRequest} (hpos : request.pos ≤ request.last)
    (hroom : request.last < request.pos + sgxMaxBuf) : remainSize request =
      min (sgxMaxBuf - (request.last - request.pos) - 1) (sgxMaxBuf - request.last % sgxMaxBuf) := by
  have hmod := Nat.mod_lt request.last (show 0 < sgxMaxBuf by decide)
  have hused : request.last - request.pos ≤ sgxMaxBuf := by omega
  have hfree : 1 ≤ sgxMaxBuf - (request.last - request.pos) := by omega
  rw [remainSize, sizeSub_of_le hpos, sizeSub_of_le hused, sizeSub_of_le hfree,
    sizeSub_of_le hmod.le, sgxMin]
  split_ifs <;> omega

theorem readRound_request {request : SgxHttpRequest} (hpos : request.pos ≤ request.last)
    (hroom : request.last < request.pos + sgxMaxBuf) {bs : List Byte}
    (hlen : bs.length ≤ remainSize request) (hlast : request.last + bs.length < sizeMod) :
    (sgxRequestRunRound request (.bytes bs)).1 = append request bs := by
  have hmod := Nat.mod_lt request.last (show 0 < sgxMaxBuf by decide)
  rw [remainSize_eq hpos hroom] at hlen
  simp only [sgxRequestRunRound]
  rw [storeFrom_eq _ _ _ (by omega), sizeAdd_of_lt hlast]
  rw [append]
  split_ifs with h0
  · rw [h0, Nat.add_zero]
  · rfl

theorem RingInv.read {request : SgxHttpRequest} {stream : List Byte} (h : RingInv request stream)
    {bs : List Byte} (hlen : bs.length ≤ remainSize request)
    (hlast : request.last + bs.length < sizeMod) :
    RingInv (sgxRequestRunRound request (.bytes bs)).1 (stream ++ bs) := by
  rw [readRound_request h.pos_le h.room hlen hlast]
  have hroom := h.room
  have hpos := h.pos_le
  have hlen' := hlen
  rw [remainSize_eq hpos hroom] at hlen'
  refine ⟨by simp [append, h.last_eq], hpos.trans (Nat.le_add_right _ _), ?_, hlast, ?_⟩
  · simp only [append]
    omega
  have hdrop : (stream.drop request.pos).length = request.last - request.pos := by
    rw [List.length_drop, h.last_eq]
  have hput := h.holds.putAll bs (by omega)
  rw [hdrop, Nat.add_sub_cancel' hpos] at hput
  rw [List.drop_append_of_le_length (by rw [← h.last_eq]; exact hpos)]
  exact hput

theorem RingInv.parse {request request' : SgxHttpRequest} {stream : List Byte}
    (h : RingInv request stream) (hbuf : request'.buf = request.buf)
    (hlast : request'.last = request.last) (hpos : request.pos ≤ request'.pos)
    (hle : request'.pos ≤ request.last) : RingInv request' stream := by
  have hroom := h.room
  refine ⟨by rw [hlast, h.last_eq], by omega, by omega, by rw [hlast]; exact h.nowrap, ?_⟩
  have hdrop := h.holds.drop (request'.pos - request.pos)
  rw [List.drop_drop, Nat.add_sub_cancel' hpos] at hdrop
  rwa [hbuf]

theorem RingReachable.inv {request : SgxHttpRequest} {stream : List Byte}
    (h : RingReachable request stream) : RingInv request stream := by
  induction h with
  | init request fd epfd config =>
    exact ⟨rfl, le_refl 0, Nat.zero_lt_succ _, Nat.two_pow_pos 64, holds_nil _ _⟩
  | read _ bs hlen hlast ih => exact ih.read hlen hlast
  | parse _ request' hbuf hlast hpos hle ih => exact ih.parse hbuf hlast hpos hle

theorem overflowCheck_eq_nil {request : SgxHttpRequest} (hpos : request.pos ≤ request.last)
    (hroom : request.last < request.pos + sgxMaxBuf) : overflowCheck request = [] := by
  rw [overflowCheck, if_neg]
  rw [sizeSub_of_le hpos]
  omega

theorem RingInv.no_overflow {request : SgxHttpRequest} {stream : List Byte}
    (h : RingInv request stream) (result : ReadResult)
    (hresult : ∀ bs, result = .bytes bs → bs.length ≤ remainSize request ∧
      request.last + bs.length < sizeMod) :
    LogMessage.overflow ∉ (sgxRequestRunRound request result).2.1 := by
  have hnow := overflowCheck_eq_nil h.pos_le h.room
  cases result with
  | failed errno =>
    simp only [sgxRequestRunRound, hnow]
    split_ifs <;> simp
  | bytes bs =>
    obtain ⟨hlen, hlast⟩ := hresult bs rfl
    have hafter := h.read hlen hlast
    have hthen := overflowCheck_eq_nil hafter.pos_le hafter.room
    simp only [sgxRequestRunRound] at hthen ⊢
    have hsame (buf : Fin sgxMaxBuf → Byte) : overflowCheck { request with buf := buf } = [] := hnow
    split_ifs at hthen ⊢ with h0
    · simp [hsame]
    · simp [hsame, hthen]

theorem ring_is_fifo {request : SgxHttpRequest} {stream : List Byte}
    (h : RingReachable request stream) :
    request.pos ≤ request.last ∧ request.last ≤ request.pos + sgxMaxBuf - 1 ∧
      request.last % sgxMaxBuf + remainSize request ≤ sgxMaxBuf ∧
      (∀ i, request.pos ≤ i → i < request.last →
        ¬ (request.last % sgxMaxBuf ≤ i % sgxMaxBuf ∧
          i % sgxMaxBuf < request.last % sgxMaxBuf + remainSize request)) ∧
      (∀ i, request.pos ≤ i → i < request.last →
        stream[i]? = some (request.buf (slot sgxMaxBuf i))) ∧
      ∀ result : ReadResult, (∀ bs, result = .bytes bs → bs.length ≤ remainSize request ∧
          request.last + bs.length < sizeMod) →
        LogMessage.overflow ∉ (sgxRequestRunRound request result).2.1 := by
  have hinv := h.inv
  have hpos := hinv.pos_le
  have hroom := hinv.room
  have hmod := Nat.mod_lt request.last (show 0 < sgxMaxBuf by decide)
  have hremain := remainSize_eq hpos hroom
  refine ⟨hpos, by omega, by omega, ?_, ?_, hinv.no_overflow⟩
  · intro i hi hlt ⟨hlo, hhi⟩
    -- slot `i` would also be the slot of an index that is still to be received
    have hslot : slot sgxMaxBuf i =
        slot sgxMaxBuf (request.last + (i % sgxMaxBuf - request.last % sgxMaxBuf)) := by
      apply Fin.ext
      rw [slot_val, slot_val, Nat.add_mod, Nat.mod_eq_of_lt (show i % sgxMaxBuf -
        request.last % sgxMaxBuf < sgxMaxBuf by omega), Nat.add_sub_cancel' hlo, Nat.mod_mod]
    exact slot_ne (by omega) (by omega) hslot
  · intro i hi hlt
    have hlen : i - request.pos < (stream.drop request.pos).length := by
      rw [List.length_drop, ← hinv.last_eq]
      omega
    have hat := hinv.holds (i - request.pos) hlen
    rwa [List.getElem?_drop, Nat.add_sub_cancel' hi] at hat

theorem ring_is_fifo_after_a_parse :
    let start := (sgxInitRequest zeroRequest 5 4 ⟨none, 80, 4⟩).2
    let received := (sgxRequestRunRound start (.bytes [71, 69, 84])).1
    let parsed := { received with pos := 2 }
    RingReachable parsed [71, 69, 84] ∧ (parsed.pos ≤ parsed.last ∧
      parsed.last ≤ parsed.pos + sgxMaxBuf - 1) := by
  intro start received parsed
  have hinit : RingReachable start [] := .init zeroRequest 5 4 ⟨none, 80, 4⟩
  have hread : RingReachable received [71, 69, 84] :=
    .read hinit [71, 69, 84] (by decide) (by decide)
  have hparse : RingReachable parsed [71, 69, 84] :=
    .parse hread parsed rfl rfl (by decide) (by decide)
  have h := ring_is_fifo hparse
  exact ⟨hparse, h.1, h.2.1⟩

end Sginx.Http
