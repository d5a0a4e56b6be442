import Sginx.RequestRun

/-!
The read loop of `sgx_request_run` (`http/http.c`), for a peer that neither closes nor fails. What
the peer has sent by the time of a read lies in the socket as segments.
-/

namespace Sginx.Http

abbrev Segment := { bs : List Byte // bs ≠ [] }

/-- `read` takes at most the first segment, and `EAGAIN` is for a socket without any. A count of 0
reads nothing. -/
def readSocket (count : ℕ) : List Segment → ReadResult × List Segment
  | [] => (if count = 0 then .bytes [] else .failed eagain, [])
  | first :: rest =>
    (.bytes (first.val.take count),
      if h : first.val.drop count = [] then rest else ⟨first.val.drop count, h⟩ :: rest)

structure DrainResult where
  request : SgxHttpRequest
  exit : LoopExit
  log : List LogMessage
  sizes : List ℕ

def readLoop : ℕ → SgxHttpRequest → List Segment → Option DrainResult
  | 0, _, _ => none
  | fuel + 1, request, socket =>
    let size := remainSize request
    let answer := readSocket size socket
    let round := sgxRequestRunRound request answer.1
    if round.2.2 = .again then
      (readLoop fuel round.1 answer.2).map fun r =>
        { r with
          log := round.2.1 ++ r.log
          sizes := size :: r.sizes }
    else some ⟨round.1, round.2.2, round.2.1, [size]⟩

def arrived (socket : List Segment) : ℕ := (socket.map fun first => first.val.length).sum

def DrainsCleanly (request : SgxHttpRequest) (socket : List Segment) : Prop :=
  ∃ fuel r, readLoop fuel request socket = some r ∧ r.exit = .leave ∧ 0 ∉ r.sizes

structure Pending (request : SgxHttpRequest) (n : ℕ) : Prop where
  last_lt : request.last < sizeMod
  pos_lt : request.pos < sizeMod
  count : sizeSub request.last request.pos = n
  room : n < sgxMaxBuf

theorem Pending.remainSize_eq {request : SgxHttpRequest} {n : ℕ} (h : Pending request n) :
    remainSize request = min (sgxMaxBuf - n - 1) (sgxMaxBuf - request.last % sgxMaxBuf) := by
  have hmod := Nat.mod_lt request.last (show 0 < sgxMaxBuf by decide)
  have hroom := h.room
  rw [remainSize, h.count, sizeSub_of_le hroom.le, sizeSub_of_le (by omega),
    sizeSub_of_le hmod.le, sgxMin]
  split_ifs <;> omega

theorem Pending.remainSize_eq_zero {request : SgxHttpRequest} {n : ℕ} (h : Pending request n) :
    remainSize request = 0 ↔ n = sgxMaxBuf - 1 := by
  have hmod := Nat.mod_lt request.last (show 0 < sgxMaxBuf by decide)
  have hroom := h.room
  rw [h.remainSize_eq]
  omega

theorem Pending.received {request : SgxHttpRequest} {n : ℕ} (h : Pending request n)
    {bs : List Byte} (hbs : bs ≠ []) (hlen : bs.length ≤ remainSize request) :
    (sgxRequestRunRound request (.bytes bs)).2.2 = .again ∧
      Pending (sgxRequestRunRound request (.bytes bs)).1 (n + bs.length) := by
  have hroom := h.room
  have hlen' := hlen
  rw [h.remainSize_eq] at hlen'
  have hsum : n + bs.length < sgxMaxBuf := by omega
  have hne : bs.length ≠ 0 := fun h0 => hbs (List.length_eq_zero_iff.mp h0)
  simp only [sgxRequestRunRound, if_neg hne]
  refine ⟨trivial, Nat.mod_lt _ (Nat.two_pow_pos 64), h.pos_lt, ?_, hsum⟩
  have hsmall : sizeSub request.last request.pos + bs.length < sizeMod := by
    rw [h.count]
    exact hsum.trans (by decide)
  rw [← h.count]
  exact sizeSub_sizeAdd h.last_lt h.pos_lt hsmall

theorem readSocket_arrived (count : ℕ) (first : Segment) (rest : List Segment) :
    arrived (readSocket count (first :: rest)).2 + (first.val.take count).length =
      arrived (first :: rest) := by
  have hlen : (first.val.drop count).length + (first.val.take count).length = first.val.length := by
    rw [List.length_drop, List.length_take]
    omega
  simp only [readSocket, arrived, List.map_cons, List.sum_cons]
  split_ifs with hdrop
  · rw [hdrop, List.length_nil] at hlen
    omega
  · rw [List.map_cons, List.sum_cons]
    change (first.val.drop count).length + _ + _ = _
    omega

theorem take_ne_nil (first : Segment) {count : ℕ} (hcount : count ≠ 0) :
    first.val.take count ≠ [] := by
  rw [ne_eq, List.take_eq_nil_iff, not_or]
  exact ⟨hcount, first.property⟩

theorem Pending.readLoop_cons {request : SgxHttpRequest} {n : ℕ} (h : Pending request n)
    (hsize : remainSize request ≠ 0) (first : Segment) (rest : List Segment) (fuel : ℕ) :
    ∃ request' socket' k, 0 < k ∧ Pending request' (n + k) ∧
      arrived socket' + k = arrived (first :: rest) ∧ ∃ log,
        readLoop (fuel + 1) request (first :: rest) = (readLoop fuel request' socket').map fun r =>
          { r with
            log := log ++ r.log
            sizes := remainSize request :: r.sizes } := by
  have hne := take_ne_nil first hsize
  obtain ⟨hagain, hpending⟩ := h.received hne (List.length_take_le _ _)
  refine ⟨_, _, _, List.length_pos_of_ne_nil hne, hpending,
    readSocket_arrived (remainSize request) first rest,
    (sgxRequestRunRound request (.bytes (first.val.take (remainSize request)))).2.1, ?_⟩
  rw [readLoop]
  exact if_pos hagain

theorem Pending.leaves {request : SgxHttpRequest} {n : ℕ} (h : Pending request n)
    {socket : List Segment} (hfits : n + arrived socket ≤ sgxMaxBuf - 2) {fuel : ℕ}
    (hfuel : arrived socket < fuel) :
    ∃ r, readLoop fuel request socket = some r ∧ r.exit = .leave ∧ 0 ∉ r.sizes := by
  induction fuel generalizing request n socket with
  | zero => exact absurd hfuel (Nat.not_lt_zero _)
  | succ fuel ih =>
    have hsize : remainSize request ≠ 0 := by
      rw [ne_eq, h.remainSize_eq_zero]
      simp only [sgxMaxBuf] at hfits ⊢
      omega
    cases socket with
    | nil =>
      refine ⟨⟨request, .leave, overflowCheck request, [remainSize request]⟩, ?_, rfl, ?_⟩
      · simp [readLoop, readSocket, hsize, sgxRequestRunRound]
      · simpa using Ne.symm hsize
    | cons first rest =>
      obtain ⟨request', socket', k, hk, hpending, htotal, log, hloop⟩ :=
        h.readLoop_cons hsize first rest fuel
      have hrest : n + k + arrived socket' ≤ sgxMaxBuf - 2 := by omega
      have hfuel' : arrived socket' < fuel := by omega
      obtain ⟨r, hrun, hexit, hsizes⟩ := ih hpending hrest hfuel'
      refine ⟨{ r with
        log := log ++ r.log
        sizes := remainSize request :: r.sizes }, ?_, hexit, ?_⟩
      · rw [hloop, hrun, Option.map_some]
      · exact fun hzero => hsizes ((List.mem_cons.mp hzero).resolve_left (Ne.symm hsize))

theorem Pending.fails {request : SgxHttpRequest} {n : ℕ} (h : Pending request n)
    {socket : List Segment} (hfull : sgxMaxBuf - 1 ≤ n + arrived socket) {fuel : ℕ}
    {r : DrainResult} (hrun : readLoop fuel request socket = some r) :
    r.exit = .err ∧ 0 ∈ r.sizes := by
  induction fuel generalizing request n socket r with
  | zero => cases hrun
  | succ fuel ih =>
    by_cases hsize : remainSize request = 0
    · have hread : (readSocket (remainSize request) socket).1 = .bytes [] := by
        rw [hsize]
        cases socket <;> rfl
      have hround : (sgxRequestRunRound request (.bytes [])).2.2 = .err := rfl
      simp only [readLoop, hread, hround, reduceCtorEq, if_false, Option.some.injEq] at hrun
      subst hrun
      exact ⟨rfl, by simp [hsize]⟩
    · cases socket with
      | nil =>
        have hroom := h.room
        rw [h.remainSize_eq_zero] at hsize
        simp only [arrived, List.map_nil, List.sum_nil] at hfull
        omega
      | cons first rest =>
        obtain ⟨request', socket', k, hk, hpending, htotal, log, hloop⟩ :=
          h.readLoop_cons hsize first rest fuel
        rw [hloop, Option.map_eq_some_iff] at hrun
        obtain ⟨r', hrun', rfl⟩ := hrun
        obtain ⟨hexit, hzero⟩ := ih hpending (by omega) hrun'
        exact ⟨hexit, List.mem_cons_of_mem _ hzero⟩

theorem RingReachable.pending {request : SgxHttpRequest} {stream : List Byte}
    (h : RingReachable request stream) : Pending request (request.last - request.pos) := by
  have hinv := h.inv
  have hpos := hinv.pos_le
  have hroom := hinv.room
  exact ⟨hinv.nowrap, hpos.trans_lt hinv.nowrap, sizeSub_of_le hpos, by omega⟩

theorem drains_cleanly_iff {request : SgxHttpRequest} {stream : List Byte}
    (h : RingReachable request stream) (socket : List Segment) :
    DrainsCleanly request socket ↔
      request.last - request.pos + arrived socket ≤ sgxMaxBuf - 2 := by
  constructor
  · rintro ⟨fuel, r, hrun, hexit, hsizes⟩
    by_contra hover
    have hfull : sgxMaxBuf - 1 ≤ request.last - request.pos + arrived socket := by omega
    exact hsizes (h.pending.fails hfull hrun).2
  · intro hfits
    obtain ⟨r, hr⟩ := h.pending.leaves hfits (Nat.lt_succ_self _)
    exact ⟨_, r, hr⟩

def acceptedRequest : SgxHttpRequest := (sgxInitRequest zeroRequest 5 4 ⟨none, 80, 4⟩).2

theorem acceptedRequest_reachable : RingReachable acceptedRequest [] :=
  .init zeroRequest 5 4 ⟨none, 80, 4⟩

theorem drains_cleanly_iff_three_bytes :
    DrainsCleanly acceptedRequest [⟨[71, 69], by decide⟩, ⟨[84], by decide⟩] ↔ 0 - 0 + 3 ≤ 8122 :=
  drains_cleanly_iff acceptedRequest_reachable [⟨[71, 69], by decide⟩, ⟨[84], by decide⟩]

def fullSegment : Segment := ⟨List.replicate 8123 71, List.cons_ne_nil _ _⟩

theorem full_segment_is_taken_for_end :
    RingReachable acceptedRequest [] ∧ arrived [fullSegment] = 8123 ∧
      ¬ DrainsCleanly acceptedRequest [fullSegment] := by
  have harrived : arrived [fullSegment] = 8123 := by
    rw [arrived, List.map_singleton, List.sum_singleton]
    exact List.length_replicate
  refine ⟨acceptedRequest_reachable, harrived, ?_⟩
  rintro ⟨fuel, r, hrun, hexit, hsizes⟩
  have hfull : sgxMaxBuf - 1 ≤ acceptedRequest.last - acceptedRequest.pos + arrived [fullSegment] := by
    rw [harrived]
    decide
  exact hsizes (acceptedRequest_reachable.pending.fails hfull hrun).2

end Sginx.Http
