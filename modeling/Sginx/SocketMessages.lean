import Sginx.HttpMessages
import Sginx.SocketDrain

namespace Sginx.Http

open Sginx.Library.RingBuffer

def sentBytes (socket : List Segment) : List Byte := (socket.map fun first => first.val).flatten

theorem sentBytes_length (socket : List Segment) : (sentBytes socket).length = arrived socket := by
  rw [sentBytes, arrived, List.length_flatten, List.map_map]
  rfl

/-- One slot of the buffer stays free. -/
def room (request : SgxHttpRequest) : ℕ := sgxMaxBuf - 1 - (request.last - request.pos)

theorem append_nil (request : SgxHttpRequest) : append request [] = request := rfl

theorem append_append (request : SgxHttpRequest) (as bs : List Byte) :
    append (append request as) bs = append request (as ++ bs) := by
  simp only [append, putAll_append, List.length_append, Nat.add_assoc]

theorem room_append {request : SgxHttpRequest} (hpos : request.pos ≤ request.last)
    (bs : List Byte) : room (append request bs) = room request - bs.length := by
  simp only [room, append]
  omega

theorem unread_append_of_le {request : SgxHttpRequest} (hpos : request.pos ≤ request.last)
    {bs : List Byte} (hlen : request.last - request.pos + bs.length ≤ sgxMaxBuf) :
    unread (append request bs) = unread request ++ bs := by
  have hput := (holds_window request.buf request.pos (request.last - request.pos)).putAll bs
    (by rwa [window_length])
  rw [window_length, Nat.add_sub_cancel' hpos] at hput
  have hwindow := hput.window_eq
  rw [List.length_append, window_length] at hwindow
  simp only [unread, append]
  rwa [Nat.sub_add_comm hpos]

theorem remainSize_le_room {request : SgxHttpRequest} {stream : List Byte}
    (h : RingReachable request stream) : remainSize request ≤ room request := by
  rw [remainSize_eq h.inv.pos_le h.inv.room, room]
  omega

theorem room_eq_zero {request : SgxHttpRequest} {stream : List Byte}
    (h : RingReachable request stream) (hsize : remainSize request = 0) : room request = 0 := by
  have hmod := Nat.mod_lt request.last (show 0 < sgxMaxBuf by decide)
  rw [remainSize_eq h.inv.pos_le h.inv.room] at hsize
  rw [room]
  omega

theorem readSocket_bytes (count : ℕ) (first : Segment) (rest : List Segment) :
    first.val.take count ++ sentBytes (readSocket count (first :: rest)).2 =
      sentBytes (first :: rest) := by
  simp only [readSocket, sentBytes, List.map_cons, List.flatten_cons]
  split_ifs with hdrop
  · have htake := List.take_append_drop count first.val
    rw [hdrop, List.append_nil] at htake
    rw [htake]
  · rw [List.map_cons, List.flatten_cons, ← List.append_assoc, List.take_append_drop]

theorem readLoop_first {request : SgxHttpRequest} {stream : List Byte}
    (h : RingReachable request stream) (hsize : remainSize request ≠ 0) (first : Segment)
    (rest : List Segment) (hlast : request.last + arrived (first :: rest) < sizeMod) (fuel : ℕ) :
    ∃ bytes socket' log, bytes ≠ [] ∧ bytes.length ≤ remainSize request ∧
      bytes ++ sentBytes socket' = sentBytes (first :: rest) ∧
      RingReachable (append request bytes) (stream ++ bytes) ∧
      readLoop (fuel + 1) request (first :: rest) =
        (readLoop fuel (append request bytes) socket').map fun r =>
          { r with
            log := log ++ r.log
            sizes := remainSize request :: r.sizes } := by
  have hne := take_ne_nil first hsize
  have hlen : (first.val.take (remainSize request)).length ≤ remainSize request :=
    List.length_take_le _ _
  have harrived := readSocket_arrived (remainSize request) first rest
  have hlast' : request.last + (first.val.take (remainSize request)).length < sizeMod := by omega
  have hround := readRound_request h.inv.pos_le h.inv.room hlen hlast'
  refine ⟨_, _, (sgxRequestRunRound request (.bytes (first.val.take (remainSize request)))).2.1,
    hne, hlen, readSocket_bytes (remainSize request) first rest, ?_, ?_⟩
  · rw [← hround]
    exact h.read _ hlen hlast'
  · rw [← hround, readLoop]
    exact if_pos (h.pending.received hne hlen).1

theorem readLoop_full {request : SgxHttpRequest} {stream : List Byte}
    (h : RingReachable request stream) (hsize : remainSize request = 0) (socket : List Segment)
    (fuel : ℕ) : ∃ r, readLoop (fuel + 1) request socket = some r ∧ r.request = request ∧
      r.exit = .err := by
  have hread : (readSocket 0 socket).1 = .bytes [] := by
    cases socket <;> rfl
  have hround := @readRound_request request h.inv.pos_le h.inv.room [] (Nat.zero_le _) h.inv.nowrap
  rw [append_nil] at hround
  refine ⟨⟨(sgxRequestRunRound request (.bytes [])).1, .err,
    (sgxRequestRunRound request (.bytes [])).2.1, [0]⟩, ?_, hround, rfl⟩
  simp only [readLoop, hsize, hread]
  rfl

theorem readLoop_drained {request : SgxHttpRequest} (hsize : remainSize request ≠ 0) (fuel : ℕ) :
    ∃ r, readLoop (fuel + 1) request [] = some r ∧ r.request = request ∧ r.exit = .leave := by
  refine ⟨⟨request, .leave, overflowCheck request, [remainSize request]⟩, ?_, rfl, rfl⟩
  simp [readLoop, readSocket, hsize, sgxRequestRunRound]

theorem readLoop_keeps {fuel : ℕ} : ∀ {request : SgxHttpRequest} {stream : List Byte}
    {socket : List Segment}, RingReachable request stream → arrived socket < fuel →
    request.last + arrived socket < sizeMod → ∃ r, readLoop fuel request socket = some r ∧
      r.request = append request ((sentBytes socket).take (room request)) ∧
      r.exit = if arrived socket < room request then .leave else .err := by
  induction fuel with
  | zero => exact fun _ hfuel => absurd hfuel (Nat.not_lt_zero _)
  | succ fuel ih =>
    intro request stream socket h hfuel hlast
    by_cases hsize : remainSize request = 0
    · obtain ⟨r, hrun, hrequest, hexit⟩ := readLoop_full h hsize socket fuel
      refine ⟨r, hrun, ?_, ?_⟩
      · rw [hrequest, room_eq_zero h hsize, List.take_zero, append_nil]
      · rw [hexit, room_eq_zero h hsize, if_neg (Nat.not_lt_zero _)]
    have hle := remainSize_le_room h
    cases socket with
    | nil =>
      obtain ⟨r, hrun, hrequest, hexit⟩ := readLoop_drained hsize fuel
      have harrived : arrived [] < room request := (Nat.pos_of_ne_zero hsize).trans_le hle
      refine ⟨r, hrun, ?_, ?_⟩
      · rw [hrequest, sentBytes, List.map_nil, List.flatten_nil, List.take_nil, append_nil]
      · rw [hexit, if_pos harrived]
    | cons first rest =>
      obtain ⟨bytes, socket', log, hne, hlen, hbytes, hnext, hloop⟩ :=
        readLoop_first h hsize first rest hlast fuel
      have hcount := congrArg List.length hbytes
      rw [List.length_append, sentBytes_length, sentBytes_length] at hcount
      have hpos := List.length_pos_iff.mpr hne
      obtain ⟨r, hrun, hrequest, hexit⟩ := ih hnext (by omega)
        (show request.last + bytes.length + arrived socket' < sizeMod by omega)
      rw [room_append h.inv.pos_le] at hrequest hexit
      refine ⟨{ r with
        log := log ++ r.log
        sizes := remainSize request :: r.sizes }, ?_, ?_, ?_⟩
      · rw [hloop, hrun, Option.map_some]
      · rw [hrequest, append_append, ← hbytes, List.take_append,
          List.take_of_length_le (hlen.trans hle)]
      · have hiff : arrived socket' < room request - bytes.length ↔
            arrived (first :: rest) < room request := by omega
        rw [hexit]
        simp only [hiff]

theorem messages_arrive {request : SgxHttpRequest} {stream : List Byte}
    (h : RingReachable request stream) (socket : List Segment)
    (hlast : request.last + arrived socket < sizeMod) :
    let bytes := unread request ++ sentBytes socket
    ∃ r, readLoop (arrived socket + 1) request socket = some r ∧
      unread r.request = bytes.take (sgxMaxBuf - 1) ∧
      r.exit = (if bytes.length < sgxMaxBuf - 1 then .leave else .err) ∧
      (request.state = 0 → r.exit = .leave →
        (∀ (messages : List Message) (rest : List Byte),
          bytes = (messages.map Message.bytes).flatten ++ rest →
            ∃ request', Read r.request messages request' ∧ unread request' = rest) ∧
        ∀ (n : ℕ) (request' : SgxHttpRequest), Called n r.request request' →
          ∃ messages : List Message, messages.length = n ∧ Read r.request messages request' ∧
            bytes = (messages.map Message.bytes).flatten ++ unread request') := by
  intro bytes
  obtain ⟨r, hrun, hrequest, hexit⟩ := readLoop_keeps h (Nat.lt_succ_self _) hlast
  have hpos := h.inv.pos_le
  have hroom := h.inv.room
  have hcount : bytes.length = request.last - request.pos + arrived socket := by
    rw [List.length_append, unread_length, sentBytes_length]
  have htaken : ((sentBytes socket).take (room request)).length ≤ room request :=
    List.length_take_le _ _
  have hmax : request.last - request.pos + room request = sgxMaxBuf - 1 := by
    rw [room]
    omega
  have hunread : unread r.request = bytes.take (sgxMaxBuf - 1) := by
    have hlen : (unread request).length ≤ sgxMaxBuf - 1 := by
      rw [unread_length]
      omega
    rw [hrequest, unread_append_of_le hpos (by omega), List.take_append,
      List.take_of_length_le hlen, unread_length]
    rfl
  have hfits : arrived socket < room request ↔ bytes.length < sgxMaxBuf - 1 := by
    rw [hcount, room]
    omega
  rw [if_congr hfits rfl rfl] at hexit
  refine ⟨r, hrun, hunread, hexit, ?_⟩
  intro hstate hleave
  have hshort : bytes.length < sgxMaxBuf - 1 := by
    by_contra hlong
    rw [hexit, if_neg hlong] at hleave
    cases hleave
  rw [List.take_of_length_le hshort.le] at hunread
  have hstate' : r.request.state = 0 := by
    rw [hrequest]
    exact hstate
  have hlen : r.request.last ≤ r.request.pos + sgxMaxBuf := by
    have hall := congrArg List.length hunread
    rw [unread_length] at hall
    omega
  rw [← hunread]
  exact ⟨fun _ _ hbytes => messages_told hstate' hlen hbytes,
    fun _ _ hcalled => hcalled.messages hstate' hlen⟩

theorem messages_arrive_in_two_segments :
    let message : Message :=
      ⟨getLine [chr '1'] [chr '0'] mem_major_one mem_minor_zero, oneHeader true⟩
    let bytes := message.bytes ++ message.bytes
    let socket : List Segment := [⟨bytes.take 2, by decide⟩, ⟨bytes.drop 2, by decide⟩]
    ∃ r request', readLoop (arrived socket + 1) acceptedRequest socket = some r ∧
      r.exit = .leave ∧ Read r.request [message, message] request' ∧ unread request' = [] := by
  intro message bytes socket
  obtain ⟨r, hrun, -, hexit, harrive⟩ :=
    messages_arrive acceptedRequest_reachable socket (by decide)
  have hbytes : unread acceptedRequest ++ sentBytes socket = bytes ++ [] := rfl
  rw [hbytes, if_pos (by decide)] at hexit
  obtain ⟨request', hread, hrest⟩ := (harrive rfl hexit).1 [message, message] [] hbytes
  exact ⟨r, request', hrun, hexit, hread, hrest⟩

end Sginx.Http
