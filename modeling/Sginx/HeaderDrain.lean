import Sginx.Library.CString
import Sginx.MiniServer

namespace Sginx.Mini

open Sginx.Http (Byte cr lf chr)
open Sginx.Library.CString (takeWhile_nul)

def store (buf : CharBuf) (i : ℕ) : List Byte → CharBuf
  | [] => buf
  | c :: cs => store (Function.update buf i c) (i + 1) cs

theorem store_below (cs : List Byte) (buf : CharBuf) {i j : ℕ} (h : j < i) :
    store buf i cs j = buf j := by
  induction cs generalizing buf i with
  | nil => rfl
  | cons c cs ih => rw [store, ih _ (by omega), Function.update_of_ne (by omega)]

theorem store_beyond (cs : List Byte) (buf : CharBuf) {i j : ℕ} (h : i + cs.length ≤ j) :
    store buf i cs j = buf j := by
  induction cs generalizing buf i with
  | nil => rfl
  | cons c cs ih =>
    rw [List.length_cons] at h
    rw [store, ih _ (by omega), Function.update_of_ne (by omega)]

theorem store_at (cs : List Byte) (buf : CharBuf) (i : ℕ) {j : ℕ} (h : j < cs.length) :
    store buf i cs (i + j) = cs[j] := by
  induction cs generalizing buf i j with
  | nil => exact absurd h (Nat.not_lt_zero j)
  | cons c cs ih =>
    rw [store]
    cases j with
    | zero => exact (store_below cs _ (Nat.lt_add_one i)).trans (Function.update_self i c buf)
    | succ j =>
      have hj : i + (j + 1) = i + 1 + j := by omega
      rw [hj, ih _ _ (Nat.lt_of_succ_lt_succ h)]
      rfl

def lineBreak (fd : Stream) (buf : CharBuf) (tail : ℕ) : CharBuf × ℕ × Stream :=
  match peek fd with
  | (none, fd) => (Function.update buf tail lf, tail + 1, fd)
  | (some c', fd) =>
    if c' = lf then (buf, tail, (read fd).2) else (Function.update buf tail lf, tail + 1, fd)

theorem getFdLineLoop_cons (room : ℕ) (c : Byte) (fd : Stream) (buf : CharBuf) (tail : ℕ) :
    getFdLineLoop (room + 1) (some c :: fd) buf tail =
      if c = cr then lineBreak fd buf tail
      else getFdLineLoop room fd (Function.update buf tail c) (tail + 1) := rfl

theorem getFdLineLoop_append (cs : List Byte) (hcr : cr ∉ cs) {room : ℕ} (hroom : cs.length ≤ room)
    (fd : Stream) (buf : CharBuf) (tail : ℕ) :
    getFdLineLoop room (cs.map some ++ fd) buf tail =
      getFdLineLoop (room - cs.length) fd (store buf tail cs) (tail + cs.length) := by
  induction cs generalizing room buf tail with
  | nil => rfl
  | cons c cs ih =>
    rw [List.mem_cons, not_or] at hcr
    rw [List.length_cons] at hroom
    obtain ⟨room, rfl⟩ : ∃ k, room = k + 1 := ⟨room - 1, by omega⟩
    rw [List.map_cons, List.cons_append, getFdLineLoop_cons, if_neg (Ne.symm hcr.1),
      ih hcr.2 (by omega), store, List.length_cons]
    congr 1
    · omega
    · omega

theorem peek_length (fd : Stream) :
    (peek fd).2.length ≤ fd.length ∧ ((peek fd).1 ≠ none → (peek fd).2 = fd) := by
  cases fd with
  | nil => exact ⟨le_refl _, fun h => absurd rfl h⟩
  | cons answer fd =>
    cases answer with
    | none => exact ⟨Nat.le_succ _, fun h => absurd rfl h⟩
    | some c => exact ⟨le_refl _, fun _ => rfl⟩

theorem read_length (fd : Stream) : (read fd).2.length ≤ fd.length := by
  cases fd with
  | nil => exact le_refl _
  | cons answer fd => exact Nat.le_succ _

theorem lineBreak_length (fd : Stream) (buf : CharBuf) (tail : ℕ) :
    (lineBreak fd buf tail).2.2.length + (lineBreak fd buf tail).2.1 ≤ fd.length + 1 + tail := by
  have hpeek := (peek_length fd).1
  unfold lineBreak
  cases hp : peek fd with
  | mk next fd' =>
    rw [hp] at hpeek
    have hread := read_length fd'
    cases next with
    | none =>
      simp only at hpeek ⊢
      omega
    | some c' =>
      simp only at hpeek ⊢
      split_ifs
      · simp only
        omega
      · simp only
        omega

theorem getFdLineLoop_length (room : ℕ) (fd : Stream) (buf : CharBuf) (tail : ℕ) :
    (getFdLineLoop room fd buf tail).2.2.length + (getFdLineLoop room fd buf tail).2.1 ≤
      fd.length + tail := by
  induction room generalizing fd buf tail with
  | zero => exact le_refl _
  | succ room ih =>
    cases fd with
    | nil => exact le_refl _
    | cons answer fd =>
      cases answer with
      | none => simp [getFdLineLoop, read]
      | some c =>
        rw [getFdLineLoop_cons, List.length_cons]
        split_ifs with hc
        · exact lineBreak_length fd buf tail
        · have := ih fd (Function.update buf tail c) (tail + 1)
          omega

theorem sgxGetFdLine_length (fd : Stream) (buf : CharBuf) (size : ℤ) :
    (sgxGetFdLine fd buf size).2.2.length + (sgxGetFdLine fd buf size).1 ≤ fd.length :=
  getFdLineLoop_length (size - 1).toNat fd buf 0

section loop

variable {σ : Type} (body : CharBuf → σ → CharBuf × σ)

theorem drainLoop_enough (fuel : ℕ) (fd : Stream) (buf : CharBuf) (s : σ) (h : fd.length < fuel) :
    drainLoop body fuel fd buf s = drain body fd buf s := by
  induction fuel using Nat.strong_induction_on generalizing fd buf s with
  | _ fuel ih =>
    obtain ⟨fuel, rfl⟩ : ∃ k, fuel = k + 1 := ⟨fuel - 1, by omega⟩
    have hlen := sgxGetFdLine_length fd buf intBuf
    rw [drain, drainLoop, drainLoop]
    generalize sgxGetFdLine fd buf intBuf = line at hlen ⊢
    obtain ⟨n, buf', fd'⟩ := line
    simp only at hlen ⊢
    split_ifs with hgo
    · by_cases hf : fuel = fd.length
      · rw [hf]
      · rw [ih fuel (by omega) fd' _ _ (by omega), ih fd.length (by omega) fd' _ _ (by omega)]
    · rfl

theorem drain_eq (fd : Stream) (buf : CharBuf) (s : σ) : drain body fd buf s =
    let line := sgxGetFdLine fd buf intBuf
    if 0 < line.1 ∧ ¬ isNewline line.2.1 then
      drain body line.2.2 (body line.2.1 s).1 (body line.2.1 s).2
    else some (line.2.2, line.2.1, s) := by
  have hlen := sgxGetFdLine_length fd buf intBuf
  rw [drain, drainLoop]
  generalize sgxGetFdLine fd buf intBuf = line at hlen ⊢
  obtain ⟨n, buf', fd'⟩ := line
  simp only at hlen ⊢
  split_ifs with hgo
  · exact drainLoop_enough body fd.length fd' _ _ (by omega)
  · rfl

theorem drain_returns (fd : Stream) (buf : CharBuf) (s : σ) : (drain body fd buf s).isSome := by
  induction hn : fd.length using Nat.strong_induction_on generalizing fd buf s with
  | _ n ih =>
    have hlen := sgxGetFdLine_length fd buf intBuf
    rw [drain_eq]
    dsimp only
    split_ifs with hgo
    · exact ih _ (by omega) _ _ _ rfl
    · rfl

def sent (bytes : List Byte) : Stream := bytes.map some

def crlf : List Byte := [cr, lf]

def headerText (lines : List (List Byte)) : List Byte := (lines.map (· ++ crlf)).flatten ++ crlf

def pieceRead (piece : List Byte) (buf : CharBuf) : CharBuf :=
  Function.update (store buf 0 piece) piece.length 0

theorem pieceRead_at {piece : List Byte} (buf : CharBuf) {j : ℕ} (h : j < piece.length) :
    pieceRead piece buf j = piece[j] := by
  have hstore := store_at piece buf 0 h
  rw [Nat.zero_add] at hstore
  rw [pieceRead, Function.update_of_ne (by omega), hstore]

theorem pieceRead_nul (piece : List Byte) (buf : CharBuf) :
    pieceRead piece buf piece.length = 0 := Function.update_self _ _ _

theorem pieceRead_above {piece : List Byte} (buf : CharBuf) {j : ℕ} (h : piece.length < j) :
    pieceRead piece buf j = buf j := by
  rw [pieceRead, Function.update_of_ne (by omega), store_beyond piece buf (by omega)]

theorem cells_pieceRead {piece : List Byte} (buf : CharBuf) {i n : ℕ}
    (h : i + n ≤ piece.length) : cells (pieceRead piece buf) i n = (piece.drop i).take n := by
  apply List.ext_getElem
  · simp only [cells, List.length_map, List.length_range', List.length_take, List.length_drop]
    omega
  · intro j hj hj'
    simp only [cells, List.length_map, List.length_range'] at hj
    simp only [cells, List.getElem_map, List.getElem_range', List.getElem_take, List.getElem_drop,
      Nat.one_mul]
    exact pieceRead_at buf (by omega)

theorem cells_pieceRead_nul {piece : List Byte} (buf : CharBuf) {room : ℕ}
    (h : piece.length < room) : ∃ later, cells (pieceRead piece buf) 0 room = piece ++ 0 :: later := by
  have hsplit := cells_append (pieceRead piece buf) 0 piece.length (room - piece.length)
  have hrest := cells_append (pieceRead piece buf) piece.length 1 (room - piece.length - 1)
  have hpiece : cells (pieceRead piece buf) 0 piece.length = piece := by
    rw [cells_pieceRead buf (by omega), List.drop_zero, List.take_length]
  have hnul : cells (pieceRead piece buf) piece.length 1 = [0] := by
    rw [cells, List.range'_one, List.map_singleton, pieceRead_nul]
  rw [Nat.zero_add, Nat.add_sub_of_le h.le, hpiece] at hsplit
  rw [Nat.add_sub_of_le (by omega), hnul] at hrest
  exact ⟨_, by rw [← hsplit, ← hrest]; rfl⟩

theorem cString_pieceRead {piece : List Byte} (buf : CharBuf) {room : ℕ}
    (h : piece.length < room) : cString (pieceRead piece buf) 0 room = piece.takeWhile (· ≠ 0) := by
  obtain ⟨later, hcells⟩ := cells_pieceRead_nul buf h
  rw [cString, hcells, takeWhile_nul]

theorem getFdLine_short {cs : List Byte} (hcr : cr ∉ cs) (hlen : cs.length < 1023) (fd : Stream)
    (buf : CharBuf) : sgxGetFdLine (sent cs ++ (sent crlf ++ fd)) buf intBuf =
      (cs.length, pieceRead cs buf, fd) := by
  have hroom : (intBuf - 1).toNat = 1023 := rfl
  obtain ⟨room, hr⟩ : ∃ k, 1023 - cs.length = k + 1 := ⟨1022 - cs.length, by omega⟩
  have hloop : getFdLineLoop 1023 (sent cs ++ (sent crlf ++ fd)) buf 0 =
      (store buf 0 cs, cs.length, fd) := by
    rw [sent, getFdLineLoop_append cs hcr hlen.le, hr, Nat.zero_add]
    rfl
  rw [sgxGetFdLine, hroom, hloop]
  rfl

theorem getFdLine_long {cs : List Byte} (hcr : cr ∉ cs) (hlen : cs.length = 1023) (fd : Stream)
    (buf : CharBuf) : sgxGetFdLine (sent cs ++ fd) buf intBuf =
      (cs.length, pieceRead cs buf, fd) := by
  have hroom : (intBuf - 1).toNat = 1023 := rfl
  have hloop : getFdLineLoop 1023 (sent cs ++ fd) buf 0 = (store buf 0 cs, cs.length, fd) := by
    rw [sent, getFdLineLoop_append cs hcr hlen.le, hlen, Nat.sub_self, Nat.zero_add]
    rfl
  rw [sgxGetFdLine, hroom, hloop]
  rfl

theorem piece_not_newline {cs : List Byte} (hne : cs ≠ []) (hlf : lf ∉ cs) (buf : CharBuf) :
    isNewline (pieceRead cs buf) = false := by
  obtain ⟨c, cs, rfl⟩ := List.exists_cons_of_ne_nil hne
  have hfirst : pieceRead (c :: cs) buf 0 = c := by
    rw [pieceRead, Function.update_of_ne (by simp), store, store_below _ _ Nat.one_pos,
      Function.update_self]
  rw [List.mem_cons, not_or] at hlf
  simp only [isNewline, hfirst, Ne.symm hlf.1, false_and, decide_false]

theorem drain_piece {cs : List Byte} (hcr : cr ∉ cs) (hlf : lf ∉ cs) (hlen : 1023 ≤ cs.length)
    (fd : Stream) (buf : CharBuf) (s : σ) : drain body (sent cs ++ fd) buf s =
      drain body (sent (cs.drop 1023) ++ fd) (body (pieceRead (cs.take 1023) buf) s).1
        (body (pieceRead (cs.take 1023) buf) s).2 := by
  have htake : (cs.take 1023).length = 1023 := by
    rw [List.length_take]
    omega
  have hne : cs.take 1023 ≠ [] := by
    rw [← List.length_pos_iff]
    omega
  have hsplit : sent cs ++ fd = sent (cs.take 1023) ++ (sent (cs.drop 1023) ++ fd) := by
    rw [← List.append_assoc, sent, sent, sent, ← List.map_append, List.take_append_drop]
  have hline := getFdLine_long (fun h => hcr (List.mem_of_mem_take h)) htake
    (sent (cs.drop 1023) ++ fd) buf
  have hnew := piece_not_newline hne (fun h => hlf (List.mem_of_mem_take h)) buf
  rw [hsplit, drain_eq, hline]
  dsimp only
  rw [hnew, if_pos ⟨by omega, Bool.false_ne_true⟩]

theorem drain_short {cs : List Byte} (hne : cs ≠ []) (hcr : cr ∉ cs) (hlf : lf ∉ cs)
    (hlen : cs.length < 1023) (fd : Stream) (buf : CharBuf) (s : σ) :
    drain body (sent cs ++ (sent crlf ++ fd)) buf s =
      drain body fd (body (pieceRead cs buf) s).1 (body (pieceRead cs buf) s).2 := by
  rw [drain_eq, getFdLine_short hcr hlen]
  dsimp only
  rw [piece_not_newline hne hlf, if_pos ⟨List.length_pos_iff.mpr hne, Bool.false_ne_true⟩]

theorem drain_empty (fd : Stream) (buf : CharBuf) (s : σ) :
    ∃ buf', drain body (sent crlf ++ fd) buf s = some (fd, buf', s) := by
  have hline := getFdLine_short (List.not_mem_nil (a := cr)) (by decide) fd buf
  rw [sent, List.map_nil, List.nil_append] at hline
  rw [drain_eq, hline]
  exact ⟨_, if_neg (fun h => absurd h.1 (Nat.lt_irrefl 0))⟩

theorem drain_line {cs : List Byte} (hcr : cr ∉ cs) (hlf : lf ∉ cs) (fd : Stream) (buf : CharBuf)
    (s : σ) : ∃ buf' s', drain body (sent cs ++ (sent crlf ++ fd)) buf s =
      if cs.length % 1023 = 0 then some (fd, buf', s') else drain body fd buf' s' := by
  induction hn : cs.length using Nat.strong_induction_on generalizing cs buf s with
  | _ n ih =>
    subst hn
    by_cases hlong : 1023 ≤ cs.length
    · have hdrop : (cs.drop 1023).length = cs.length - 1023 := List.length_drop
      have hmod : (cs.drop 1023).length % 1023 = cs.length % 1023 := by omega
      rw [drain_piece body hcr hlf hlong, ← hmod]
      exact ih _ (by omega) (fun h => hcr (List.mem_of_mem_drop h))
        (fun h => hlf (List.mem_of_mem_drop h)) _ _ rfl
    · by_cases hne : cs = []
      · subst hne
        obtain ⟨buf', h'⟩ := drain_empty body fd buf s
        exact ⟨buf', s, h'⟩
      · have hpos := List.length_pos_iff.mpr hne
        have hmod : cs.length % 1023 ≠ 0 := by omega
        simp only [if_neg hmod]
        exact ⟨_, _, drain_short body hne hcr hlf (by omega) fd buf s⟩

theorem drain_stops_at_the_empty_line_iff {lines : List (List Byte)}
    (hne : ∀ line ∈ lines, line ≠ []) (hcr : ∀ line ∈ lines, cr ∉ line)
    (hlf : ∀ line ∈ lines, lf ∉ line) (rest : Stream) (buf : CharBuf) (s : σ) :
    (∃ buf' s', drain body (sent (headerText lines) ++ rest) buf s = some (rest, buf', s')) ↔
      ∀ line ∈ lines, line.length % 1023 ≠ 0 := by
  induction lines generalizing buf s with
  | nil =>
    obtain ⟨buf', h'⟩ := drain_empty body rest buf s
    exact iff_of_true ⟨buf', s, h'⟩ (List.forall_mem_nil _)
  | cons line lines ih =>
    rw [List.forall_mem_cons] at hne hcr hlf
    have htext : sent (headerText (line :: lines)) ++ rest =
        sent line ++ (sent crlf ++ (sent (headerText lines) ++ rest)) := by
      simp [headerText, sent]
    obtain ⟨buf₁, s₁, h₁⟩ := drain_line body hcr.1 hlf.1 (sent (headerText lines) ++ rest) buf s
    rw [htext, h₁, List.forall_mem_cons]
    by_cases hmod : line.length % 1023 = 0
    · rw [if_pos hmod]
      refine iff_of_false ?_ (fun h => h.1 hmod)
      rintro ⟨buf', s', h'⟩
      have hfd : sent (headerText lines) ++ rest = rest := congrArg Prod.fst (Option.some.inj h')
      have hlen := congrArg List.length hfd
      have hpos : 0 < (sent (headerText lines)).length := by simp [headerText, sent, crlf]
      rw [List.length_append] at hlen
      omega
    · rw [if_neg hmod]
      simpa [hmod] using ih hne.2 hcr.2 hlf.2 buf₁ s₁

end loop

theorem drain_stops_after_host :
    let host := "Host: a".toList.map chr
    let content := "name=value".toList.map chr
    ∃ buf' s', drain (fun buf s => (buf, s)) (sent (headerText [host]) ++ sent content)
      (fun _ => 0) () = some (sent content, buf', s') := by
  intro host content
  apply (drain_stops_at_the_empty_line_iff _ _ _ _ _ _ _).mpr
  · exact (List.forall_mem_singleton).mpr (by decide)
  · exact (List.forall_mem_singleton).mpr (by decide)
  · exact (List.forall_mem_singleton).mpr (by decide)
  · exact (List.forall_mem_singleton).mpr (by decide)

theorem drain_stops_early :
    let long := List.replicate 1023 (chr 'a')
    let host := "Host: a".toList.map chr
    (∃ buf', skipHeaders (sent (headerText [long, host])) (fun _ => 0) =
      some (sent (headerText [host]), buf', ())) ∧
    ¬ ∃ buf', skipHeaders (sent (headerText [long, host])) (fun _ => 0) = some ([], buf', ()) := by
  intro long host
  have hlong : ∀ c ∈ long, c = chr 'a' := fun c hc => List.eq_of_mem_replicate hc
  have hcr : cr ∉ long := fun h => absurd (hlong cr h) (by decide)
  have hlf : lf ∉ long := fun h => absurd (hlong lf h) (by decide)
  have hlen : long.length % 1023 = 0 := by rw [List.length_replicate]
  have htext : sent (headerText [long, host]) =
      sent long ++ (sent crlf ++ sent (headerText [host])) := by
    simp [headerText, sent]
  obtain ⟨buf', s', h⟩ := drain_line (fun (buf : CharBuf) (s : Unit) => (buf, s)) hcr hlf
    (sent (headerText [host])) (fun _ => 0) ()
  rw [if_pos hlen, ← htext] at h
  have hstop : skipHeaders (sent (headerText [long, host])) (fun _ => 0) =
    some (sent (headerText [host]), buf', s') := h
  refine ⟨⟨buf', hstop⟩, ?_⟩
  rintro ⟨buf'', h'⟩
  rw [hstop] at h'
  have hfd := congrArg Prod.fst (Option.some.inj h')
  simp [headerText, sent, crlf] at hfd

end Sginx.Mini
