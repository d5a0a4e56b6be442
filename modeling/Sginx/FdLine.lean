import Mathlib.Data.List.ReduceOption
import Sginx.HeaderDrain

namespace Sginx.Mini

open Sginx.Http (Byte cr lf chr)

inductive LineTaken (room : ℕ) : List Byte → List Byte → Stream → Prop
  | full {cs : List Byte} {after : Stream} (hcr : cr ∉ cs) (hlen : cs.length = room) :
    LineTaken room cs cs after
  | ended {cs : List Byte} {after : Stream} (hcr : cr ∉ cs) (hlen : cs.length ≤ room)
    (hnext : (peek after).1 = none) : LineTaken room cs cs after
  | broken {cs : List Byte} {after : Stream} (hcr : cr ∉ cs) (hlen : cs.length < room) :
    LineTaken room (cs ++ [cr, lf]) cs after
  | lone {cs : List Byte} {after : Stream} (hcr : cr ∉ cs) (hlen : cs.length < room)
    (hnext : (peek after).1 ≠ some lf) : LineTaken room (cs ++ [cr]) (cs ++ [lf]) after

variable {room : ℕ} {taken stored : List Byte} {after : Stream}

theorem LineTaken.length_le (h : LineTaken room taken stored after) : stored.length ≤ room := by
  cases h with
  | full hcr hlen => exact hlen.le
  | ended hcr hlen hnext => exact hlen
  | broken hcr hlen => exact hlen.le
  | lone hcr hlen hnext =>
    rw [List.length_append]
    exact hlen

theorem LineTaken.cons (h : LineTaken room taken stored after) {c : Byte} (hc : c ≠ cr) :
    LineTaken (room + 1) (c :: taken) (c :: stored) after := by
  have hnot : ∀ {cs : List Byte}, cr ∉ cs → cr ∉ c :: cs :=
    List.not_mem_cons_of_ne_of_not_mem hc.symm
  cases h with
  | full hcr hlen => exact .full (hnot hcr) (congrArg Nat.succ hlen)
  | ended hcr hlen hnext => exact .ended (hnot hcr) (Nat.succ_le_succ hlen) hnext
  | broken hcr hlen => exact .broken (hnot hcr) (Nat.succ_lt_succ hlen)
  | lone hcr hlen hnext => exact .lone (hnot hcr) (Nat.succ_lt_succ hlen) hnext

def Behind (after rest : Stream) : Prop := rest = after ∨ after = none :: rest

theorem lineBreak_taken (fd : Stream) (buf : CharBuf) (tail room : ℕ) :
    ∃ taken stored after, some cr :: fd = sent taken ++ after ∧
      LineTaken (room + 1) taken stored after ∧ Behind after (lineBreak fd buf tail).2.2 ∧
      (lineBreak fd buf tail).1 = store buf tail stored ∧
      (lineBreak fd buf tail).2.1 = tail + stored.length := by
  have hnil : cr ∉ ([] : List Byte) := List.not_mem_nil
  have hpos : ([] : List Byte).length < room + 1 := Nat.succ_pos room
  cases fd with
  | nil => exact ⟨[cr], [lf], [], rfl, .lone hnil hpos nofun, .inl rfl, rfl, rfl⟩
  | cons answer fd =>
    cases answer with
    | none => exact ⟨[cr], [lf], none :: fd, rfl, .lone hnil hpos nofun, .inr rfl, rfl, rfl⟩
    | some c =>
      by_cases hlf : c = lf
      · subst hlf
        exact ⟨[cr, lf], [], fd, rfl, .broken hnil hpos, .inl rfl, rfl, rfl⟩
      · have hbreak : lineBreak (some c :: fd) buf tail =
            (Function.update buf tail lf, tail + 1, some c :: fd) := if_neg hlf
        rw [hbreak]
        exact ⟨[cr], [lf], some c :: fd, rfl, .lone hnil hpos (fun h => hlf (Option.some.inj h)),
          .inl rfl, rfl, rfl⟩

theorem getFdLineLoop_taken (room : ℕ) (fd : Stream) (buf : CharBuf) (tail : ℕ) :
    ∃ taken stored after, fd = sent taken ++ after ∧ LineTaken room taken stored after ∧
      Behind after (getFdLineLoop room fd buf tail).2.2 ∧
      (getFdLineLoop room fd buf tail).1 = store buf tail stored ∧
      (getFdLineLoop room fd buf tail).2.1 = tail + stored.length := by
  have hnil : cr ∉ ([] : List Byte) := List.not_mem_nil
  induction room generalizing fd buf tail with
  | zero => exact ⟨[], [], fd, rfl, .full hnil rfl, .inl rfl, rfl, rfl⟩
  | succ room ih =>
    cases fd with
    | nil => exact ⟨[], [], [], rfl, .ended hnil (Nat.zero_le _) rfl, .inl rfl, rfl, rfl⟩
    | cons answer fd =>
      cases answer with
      | none =>
        exact ⟨[], [], none :: fd, rfl, .ended hnil (Nat.zero_le _) rfl, .inr rfl, rfl, rfl⟩
      | some c =>
        rw [getFdLineLoop_cons]
        split_ifs with hcr
        · subst hcr
          exact lineBreak_taken fd buf tail room
        · obtain ⟨taken, stored, after, hfd, hline, hbehind, hbuf, htail⟩ :=
            ih fd (Function.update buf tail c) (tail + 1)
          refine ⟨c :: taken, c :: stored, after, ?_, hline.cons hcr, hbehind, hbuf, ?_⟩
          · rw [hfd]
            rfl
          · rw [htail, List.length_cons]
            omega

structure LineCall where
  buf : CharBuf
  size : ℤ

structure LineReturned (fd : Stream) (call : LineCall) (taken stored : List Byte) (after : Stream)
    (line : ℕ × CharBuf × Stream) : Prop where
  stream : fd = sent taken ++ after
  rest : Behind after line.2.2
  kind : LineTaken (call.size - 1).toNat taken stored after
  length : line.1 = stored.length
  bound : (line.1 : ℤ) ≤ call.size - 1
  buf : line.2.1 = Function.update (store call.buf 0 stored) stored.length 0
  beyond : ∀ j : ℕ, call.size ≤ j → line.2.1 j = call.buf j

theorem getFdLine_returned (fd : Stream) {call : LineCall} (hsize : 2 ≤ call.size) :
    ∃ taken stored after,
      LineReturned fd call taken stored after (sgxGetFdLine fd call.buf call.size) := by
  obtain ⟨taken, stored, after, hfd, hline, hbehind, hbuf, htail⟩ :=
    getFdLineLoop_taken (call.size - 1).toNat fd call.buf 0
  rw [Nat.zero_add] at htail
  have hlen := hline.length_le
  have hstored : (sgxGetFdLine fd call.buf call.size).2.1 =
      Function.update (store call.buf 0 stored) stored.length 0 := by
    rw [← hbuf, ← htail]
    rfl
  refine ⟨taken, stored, after, hfd, hbehind, hline, htail, ?_, hstored, ?_⟩
  · have hcount : (sgxGetFdLine fd call.buf call.size).1 = stored.length := htail
    omega
  · intro j hj
    rw [hstored, Function.update_of_ne (by omega), store_beyond stored _ (by omega)]

def bytesLeft (fd : Stream) : List Byte := fd.reduceOption

theorem LineReturned.bytesLeft {fd : Stream} {call : LineCall} {line : ℕ × CharBuf × Stream}
    (h : LineReturned fd call taken stored after line) :
    bytesLeft fd = taken ++ bytesLeft line.2.2 := by
  have hsent : (sent taken).reduceOption = taken := by
    rw [sent, List.reduceOption, List.filterMap_map]
    exact List.filterMap_some
  have hafter : after.reduceOption = line.2.2.reduceOption := by
    rcases h.rest with hrest | hrest
    · rw [hrest]
    · rw [hrest, List.reduceOption_cons_of_none]
  rw [Mini.bytesLeft, h.stream, List.reduceOption_append, hsent, hafter]
  rfl

def streamAfter : List LineCall → Stream → Stream
  | [], fd => fd
  | call :: calls, fd => streamAfter calls (sgxGetFdLine fd call.buf call.size).2.2

def LinesReturned : List LineCall → Stream → List (List Byte) → Prop
  | [], _, lines => lines = []
  | call :: calls, fd, lines =>
    ∃ taken later, lines = taken :: later ∧
      (∃ stored after,
        LineReturned fd call taken stored after (sgxGetFdLine fd call.buf call.size)) ∧
      LinesReturned calls (sgxGetFdLine fd call.buf call.size).2.2 later

theorem get_fd_line_loses_nothing {calls : List LineCall} (hsize : ∀ call ∈ calls, 2 ≤ call.size)
    (fd : Stream) : ∃ lines, LinesReturned calls fd lines ∧
      bytesLeft fd = lines.flatten ++ bytesLeft (streamAfter calls fd) := by
  induction calls generalizing fd with
  | nil => exact ⟨[], rfl, rfl⟩
  | cons call calls ih =>
    rw [List.forall_mem_cons] at hsize
    obtain ⟨taken, stored, after, hline⟩ := getFdLine_returned fd hsize.1
    obtain ⟨lines, hlines, hbytes⟩ := ih hsize.2 (sgxGetFdLine fd call.buf call.size).2.2
    refine ⟨taken :: lines, ⟨taken, lines, rfl, ⟨stored, after, hline⟩, hlines⟩, ?_⟩
    rw [hline.bytesLeft, hbytes, List.flatten_cons, List.append_assoc]
    rfl

theorem get_fd_line_loses_nothing_lone_cr :
    let calls : List LineCall := [⟨fun _ => 0, 2⟩, ⟨fun _ => 0, 2⟩, ⟨fun _ => 0, 1024⟩]
    let fd := sent [chr 'a', cr, chr 'b', cr, lf]
    (∀ call ∈ calls, 2 ≤ call.size) ∧ ∃ lines, LinesReturned calls fd lines ∧
      bytesLeft fd = lines.flatten ++ bytesLeft (streamAfter calls fd) := by
  intro calls fd
  have hsize : ∀ call ∈ calls, 2 ≤ call.size := by
    simp [calls]
  exact ⟨hsize, get_fd_line_loses_nothing hsize fd⟩

end Sginx.Mini
