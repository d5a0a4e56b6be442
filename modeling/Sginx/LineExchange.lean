import Sginx.Readline
import Sginx.Writeline

namespace Sginx.Rush

open Sginx.Http (Byte lf chr)
open Sginx.Mini (CharBuf cells pieceRead cells_append cells_pieceRead pieceRead_nul)

structure TextLine where
  text : List Byte
  lf_notMem : lf ∉ text

def TextLine.bytes (line : TextLine) : List Byte := line.text ++ [lf]

theorem TextLine.length_bytes (line : TextLine) : line.bytes.length = line.text.length + 1 := by
  rw [bytes, List.length_append, List.length_singleton]

structure LineWrite where
  line : TextLine
  buf : CharBuf
  results : List WriteResult
  holds : cells buf 0 line.bytes.length = line.bytes
  offered : Offered line.bytes.length results
  returned : (writeline line.bytes.length buf results).result = some (line.bytes.length : ℤ)

def LineWrite.accepted (write : LineWrite) : List Byte :=
  (writeline write.line.bytes.length write.buf write.results).state.accepted

theorem LineWrite.accepted_eq (write : LineWrite) : write.accepted = write.line.bytes := by
  have hstart : Sent write.buf write.line.bytes.length ⟨write.line.bytes.length, 0, []⟩ :=
    ⟨Nat.zero_add _, rfl⟩
  have hsent : Sent write.buf write.line.bytes.length
      (writeline write.line.bytes.length write.buf write.results).state :=
    hstart.loop write.offered
  have hleft : (writeline write.line.bytes.length write.buf write.results).state.left = 0 :=
    loop_returns_all write.returned
  have hsum := hsent.left
  rw [hleft, Nat.add_zero] at hsum
  rw [accepted, hsent.accepted, hsum]
  exact write.holds

def readLines (sgxMaxLen : ℕ) :
    List CharBuf → List ReadResult → Option (List ReadlineAnswer × List ReadResult)
  | [], results => some ([], results)
  | buf :: bufs, results =>
    (readline sgxMaxLen results buf).bind fun answer =>
      (readLines sgxMaxLen bufs answer.rest).map fun lines => (answer :: lines.1, lines.2)

structure GotLine (answer : ReadlineAnswer) (line : TextLine) : Prop where
  result : answer.result = line.bytes.length
  string : cells answer.buf 0 (line.bytes.length + 1) = line.bytes ++ [0]

theorem string_pieceRead (piece : List Byte) (buf : CharBuf) :
    cells (pieceRead piece buf) 0 (piece.length + 1) = piece ++ [0] := by
  have hpiece : cells (pieceRead piece buf) 0 piece.length = piece := by
    rw [cells_pieceRead buf (Nat.zero_add _).le, List.drop_zero, List.take_length]
  have hnul : cells (pieceRead piece buf) piece.length 1 = [0] := by
    rw [cells, List.range'_one, List.map_singleton, pieceRead_nul]
  have hsplit := cells_append (pieceRead piece buf) 0 piece.length 1
  rw [Nat.zero_add, hpiece, hnul] at hsplit
  exact hsplit.symm

theorem Stopped.bytes {room : ℕ} {cs : List Byte} {stop : LineStop} {answers : List ReadResult}
    (h : Stopped room cs stop answers) (hstop : stop = .full ∨ stop = .newline) :
    answers = cs.map .byte := by
  cases h with
  | full => rfl
  | newline => rw [List.map_append, List.map_singleton]
  | endOfFile => rcases hstop with h | h <;> cases h
  | error => rcases hstop with h | h <;> cases h

theorem readline_taken {sgxMaxLen : ℕ} (hmax : 1 ≤ sgxMaxLen) {cs : List Byte} {stop : LineStop}
    (hkind : stop = .full ∨ stop = .newline)
    (hstop : Stopped (sgxMaxLen - 1) cs stop (cs.map .byte)) {results later : List ReadResult}
    (hheard : heard results = cs.map .byte ++ later) (buf : CharBuf) :
    ∃ answer, readline sgxMaxLen results buf = some answer ∧
      answer.result = stop.result cs.length ∧ answer.buf = pieceRead cs buf ∧
      heard answer.rest = later := by
  have hread := lineRead_heard results (sgxMaxLen - 1)
  rw [hheard, hstop.lineRead later, Option.map_some, eq_comm, Option.map_eq_some_iff] at hread
  obtain ⟨⟨cs', stop', rest⟩, hread, heq⟩ := hread
  cases heq
  obtain ⟨consumed, rfl, hconsumed⟩ := lineRead_stopped hread
  refine ⟨lineAnswer buf 0 (cs, stop, rest), ?_, ?_, ?_, ?_⟩
  · rw [readline_eq hmax, hread, Option.map_some]
  · simp only [lineAnswer, Nat.zero_add]
  · have hends : stop.ends cs.length = true := by
      rcases hkind with rfl | rfl <;> rfl
    simp only [lineAnswer, Nat.zero_add, hends, if_true]
    rfl
  · rw [heard_append, hconsumed.bytes hkind] at hheard
    exact List.append_cancel_left hheard

theorem readline_line {sgxMaxLen : ℕ} {line : TextLine} (hfits : line.bytes.length < sgxMaxLen)
    {results later : List ReadResult} (hheard : heard results = line.bytes.map .byte ++ later)
    (buf : CharBuf) : ∃ answer, readline sgxMaxLen results buf = some answer ∧
      GotLine answer line ∧ heard answer.rest = later := by
  have hlen := line.length_bytes
  have hstop : Stopped (sgxMaxLen - 1) line.bytes .newline (line.bytes.map .byte) := by
    rw [TextLine.bytes, List.map_append]
    exact .newline line.lf_notMem (by omega)
  obtain ⟨answer, hread, hresult, hbuf, hrest⟩ :=
    readline_taken (by omega) (.inr rfl) hstop hheard buf
  refine ⟨answer, hread, ⟨hresult, ?_⟩, hrest⟩
  rw [hbuf, string_pieceRead]

theorem readline_long {sgxMaxLen : ℕ} (hmax : 1 ≤ sgxMaxLen) {line : TextLine}
    (hlong : sgxMaxLen ≤ line.bytes.length) {results later : List ReadResult}
    (hheard : heard results = line.bytes.map .byte ++ later) (buf : CharBuf)
    {answer : ReadlineAnswer} (hanswer : readline sgxMaxLen results buf = some answer) :
    ¬ GotLine answer line := by
  intro hgot
  have hlen := line.length_bytes
  have hshort : (line.text.take (sgxMaxLen - 1)).length = sgxMaxLen - 1 := by
    rw [List.length_take]
    omega
  have hstop : Stopped (sgxMaxLen - 1) (line.text.take (sgxMaxLen - 1)) .full
      ((line.text.take (sgxMaxLen - 1)).map .byte) :=
    .full (fun h => line.lf_notMem (List.mem_of_mem_take h)) hshort
  have hsplit : heard results = (line.text.take (sgxMaxLen - 1)).map .byte ++
      ((line.text.drop (sgxMaxLen - 1) ++ [lf]).map .byte ++ later) := by
    rw [hheard, TextLine.bytes, ← List.append_assoc, ← List.map_append, ← List.append_assoc,
      List.take_append_drop]
  obtain ⟨answer', hread, hresult, hbuf, -⟩ := readline_taken hmax (.inl rfl) hstop hsplit buf
  obtain rfl := Option.some.inj (hanswer.symm.trans hread)
  rw [hgot.result, hshort, LineStop.result] at hresult
  have htext : line.text.length = sgxMaxLen - 1 := by omega
  have hall : line.text.take (sgxMaxLen - 1) = line.text := List.take_of_length_le htext.le
  have hstring := hgot.string
  have hcells := cells_append answer.buf 0 (line.text.length + 1) 1
  rw [hlen, ← hcells, hbuf, hall, string_pieceRead, TextLine.bytes, List.append_assoc,
    List.append_assoc] at hstring
  have hnul : (0 : Byte) = lf := (List.cons.inj (List.append_cancel_left hstring)).1
  exact absurd hnul (by decide)

theorem lines_read_back_iff {sgxMaxLen : ℕ} (hmax : 1 ≤ sgxMaxLen)
    (exchange : List (LineWrite × CharBuf)) : ∀ {results later : List ReadResult},
    heard results = ((exchange.map fun e => e.1.accepted).flatten).map .byte ++ later →
    ((∃ answers rest, readLines sgxMaxLen (exchange.map (·.2)) results = some (answers, rest) ∧
        heard rest = later ∧ List.Forall₂ GotLine answers (exchange.map (·.1.line))) ↔
      ∀ e ∈ exchange, e.1.line.bytes.length < sgxMaxLen) := by
  induction exchange with
  | nil =>
    intro results later hheard
    exact iff_of_true ⟨[], results, rfl, hheard, .nil⟩ (List.forall_mem_nil _)
  | cons e exchange ih =>
    intro results later hheard
    rw [List.map_cons, List.flatten_cons, List.map_append, List.append_assoc,
      LineWrite.accepted_eq] at hheard
    rw [List.forall_mem_cons]
    by_cases hfits : e.1.line.bytes.length < sgxMaxLen
    · obtain ⟨answer, hread, hgot, hrest⟩ := readline_line hfits hheard e.2
      rw [and_iff_right hfits, ← ih hrest]
      simp only [List.map_cons, readLines, hread, Option.bind_some, Option.map_eq_some_iff]
      constructor
      · rintro ⟨answers, rest, ⟨⟨answers', rest'⟩, hlines, heq⟩, hlater, hall⟩
        cases heq
        exact ⟨answers', rest', hlines, hlater, (List.forall₂_cons.mp hall).2⟩
      · rintro ⟨answers, rest, hlines, hlater, hall⟩
        exact ⟨answer :: answers, rest, ⟨_, hlines, rfl⟩, hlater, .cons hgot hall⟩
    · refine iff_of_false ?_ (fun h => hfits h.1)
      rintro ⟨answers, rest, hlines, -, hall⟩
      simp only [List.map_cons, readLines, Option.bind_eq_some_iff,
        Option.map_eq_some_iff] at hlines
      obtain ⟨answer, hread, lines, -, heq⟩ := hlines
      cases heq
      exact readline_long hmax (Nat.le_of_not_lt hfits) hheard e.2 hread
        (List.forall₂_cons.mp hall).1

theorem lines_read_back_two :
    let line : TextLine := ⟨[chr 'a'], by decide⟩
    let write : LineWrite :=
      ⟨line, pieceRead line.bytes (fun _ => 0), [⟨1, 0⟩, ⟨1, 0⟩], rfl,
        fun _ => ⟨by decide, fun _ => ⟨by decide, trivial⟩⟩, by decide⟩
    let results : List ReadResult :=
      [.byte (chr 'a'), .interrupted, .byte lf, .byte (chr 'a'), .byte lf, .endOfFile]
    heard results = ([write.accepted, write.accepted].flatten).map .byte ++ [.endOfFile] ∧
      ∃ answers rest, readLines 3 [fun _ => 0, fun _ => 0] results = some (answers, rest) ∧
        heard rest = [.endOfFile] ∧ List.Forall₂ GotLine answers [line, line] := by
  intro line write results
  have hheard : heard results = ([write.accepted, write.accepted].flatten).map .byte ++
      [.endOfFile] := by decide
  refine ⟨hheard, ?_⟩
  apply (lines_read_back_iff (by decide) [(write, fun _ => 0), (write, fun _ => 0)] hheard).mpr
  intro e he
  have hline : e.1.line = line := by
    rw [List.mem_cons, List.mem_singleton, or_self] at he
    rw [he]
  rw [hline]
  decide

end Sginx.Rush
