import Sginx.HeaderDrain
import Sginx.Library.Stdio

/-!
`sgx_send_file` of `test/sgx_mini.c`. A `write` takes all the bytes that it is given.
-/

namespace Sginx.Mini

open Sginx.Http (Byte chr)
open Sginx.Library.CString (takeWhile_append_eq_iff)
open Sginx.Library.Stdio

inductive SendEvent where
  | rsp400
  | rsp200
  | write (bytes : List Byte)
  | fclose (opened : Bool)
deriving DecidableEq, Repr

def sendLoop : ℕ → File → CharBuf → Option (List SendEvent)
  | 0, _, _ => none
  | fuel + 1, txt, buf =>
    if feof txt then some []
    else
      match fgets 1024 txt with
      | (none, _) => some []
      | (some line, txt) =>
        let buf := pieceRead line buf
        (sendLoop fuel txt buf).map (.write (cells buf 0 (strlen buf 0 1024)) :: ·)

/-- `content` is that of the file at `sgx_path`, or nothing where `fopen` fails. -/
def sgxSendFile (content : Option (List Byte)) (fd : Stream) (buf : CharBuf) :
    Option (List SendEvent × Stream) := do
  let (fd, buf, _) ← skipHeaders fd buf
  match content with
  | none => some ([.rsp400, .fclose false], fd)
  | some content =>
    let events ← sendLoop (content.length + 1) (fopen content) buf
    some (.rsp200 :: events ++ [.fclose true], fd)

def written (events : List SendEvent) : List Byte :=
  events.flatMap fun
    | .write bytes => bytes
    | _ => []

def writtenAfterHeader : List SendEvent → List Byte
  | .rsp200 :: events => written events
  | _ => []

theorem sendLoop_succ (fuel : ℕ) {txt : File} (h : txt.rest ≠ []) (heof : feof txt = false)
    (buf : CharBuf) :
    sendLoop (fuel + 1) txt buf =
      (sendLoop fuel ⟨(takeLine 1023 txt.rest).2.rest, (takeLine 1023 txt.rest).2.eof⟩
        (pieceRead (takeLine 1023 txt.rest).1 buf)).map
          (.write ((takeLine 1023 txt.rest).1.takeWhile (· ≠ 0)) :: ·) := by
  have hlen : (takeLine 1023 txt.rest).1.length < 1024 :=
    Nat.lt_succ_of_le (takeLine_length_le 1023 txt.rest)
  have hmark : txt.eof = false := heof
  rw [sendLoop, fgets_of_ne_nil 1022 h, heof, hmark]
  simp only [Bool.false_eq_true, if_false, cells_strlen, cString_pieceRead buf hlen, Bool.false_or]

theorem sendLoop_written (fuel : ℕ) {txt : File} (hlen : txt.rest.length < fuel)
    (hmark : feof txt = true → txt.rest = []) (buf : CharBuf) :
    ∃ events, sendLoop fuel txt buf = some events ∧
      (written events).length ≤ txt.rest.length ∧ (written events = txt.rest ↔ 0 ∉ txt.rest) := by
  induction fuel generalizing txt buf with
  | zero => exact absurd hlen (Nat.not_lt_zero _)
  | succ fuel ih =>
    by_cases hrest : txt.rest = []
    · refine ⟨[], ?_, Nat.zero_le _, ?_⟩
      · obtain ⟨rest, eof⟩ := txt
        obtain rfl : rest = [] := hrest
        rw [sendLoop, fgets_nil]
        split_ifs
        · rfl
        · rfl
      · rw [hrest]
        exact iff_of_true rfl List.not_mem_nil
    · have heof : feof txt = false := by
        rw [← Bool.not_eq_true]
        exact mt hmark hrest
      rw [sendLoop_succ fuel hrest heof]
      have happend := takeLine_append 1023 txt.rest
      have htaken := List.length_pos_iff.mpr (mt (takeLine_eq_nil_iff 1022 txt.rest).mp hrest)
      have hmark' := takeLine_eof 1023 txt.rest
      generalize (takeLine 1023 txt.rest).1 = line at *
      generalize (takeLine 1023 txt.rest).2 = after at *
      have hcount := congrArg List.length happend
      rw [List.length_append] at hcount
      obtain ⟨events, hloop, hle, hiff⟩ :=
        @ih ⟨after.rest, after.eof⟩ (by simp only; omega) hmark' (pieceRead line buf)
      have hcut : (line.takeWhile (· ≠ 0)).length ≤ line.length :=
        (List.takeWhile_prefix _).length_le
      refine ⟨_, congrArg (Option.map _) hloop, ?_, ?_⟩
      · rw [← hcount, written, List.flatMap_cons, List.length_append]
        exact Nat.add_le_add hcut hle
      · rw [← happend, written, List.flatMap_cons, ← written, takeWhile_append_eq_iff hle, hiff,
          List.mem_append, not_or]
        simp only [decide_eq_true_eq]
        refine and_congr_left fun _ => ?_
        exact ⟨fun h h0 => h 0 h0 rfl, fun h x hx hx0 => h (hx0 ▸ hx)⟩

theorem file_is_sent_iff (content : List Byte) (fd : Stream) (buf : CharBuf) :
    (∃ events rest, sgxSendFile (some content) fd buf = some (events, rest) ∧
      writtenAfterHeader events = content) ↔ 0 ∉ content := by
  obtain ⟨⟨rest, buf', u⟩, hskip⟩ :=
    Option.isSome_iff_exists.mp (drain_returns (fun buf s => (buf, s)) fd buf ())
  obtain ⟨events, hloop, -, hiff⟩ :=
    @sendLoop_written (content.length + 1) (fopen content) (Nat.lt_succ_self _)
      (fun h => absurd h Bool.false_ne_true) buf'
  have hrun : sgxSendFile (some content) fd buf = some (.rsp200 :: events ++ [.fclose true], rest) := by
    rw [sgxSendFile, skipHeaders, hskip]
    simp [hloop]
  have hwritten : writtenAfterHeader (.rsp200 :: events ++ [.fclose true]) = written events := by
    simp [writtenAfterHeader, written]
  rw [hrun, ← show written events = content ↔ 0 ∉ content from hiff, ← hwritten]
  constructor
  · rintro ⟨events', rest', heq, hsent⟩
    obtain rfl := congrArg Prod.fst (Option.some.inj heq)
    exact hsent
  · intro hsent
    exact ⟨_, _, rfl, hsent⟩

theorem nul_is_not_sent : ¬ ∃ events rest,
    sgxSendFile (some [chr 'a', 0, chr 'b']) [] (fun _ => 0) = some (events, rest) ∧
      writtenAfterHeader events = [chr 'a', 0, chr 'b'] := by
  rintro ⟨events, rest, hrun, hsent⟩
  have hevents : events = [.rsp200, .write [chr 'a'], .fclose true] :=
    (congrArg Prod.fst (Option.some.inj hrun)).symm
  rw [hevents] at hsent
  exact absurd hsent (by decide)

end Sginx.Mini
