import Sginx.HeaderDrain
import Sginx.Rush

namespace Sginx.Rush

open Sginx.Http (Byte lf chr)
open Sginx.Mini (CharBuf store)

inductive LineStop where
  | full
  | newline
  | endOfFile
  | error
deriving DecidableEq, Repr

def lineRead : ℕ → List ReadResult → Option (List Byte × LineStop × List ReadResult)
  | 0, results => some ([], .full, results)
  | _ + 1, [] => none
  | room + 1, .byte c :: rest =>
    if c = lf then some ([lf], .newline, rest)
    else (lineRead room rest).map fun line => (c :: line.1, line.2)
  | room + 1, .interrupted :: rest => lineRead (room + 1) rest
  | _ + 1, .endOfFile :: rest => some ([], .endOfFile, rest)
  | _ + 1, .error :: rest => some ([], .error, rest)

def LineStop.result : LineStop → ℕ → ℤ
  | .full, stored => stored + 1
  | .newline, stored => stored
  | .endOfFile, stored => if stored = 0 then 0 else stored + 1
  | .error, _ => -1

def LineStop.ends : LineStop → ℕ → Bool
  | .full, _ => true
  | .newline, _ => true
  | .endOfFile, stored => stored ≠ 0
  | .error, _ => false

def lineAnswer (buf : CharBuf) (stored : ℕ) (line : List Byte × LineStop × List ReadResult) :
    ReadlineAnswer :=
  let tail := stored + line.1.length
  let stop := line.2.1
  ⟨stop.result tail,
    if stop.ends tail then Function.update (store buf stored line.1) tail 0
    else store buf stored line.1,
    tail, line.2.2⟩

theorem lineAnswer_cons (buf : CharBuf) (stored : ℕ) (c : Byte)
    (line : List Byte × LineStop × List ReadResult) :
    lineAnswer buf stored (c :: line.1, line.2) =
      lineAnswer (Function.update buf stored c) (stored + 1) line := by
  have htail : stored + (line.1.length + 1) = stored + 1 + line.1.length := by omega
  simp only [lineAnswer, List.length_cons, store, htail]

theorem readlineLoop_eq (results : List ReadResult) {sgxMaxLen room : ℕ} {stored : ℕ}
    (hroom : stored + 1 + room = sgxMaxLen) (buf : CharBuf) :
    readlineLoop sgxMaxLen results (stored + 1) buf stored =
      (lineRead room results).map (lineAnswer buf stored) := by
  induction results generalizing room stored buf with
  | nil =>
    cases room with
    | zero =>
      rw [readlineLoop, if_neg (by omega)]
      rfl
    | succ room =>
      rw [readlineLoop, if_pos (by omega)]
      rfl
  | cons result rest ih =>
    cases room with
    | zero =>
      unfold readlineLoop
      rw [if_neg (by omega)]
      rfl
    | succ room =>
      unfold readlineLoop
      rw [if_pos (by omega)]
      cases result with
      | byte c =>
        dsimp only
        rw [lineRead]
        split_ifs with hlf
        · subst hlf
          rfl
        · have hrest : stored + 1 + 1 + room = sgxMaxLen := by omega
          rw [ih hrest, Option.map_map]
          congr 1
          funext line
          exact (lineAnswer_cons buf stored c line).symm
      | interrupted => exact ih hroom buf
      | endOfFile =>
        dsimp only
        rw [lineRead, Option.map_some]
        split_ifs with hfirst
        · obtain rfl : stored = 0 := by omega
          rfl
        · have hpos : stored ≠ 0 := by omega
          simp [lineAnswer, LineStop.result, LineStop.ends, readlineEnd, store, hpos]
      | error => rfl

theorem readline_eq {sgxMaxLen : ℕ} (hmax : 1 ≤ sgxMaxLen) (results : List ReadResult)
    (buf : CharBuf) :
    readline sgxMaxLen results buf =
      (lineRead (sgxMaxLen - 1) results).map (lineAnswer buf 0) :=
  readlineLoop_eq results (by omega) buf

def bytesOf (results : List ReadResult) : List Byte :=
  results.filterMap fun
    | .byte c => some c
    | _ => none

def heard (results : List ReadResult) : List ReadResult :=
  results.filter (· ≠ .interrupted)

theorem heard_append (xs ys : List ReadResult) : heard (xs ++ ys) = heard xs ++ heard ys :=
  List.filter_append xs ys

theorem bytesOf_heard (results : List ReadResult) : bytesOf (heard results) = bytesOf results := by
  induction results with
  | nil => rfl
  | cons result rest ih =>
    cases result with
    | byte c => exact congrArg (c :: ·) ih
    | interrupted => exact ih
    | endOfFile => exact ih
    | error => exact ih

theorem bytesOf_append (xs ys : List ReadResult) : bytesOf (xs ++ ys) = bytesOf xs ++ bytesOf ys :=
  List.filterMap_append

theorem bytesOf_map (cs : List Byte) : bytesOf (cs.map .byte) = cs := by
  induction cs with
  | nil => rfl
  | cons c cs ih => exact congrArg (c :: ·) ih

inductive Stopped (room : ℕ) : List Byte → LineStop → List ReadResult → Prop
  | full {cs : List Byte} (hlf : lf ∉ cs) (hlen : cs.length = room) :
    Stopped room cs .full (cs.map .byte)
  | newline {cs : List Byte} (hlf : lf ∉ cs) (hlen : cs.length < room) :
    Stopped room (cs ++ [lf]) .newline (cs.map .byte ++ [.byte lf])
  | endOfFile {cs : List Byte} (hlf : lf ∉ cs) (hlen : cs.length < room) :
    Stopped room cs .endOfFile (cs.map .byte ++ [.endOfFile])
  | error {cs : List Byte} (hlf : lf ∉ cs) (hlen : cs.length < room) :
    Stopped room cs .error (cs.map .byte ++ [.error])

theorem Stopped.cons {room : ℕ} {cs : List Byte} {stop : LineStop} {answers : List ReadResult}
    (h : Stopped room cs stop answers) {c : Byte} (hc : c ≠ lf) :
    Stopped (room + 1) (c :: cs) stop (.byte c :: answers) := by
  have hnot : ∀ {cs : List Byte}, lf ∉ cs → lf ∉ c :: cs :=
    List.not_mem_cons_of_ne_of_not_mem hc.symm
  cases h with
  | full hlf hlen => exact .full (hnot hlf) (congrArg Nat.succ hlen)
  | newline hlf hlen => exact .newline (hnot hlf) (Nat.succ_lt_succ hlen)
  | endOfFile hlf hlen => exact .endOfFile (hnot hlf) (Nat.succ_lt_succ hlen)
  | error hlf hlen => exact .error (hnot hlf) (Nat.succ_lt_succ hlen)

theorem lineRead_stopped {results : List ReadResult} {room : ℕ} {cs : List Byte} {stop : LineStop}
    {rest : List ReadResult} (h : lineRead room results = some (cs, stop, rest)) :
    ∃ consumed, results = consumed ++ rest ∧ Stopped room cs stop (heard consumed) := by
  induction results generalizing room cs with
  | nil =>
    cases room with
    | zero =>
      cases h
      exact ⟨[], rfl, .full List.not_mem_nil rfl⟩
    | succ room => cases h
  | cons result later ih =>
    cases room with
    | zero =>
      cases h
      exact ⟨[], rfl, .full List.not_mem_nil rfl⟩
    | succ room =>
      cases result with
      | byte c =>
        rw [lineRead] at h
        split_ifs at h with hlf
        · cases h
          subst hlf
          exact ⟨[.byte lf], rfl, .newline List.not_mem_nil (Nat.succ_pos room)⟩
        · obtain ⟨⟨cs', stop', rest'⟩, hline, heq⟩ := Option.map_eq_some_iff.mp h
          cases heq
          obtain ⟨consumed, rfl, hstop⟩ := ih hline
          exact ⟨.byte c :: consumed, rfl, hstop.cons hlf⟩
      | interrupted =>
        obtain ⟨consumed, rfl, hstop⟩ := ih h
        exact ⟨.interrupted :: consumed, rfl, hstop⟩
      | endOfFile =>
        cases h
        exact ⟨[.endOfFile], rfl, .endOfFile List.not_mem_nil (Nat.succ_pos room)⟩
      | error =>
        cases h
        exact ⟨[.error], rfl, .error List.not_mem_nil (Nat.succ_pos room)⟩

theorem lineRead_append {cs : List Byte} (hlf : lf ∉ cs) {room : ℕ} (hlen : cs.length ≤ room)
    (rest : List ReadResult) : lineRead room (cs.map .byte ++ rest) =
      (lineRead (room - cs.length) rest).map fun line => (cs ++ line.1, line.2) := by
  induction cs generalizing room with
  | nil => exact Option.map_id'.symm
  | cons c cs ih =>
    rw [List.mem_cons, not_or] at hlf
    obtain ⟨room, rfl⟩ : ∃ k, room = k + 1 := Nat.exists_eq_add_one.mpr (by grind)
    rw [List.map_cons, List.cons_append, lineRead, if_neg (Ne.symm hlf.1),
      ih hlf.2 (Nat.le_of_succ_le_succ hlen), Option.map_map, List.length_cons,
      Nat.succ_sub_succ]
    rfl

theorem lineRead_heard (results : List ReadResult) (room : ℕ) :
    (lineRead room (heard results)).map (fun line => (line.1, line.2.1)) =
      (lineRead room results).map fun line => (line.1, line.2.1) := by
  induction results generalizing room with
  | nil => rfl
  | cons result rest ih =>
    cases room with
    | zero => simp [lineRead]
    | succ room =>
      cases result with
      | byte c =>
        have hcons := congrArg (Option.map fun line => (c :: line.1, line.2)) (ih room)
        simp only [Option.map_map, Function.comp_def] at hcons
        change Option.map _ (lineRead (room + 1) (.byte c :: heard rest)) = _
        rw [lineRead, lineRead]
        split_ifs
        · rfl
        · simpa only [Option.map_map, Function.comp_def] using hcons
      | interrupted => exact ih (room + 1)
      | endOfFile => rfl
      | error => rfl

theorem Stopped.lineRead {room : ℕ} {cs : List Byte} {stop : LineStop} {answers : List ReadResult}
    (h : Stopped room cs stop answers) (rest : List ReadResult) :
    lineRead room (answers ++ rest) = some (cs, stop, rest) := by
  have hroom : ∀ {cs : List Byte}, cs.length < room → ∃ k, room - cs.length = k + 1 :=
    fun hlen => Nat.exists_eq_add_one.mpr (Nat.sub_pos_of_lt hlen)
  cases h with
  | full hlf hlen =>
    rw [lineRead_append hlf hlen.le, hlen, Nat.sub_self, Rush.lineRead]
    simp
  | newline hlf hlen =>
    obtain ⟨k, hk⟩ := hroom hlen
    rw [List.append_assoc, lineRead_append hlf hlen.le, hk]
    rfl
  | endOfFile hlf hlen =>
    obtain ⟨k, hk⟩ := hroom hlen
    rw [List.append_assoc, lineRead_append hlf hlen.le, hk]
    simp [Rush.lineRead]
  | error hlf hlen =>
    obtain ⟨k, hk⟩ := hroom hlen
    rw [List.append_assoc, lineRead_append hlf hlen.le, hk]
    simp [Rush.lineRead]

structure Reported (sgxMaxLen : ℕ) (buf : CharBuf) (consumed : List ReadResult)
    (answer : ReadlineAnswer) : Prop where
  result : answer.result = answer.stored
  stored : answer.stored = (bytesOf consumed).length
  buf : answer.buf =
    if answer.stored = 0 then buf
    else Function.update (store buf 0 (bytesOf consumed)) answer.stored 0
  bound : answer.stored ≤ sgxMaxLen - 1
  newline : lf ∉ (bytesOf consumed).dropLast
  short : answer.stored < sgxMaxLen - 1 →
    (bytesOf consumed).getLast? = some lf ∨ .endOfFile ∈ consumed

def Reports (sgxMaxLen : ℕ) (results : List ReadResult) (buf : CharBuf) : Prop :=
  ∀ answer, readline sgxMaxLen results buf = some answer → 0 ≤ answer.result →
    ∃ consumed, results = consumed ++ answer.rest ∧ Reported sgxMaxLen buf consumed answer

/-- Before a newline has come, the buffer is full, or the stream ends behind some bytes. -/
def EndsOutOfLine (sgxMaxLen : ℕ) (results : List ReadResult) : Prop :=
  ∃ cs : List Byte, lf ∉ cs ∧
    (cs.length + 1 = sgxMaxLen ∧ cs.map .byte <+: heard results ∨
      cs ≠ [] ∧ cs.length + 1 < sgxMaxLen ∧ cs.map .byte ++ [.endOfFile] <+: heard results)

theorem endsOutOfLine_iff {sgxMaxLen : ℕ} (hmax : 1 ≤ sgxMaxLen) {results : List ReadResult} :
    EndsOutOfLine sgxMaxLen results ↔ ∃ cs stop rest,
      lineRead (sgxMaxLen - 1) results = some (cs, stop, rest) ∧
        (stop = .full ∨ stop = .endOfFile ∧ cs ≠ []) := by
  constructor
  · intro h
    have hstop : ∃ cs stop answers, Stopped (sgxMaxLen - 1) cs stop answers ∧
        answers <+: heard results ∧ (stop = .full ∨ stop = .endOfFile ∧ cs ≠ []) := by
      obtain ⟨cs, hlf, ⟨hlen, hpre⟩ | ⟨hne, hlen, hpre⟩⟩ := h
      · exact ⟨cs, .full, _, .full hlf (by omega), hpre, .inl rfl⟩
      · exact ⟨cs, .endOfFile, _, .endOfFile hlf (by omega), hpre, .inr ⟨rfl, hne⟩⟩
    obtain ⟨cs, stop, answers, hstop, ⟨tail, htail⟩, hkind⟩ := hstop
    have hread := lineRead_heard results (sgxMaxLen - 1)
    rw [← htail, hstop.lineRead tail, Option.map_some, eq_comm, Option.map_eq_some_iff] at hread
    obtain ⟨⟨cs', stop', rest⟩, hread, heq⟩ := hread
    cases heq
    exact ⟨cs, stop, rest, hread, hkind⟩
  · rintro ⟨cs, stop, rest, hread, hkind⟩
    obtain ⟨consumed, rfl, hstop⟩ := lineRead_stopped hread
    rw [EndsOutOfLine]
    have hpre : heard consumed <+: heard (consumed ++ rest) := by
      rw [heard_append]
      exact List.prefix_append _ _
    generalize heard consumed = answers at hstop hpre
    rcases hkind with rfl | ⟨rfl, hne⟩
    · cases hstop with
      | full hlf hlen => exact ⟨cs, hlf, .inl ⟨by omega, hpre⟩⟩
    · cases hstop with
      | endOfFile hlf hlen => exact ⟨cs, hlf, .inr ⟨hne, by omega, hpre⟩⟩

theorem reported_newline {sgxMaxLen : ℕ} {cs : List Byte} {consumed rest : List ReadResult}
    (buf : CharBuf) (h : Stopped (sgxMaxLen - 1) cs .newline (heard consumed)) :
    Reported sgxMaxLen buf consumed (lineAnswer buf 0 (cs, .newline, rest)) := by
  have hbytes := bytesOf_heard consumed
  generalize heard consumed = answers at h hbytes
  cases h with
  | @newline cs hlf hlen =>
    have hcs : bytesOf consumed = cs ++ [lf] := by
      rw [← hbytes, bytesOf_append, bytesOf_map]
      rfl
    have hlength : (cs ++ [lf]).length = cs.length + 1 := List.length_append
    constructor
    · rfl
    · simp [lineAnswer, hcs]
    · simp [lineAnswer, hcs, LineStop.ends]
    · simp only [lineAnswer]
      omega
    · rw [hcs, List.dropLast_concat]
      exact hlf
    · intro
      left
      rw [hcs, List.getLast?_concat]

theorem reported_endOfFile {sgxMaxLen : ℕ} {cs : List Byte} {consumed rest : List ReadResult}
    (buf : CharBuf) (h : Stopped (sgxMaxLen - 1) cs .endOfFile (heard consumed)) (hnil : cs = []) :
    Reported sgxMaxLen buf consumed (lineAnswer buf 0 (cs, .endOfFile, rest)) := by
  have hbytes := bytesOf_heard consumed
  have hmem : .endOfFile ∈ heard consumed → .endOfFile ∈ consumed := List.mem_of_mem_filter
  generalize heard consumed = answers at h hbytes hmem
  cases h with
  | endOfFile hlf hlen =>
    subst hnil
    have hcs : bytesOf consumed = [] := hbytes.symm
    constructor
    · rfl
    · rw [hcs]
      rfl
    · rfl
    · exact Nat.zero_le _
    · rw [hcs]
      exact hlf
    · intro
      right
      exact hmem (List.mem_singleton_self _)

theorem readline_reports_iff {sgxMaxLen : ℕ} (hmax : 1 ≤ sgxMaxLen) (results : List ReadResult)
    (buf : CharBuf) : Reports sgxMaxLen results buf ↔ ¬ EndsOutOfLine sgxMaxLen results := by
  rw [endsOutOfLine_iff hmax]
  constructor
  · rintro hreports ⟨cs, stop, rest, hread, hkind⟩
    have hanswer := readline_eq hmax results buf
    rw [hread, Option.map_some] at hanswer
    have hresult : stop.result cs.length = cs.length + 1 := by
      rcases hkind with rfl | ⟨rfl, hne⟩
      · rfl
      · exact if_neg (fun h => hne (List.length_eq_zero_iff.mp h))
    have hvalue : (lineAnswer buf 0 (cs, stop, rest)).result = cs.length + 1 := by
      simpa only [lineAnswer, Nat.zero_add] using hresult
    have hstored : (lineAnswer buf 0 (cs, stop, rest)).stored = cs.length := Nat.zero_add _
    obtain ⟨consumed, -, hreported⟩ := hreports _ hanswer (by omega)
    have hcount := hreported.result
    omega
  · intro hnot answer hanswer hpos
    rw [readline_eq hmax, Option.map_eq_some_iff] at hanswer
    obtain ⟨⟨cs, stop, rest⟩, hread, rfl⟩ := hanswer
    obtain ⟨consumed, hconsumed, hstop⟩ := lineRead_stopped hread
    refine ⟨consumed, hconsumed, ?_⟩
    cases stop with
    | full => exact absurd ⟨cs, _, rest, hread, .inl rfl⟩ hnot
    | newline => exact reported_newline buf hstop
    | endOfFile =>
      have hcs : cs = [] := by
        by_contra hne
        exact hnot ⟨cs, _, rest, hread, .inr ⟨rfl, hne⟩⟩
      exact reported_endOfFile buf hstop hcs
    | error => exact absurd hpos (show ¬ (0 : ℤ) ≤ -1 by decide)

theorem readline_reports_iff_newline :
    1 ≤ 4 ∧ Reports 4 [.byte (chr 'a'), .interrupted, .byte lf] (fun _ => 0) := by
  refine ⟨by decide, (readline_reports_iff (by decide) _ _).mpr ?_⟩
  rw [endsOutOfLine_iff (by decide)]
  rintro ⟨cs, stop, rest, hread, hkind⟩
  have hline : lineRead 3 [.byte (chr 'a'), .interrupted, .byte lf] =
      some ([chr 'a', lf], .newline, []) := rfl
  cases hline.symm.trans hread
  rcases hkind with h | ⟨h, -⟩
  · cases h
  · cases h

theorem full_buffer_counts_one_more :
    ¬ Reports 3 [.byte (chr 'a'), .byte (chr 'b')] (fun _ => 0) := by
  intro h
  obtain ⟨consumed, -, hreported⟩ := h _ rfl (by decide)
  have hcount : (3 : ℤ) = (2 : ℕ) := hreported.result
  exact absurd hcount (by decide)

end Sginx.Rush
