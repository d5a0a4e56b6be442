import Sginx.RingOffset

namespace Sginx.Http

open Sginx.Library.RingBuffer Sginx.Library.Scanning

def isLineEnd (c : Byte) : Bool := c = cr ∨ c = lf

def notSpace (c : Byte) : Bool := c ≠ chr ' '

def notLf (c : Byte) : Bool := c ≠ lf

def skipped (bytes : List Byte) : ℕ := (bytes.takeWhile isLineEnd).length

def methodWord (bytes : List Byte) : List Byte := (bytes.dropWhile isLineEnd).takeWhile notSpace

def behindUri : LineState → List Byte → List Byte
  | .swStart, bytes =>
    (((bytes.dropWhile isLineEnd).dropWhile notSpace).dropWhile (· = chr ' ')).dropWhile notSpace
  | .swMethod, bytes => ((bytes.dropWhile notSpace).dropWhile (· = chr ' ')).dropWhile notSpace
  | .swSpacesBeforeUri, bytes => (bytes.dropWhile (· = chr ' ')).dropWhile notSpace
  | .swAfterSlashInUri, bytes => bytes.dropWhile notSpace
  | _, bytes => bytes

def lineEnd (bytes : List Byte) : ℕ :=
  bytes.length - ((behindUri .swStart bytes).dropWhile notLf).length

def EndsInCrlf (bytes : List Byte) : Prop := cr ∈ (behindUri .swStart bytes).takeWhile notLf

instance (bytes : List Byte) : Decidable (EndsInCrlf bytes) :=
  inferInstanceAs (Decidable (_ ∈ _))

def WordDecides (pos : ℕ) (token : List Byte) : Prop :=
  Straddles sgxMaxBuf pos (pos + token.length) ∨ token = [chr 'G', chr 'E', chr 'T'] ∨
    token = [chr 'P', chr 'O', chr 'S', chr 'T'] ∨ token = [chr 'H', chr 'E', chr 'A', chr 'D'] ∨
    token.length ≠ 3 ∧ token.length ≠ 4

theorem methodAt_eq_old_iff (pos : ℕ) (token : List Byte) (old old' : ℤ) :
    methodAt pos token old = methodAt pos token old' ↔ WordDecides pos token ∨ old = old' := by
  unfold methodAt methodOf WordDecides
  split_ifs with hs hget hpost hhead hlen
  · simp [hs]
  · simp [hget]
  · simp [hpost]
  · simp [hhead]
  · simp [hs, hget, hpost, hhead]
    omega
  · simp [not_or.mp hlen]

def LineState.majorRead : LineState → Bool
  | .swMajorDigit => true
  | .swFirstMinorDigit => true
  | .swMinorDigit => true
  | .swSpacesAfterDigit => true
  | .swAlmostDone => true
  | _ => false

def LineState.minorRead : LineState → Bool
  | .swMinorDigit => true
  | .swSpacesAfterDigit => true
  | .swAlmostDone => true
  | _ => false

structure SameRegister (s : LineState) (d₁ d₂ : LineRegister) : Prop where
  token : d₁.token = d₂.token
  major : s.majorRead → d₁.httpMajor = d₂.httpMajor
  minor : s.minorRead → d₁.httpMinor = d₂.httpMinor

theorem sameRegister_fold {s s' : LineState} {c : Byte} {d₁ d₂ : LineRegister}
    (hnext : lineNext s c = .inl s') (h : SameRegister s d₁ d₂) :
    SameRegister s' (lineFold s c d₁) (lineFold s c d₂) := by
  obtain ⟨htoken, hmajor, hminor⟩ := h
  cases s with
  | swFirstMajorDigit =>
    simp only [lineNext] at hnext
    split_ifs at hnext with hdigit
    obtain rfl := Sum.inl.inj hnext
    simp only [lineFold, if_neg hdigit]
    exact ⟨htoken, fun _ => rfl, fun h => absurd h Bool.false_ne_true⟩
  | _ =>
    simp only [lineNext] at hnext
    split_ifs at hnext <;> obtain rfl := Sum.inl.inj hnext <;> constructor <;>
      simp_all [lineFold, LineState.majorRead, LineState.minorRead]

theorem done_minorRead {s : LineState} {c : Byte} (h : lineNext s c = .inr .done) : s.minorRead := by
  cases s <;> first
    | rfl
    | (simp only [lineNext] at h; split_ifs at h <;> cases h)

theorem majorRead_of_minorRead {s : LineState} (h : s.minorRead) : s.majorRead := by
  cases s <;> first | rfl | exact absurd h Bool.false_ne_true

theorem fold_eq_of_done {s : LineState} {c : Byte} {d₁ d₂ : LineRegister}
    (hnext : lineNext s c = .inr .done) (h : SameRegister s d₁ d₂) :
    lineFold s c d₁ = lineFold s c d₂ := by
  have hminor := done_minorRead hnext
  obtain rfl : d₁ = d₂ := by
    cases d₁
    cases d₂
    simpa using ⟨h.major (majorRead_of_minorRead hminor), h.minor hminor, h.token⟩
  rfl

structure SameUnread (s : LineState) (r₁ r₂ : Record LineCursor LineRegister) : Prop where
  cursor : r₁.cursor = r₂.cursor
  entries : r₁.entries = r₂.entries
  register : SameRegister s r₁.register r₂.register

theorem record_of_done (pos : ℕ) (bytes : List Byte) (d₁ d₂ : LineRegister)
    (htoken : d₁.token = d₂.token) {n : ℕ} {r : Record LineCursor LineRegister}
    (hrun : lineScanner.run pos bytes .swStart (Record.empty d₁) = (.inr .done, n, r)) :
    lineScanner.run pos bytes .swStart (Record.empty d₂) = (.inr .done, n, r) := by
  have hstart : SameUnread .swStart (Record.empty d₁) (Record.empty d₂) :=
    ⟨rfl, rfl, htoken, (fun h => nomatch h), (fun h => nomatch h)⟩
  obtain ⟨out, pos', r₁, r₂, h₁, h₂, hsame⟩ := lineScanner.run_related SameUnread
    (fun x r₁ r₂ => x = .done → r₁ = r₂)
    (fun s b pos s' r₁ r₂ hnext h => ⟨by simp only [Scanner.note, h.cursor],
      by simp only [Scanner.note, h.cursor, h.entries], sameRegister_fold hnext h.register⟩)
    (fun s b pos x r₁ r₂ hnext h hx => by
      subst hx
      simp only [Scanner.note, h.cursor, h.entries]
      congr 1
      exact fold_eq_of_done hnext h.register)
    pos bytes .swStart _ _ hstart
  rw [hrun, Prod.mk.injEq, Prod.mk.injEq] at h₁
  obtain ⟨rfl, rfl, rfl⟩ := h₁
  rw [h₂, hsame .done rfl rfl]

theorem late_next_lf {s s' : LineState} {c : Byte} (hs : s.late) (hnext : lineNext s c = .inl s') :
    c ≠ lf := by
  rintro rfl
  have hexit : (lineNext s lf).isLeft = false := by
    cases s <;> first | rfl | exact absurd hs Bool.false_ne_true
  rw [hnext] at hexit
  cases hexit

theorem late_next_cr {s s' : LineState} {c : Byte} (hs : s.late) (hnext : lineNext s c = .inl s') :
    c = cr ↔ s' = .swAlmostDone := by
  constructor
  · rintro rfl
    cases s <;> first | exact absurd hs Bool.false_ne_true | cases hnext <;> rfl
  · rintro rfl
    cases s <;> first
      | exact absurd hs Bool.false_ne_true
      | (simp only [lineNext] at hnext; split_ifs at hnext <;> first | assumption | cases hnext)

theorem behindUri_late {s : LineState} (hs : s.late) (bytes : List Byte) :
    behindUri s bytes = bytes := by
  cases s <;> first | rfl | exact absurd hs Bool.false_ne_true

theorem behindUri_next {s s' : LineState} (hs : s.late = false) {c : Byte} (bytes : List Byte)
    (hnext : lineNext s c = .inl s') :
    behindUri s (c :: bytes) = behindUri s' bytes ∨
      behindUri s (c :: bytes) = chr ' ' :: behindUri s' bytes := by
  cases s with
  | swStart =>
    left
    simp only [lineNext] at hnext
    split_ifs at hnext with hend hbad
    · obtain rfl := Sum.inl.inj hnext
      simp [behindUri, isLineEnd, hend]
    · obtain rfl := Sum.inl.inj hnext
      have hspace : c ≠ chr ' ' := by
        rintro rfl
        exact hbad (by decide)
      simp [behindUri, isLineEnd, notSpace, hend, hspace]
  | swMethod =>
    left
    simp only [lineNext] at hnext
    split_ifs at hnext with hspace hbad
    · obtain rfl := Sum.inl.inj hnext
      simp [behindUri, notSpace, hspace]
    · obtain rfl := Sum.inl.inj hnext
      simp [behindUri, notSpace, hspace]
  | swSpacesBeforeUri =>
    left
    simp only [lineNext] at hnext
    split_ifs at hnext with hslash hspace
    · obtain rfl := Sum.inl.inj hnext
      have hspace : c ≠ chr ' ' := by
        rintro rfl
        exact absurd hslash (by decide)
      simp [behindUri, notSpace, hspace]
    · obtain rfl := Sum.inl.inj hnext
      simp [behindUri, hspace]
  | swAfterSlashInUri =>
    simp only [lineNext] at hnext
    split_ifs at hnext with hspace
    · obtain rfl := Sum.inl.inj hnext
      right
      simp [behindUri, notSpace, hspace]
    · obtain rfl := Sum.inl.inj hnext
      left
      simp [behindUri, notSpace, hspace]
  | _ => exact absurd hs.symm Bool.false_ne_true

theorem lineMarks_requestEnd (s : LineState) (c : Byte) :
    lineMarks s c .requestEnd = decide (s = .swAlmostDone) := by
  cases s <;> rfl

theorem done_byte {s : LineState} {c : Byte} (h : lineNext s c = .inr .done) : c = lf := by
  cases s <;> simp only [lineNext] at h <;> split_ifs at h <;> first | assumption | cases h

theorem almostDone_exits {s s' : LineState} {c : Byte} (h : lineNext s c = .inl s') :
    s ≠ .swAlmostDone := by
  rintro rfl
  simp only [lineNext] at h
  split_ifs at h

theorem early_next {s s' : LineState} {c : Byte} (hs : s.late = false)
    (h : lineNext s c = .inl s') : s' ≠ .swAlmostDone := by
  rintro rfl
  cases s <;> first
    | exact absurd hs.symm Bool.false_ne_true
    | (simp only [lineNext] at h; split_ifs at h <;> cases h)

theorem line_end_of_done (bytes : List Byte) (s : LineState) (pos : ℕ)
    (r : Record LineCursor LineRegister) {n : ℕ} {r' : Record LineCursor LineRegister}
    (hrun : lineScanner.run pos bytes s r = (.inr .done, n, r')) :
    n + ((behindUri s bytes).dropWhile notLf).length = pos + bytes.length ∧
      r'.cursor .requestEnd =
        if s = .swAlmostDone ∨ cr ∈ (behindUri s bytes).takeWhile notLf then some n
        else r.cursor .requestEnd := by
  induction bytes generalizing s pos r with
  | nil => cases hrun
  | cons c bytes ih =>
    rw [Scanner.run] at hrun
    have hcursor := note_cursor_line s c pos r .requestEnd
    rw [lineMarks_requestEnd] at hcursor
    cases hnext : lineNext s c with
    | inl s' =>
      rw [show lineScanner.next s c = .inl s' from hnext] at hrun
      obtain ⟨hn, hend⟩ := ih s' (pos + 1) _ hrun
      have hne := almostDone_exits hnext
      rw [hcursor, decide_eq_false hne, if_neg Bool.false_ne_true] at hend
      rw [hend, List.length_cons]
      by_cases hs : s.late
      · have hlf := late_next_lf hs hnext
        rw [behindUri_late (late_next hs hnext)] at hn ⊢
        rw [behindUri_late hs]
        constructor
        · simp only [List.dropWhile_cons, notLf, hlf, ne_eq, not_false_eq_true, decide_true, if_true]
          exact hn.trans (by omega)
        · simp [notLf, hlf, hne, ← late_next_cr hs hnext, eq_comm]
      · rw [Bool.not_eq_true] at hs
        have hne' := early_next hs hnext
        have hspace : notLf (chr ' ') = true := by decide
        have hcr : cr ≠ chr ' ' := cr_ne_space
        rcases behindUri_next hs bytes hnext with h | h
        · rw [h]
          exact ⟨hn.trans (by omega), by simp [hne, hne']⟩
        · rw [h]
          constructor
          · simp only [List.dropWhile_cons, hspace, if_true]
            exact hn.trans (by omega)
          · simp [hspace, hne, hne', hcr]
    | inr x =>
      rw [show lineScanner.next s c = .inr x from hnext] at hrun
      simp only [Prod.mk.injEq, Sum.inr.injEq] at hrun
      obtain ⟨rfl, rfl, rfl⟩ := hrun
      obtain rfl := done_byte hnext
      have hlf : notLf lf = false := by decide
      rw [behindUri_late (done_late hnext), hcursor]
      simp [hlf]

def wordStart (s : LineState) (pos : ℕ) (bytes : List Byte) (old : Option ℕ) : Option ℕ :=
  match s with
  | .swStart => some (pos + skipped bytes)
  | _ => old

def wordFrom (s : LineState) (bytes : List Byte) (token : List Byte) : List Byte :=
  match s with
  | .swStart => methodWord bytes
  | .swMethod => token ++ bytes.takeWhile notSpace
  | _ => token

def LineState.pastWord : LineState → Bool
  | .swStart => false
  | .swMethod => false
  | _ => true

theorem pastWord_next {s s' : LineState} (hs : s.pastWord) {c : Byte}
    (hnext : lineNext s c = .inl s') : s'.pastWord := by
  cases s <;> first
    | exact absurd hs Bool.false_ne_true
    | simp only [lineNext] at hnext
      split_ifs at hnext <;> obtain rfl := Sum.inl.inj hnext <;> rfl

theorem pastWord_of_late {s : LineState} (hs : s.late) : s.pastWord := by
  cases s <;> first | rfl | exact absurd hs Bool.false_ne_true

theorem wordStart_past {s : LineState} (hs : s.pastWord) (pos : ℕ) (bytes : List Byte)
    (old : Option ℕ) : wordStart s pos bytes old = old := by
  cases s <;> first | rfl | exact absurd hs Bool.false_ne_true

theorem wordFrom_past {s : LineState} (hs : s.pastWord) (bytes token : List Byte) :
    wordFrom s bytes token = token := by
  cases s <;> first | rfl | exact absurd hs Bool.false_ne_true

theorem note_pastWord {s : LineState} (hs : s.pastWord) (c : Byte) (pos : ℕ)
    (r : Record LineCursor LineRegister) :
    (lineScanner.note s c pos r).cursor .requestStart = r.cursor .requestStart ∧
      (lineScanner.note s c pos r).register.token = r.register.token := by
  rw [note_cursor_line, note_token_line]
  cases s <;> first
    | exact absurd hs Bool.false_ne_true
    | exact ⟨rfl, rfl⟩
    | refine ⟨rfl, ?_⟩
      simp only [lineFold]
      split_ifs <;> rfl

theorem word_of_done (bytes : List Byte) (s : LineState) (pos : ℕ)
    (r : Record LineCursor LineRegister) {n : ℕ} {r' : Record LineCursor LineRegister}
    (hrun : lineScanner.run pos bytes s r = (.inr .done, n, r')) :
    r'.cursor .requestStart = wordStart s pos bytes (r.cursor .requestStart) ∧
      r'.register.token = wordFrom s bytes r.register.token := by
  induction bytes generalizing s pos r with
  | nil => cases hrun
  | cons c bytes ih =>
    rw [Scanner.run] at hrun
    cases hnext : lineNext s c with
    | inl s' =>
      rw [show lineScanner.next s c = .inl s' from hnext] at hrun
      obtain ⟨hstart, htoken⟩ := ih s' (pos + 1) _ hrun
      by_cases hs : s.pastWord
      · have hs' := pastWord_next hs hnext
        obtain ⟨hcursor, hregister⟩ := note_pastWord hs c pos r
        rw [wordStart_past hs', hcursor] at hstart
        rw [wordFrom_past hs', hregister] at htoken
        rw [wordStart_past hs, wordFrom_past hs]
        exact ⟨hstart, htoken⟩
      rw [note_cursor_line] at hstart
      rw [note_token_line] at htoken
      cases s with
      | swStart =>
        simp only [lineNext] at hnext
        split_ifs at hnext with hend hbad
        · obtain rfl := Sum.inl.inj hnext
          rw [hstart, htoken]
          simp [wordStart, wordFrom, skipped, methodWord, isLineEnd, hend]
          omega
        · obtain rfl := Sum.inl.inj hnext
          have hspace : c ≠ chr ' ' := by
            rintro rfl
            exact hbad (by decide)
          rw [hstart, htoken]
          simp [wordStart, wordFrom, skipped, methodWord, isLineEnd, hend, notSpace, hspace,
            lineMarks, lineFold]
      | swMethod =>
        simp only [lineNext] at hnext
        split_ifs at hnext with hspace hbad
        · obtain rfl := Sum.inl.inj hnext
          rw [hstart, htoken]
          simp [wordStart, wordFrom, notSpace, hspace, lineMarks, lineFold]
        · obtain rfl := Sum.inl.inj hnext
          rw [hstart, htoken]
          simp [wordStart, wordFrom, notSpace, hspace, lineMarks, lineFold]
      | _ => exact absurd rfl hs
    | inr x =>
      rw [show lineScanner.next s c = .inr x from hnext] at hrun
      simp only [Prod.mk.injEq, Sum.inr.injEq] at hrun
      obtain ⟨rfl, rfl, rfl⟩ := hrun
      have hs := pastWord_of_late (done_late hnext)
      rw [wordStart_past hs, wordFrom_past hs]
      exact note_pastWord hs c pos r

theorem run_of_ok {request : SgxHttpRequest} (hstate : request.state = 0)
    (hlen : request.last ≤ request.pos + sgxMaxBuf)
    (hok : (sgxHttpParseRequestLine request).1 = sgxOk) :
    request.pos ≤ request.last ∧ ∃ n r, lineScanner.run 0 (unread request) .swStart
      (Record.empty (lineScanned.register request)) = (.inr .done, n, r) := by
  have hle : request.pos ≤ request.last := by
    by_contra hlt
    have hnone : request.last - request.pos = 0 := by omega
    rw [sgxHttpParseRequestLine, Parser.parse, hstate, hnone] at hok
    exact absurd (show sgxAgain = sgxOk from hok) (by decide)
  rw [parse_line_eq hstate hle (by rw [unread_length]; omega)] at hok
  refine ⟨hle, ?_⟩
  generalize lineScanner.run 0 (unread request) .swStart
    (Record.empty (lineScanned.register request)) = out at hok ⊢
  obtain ⟨out, n, r⟩ := out
  cases out with
  | inl s => exact absurd (show sgxAgain = sgxOk from hok) (by decide)
  | inr x =>
    obtain rfl := lineScanned.result_inr_done (.inl hok)
    exact ⟨n, r, rfl⟩

theorem parse_of_run {request : SgxHttpRequest} (hstate : request.state = 0)
    (hle : request.pos ≤ request.last) (hlen : request.last ≤ request.pos + sgxMaxBuf) {n : ℕ}
    {r : Record LineCursor LineRegister} (hrun : lineScanner.run 0 (unread request) .swStart
      (Record.empty (lineScanned.register request)) = (.inr .done, n, r)) :
    sgxHttpParseRequestLine request =
      (sgxOk, lineDone (renderLine request.pos request r) (request.pos + n)) := by
  rw [parse_line_eq hstate hle (by rw [unread_length]; omega), hrun]
  rfl

theorem lineDone_requestEnd (request : SgxHttpRequest) (pos : ℕ) :
    (lineDone request pos).requestEnd = request.requestEnd.or (ptrAt pos) := by
  rw [lineDone]
  cases request.requestEnd <;> rfl

def SameLineFields (first second : SgxHttpRequest) : Prop :=
  first.method = second.method ∧ first.uriStart = second.uriStart ∧
    first.uriEnd = second.uriEnd ∧ first.httpMajor = second.httpMajor ∧
    first.httpMinor = second.httpMinor ∧ first.requestEnd = second.requestEnd

theorem leftover_fields_iff {first second : SgxHttpRequest} (hstate : first.state = 0)
    (hstate' : second.state = 0) (hpos : second.pos = first.pos) (hlast : second.last = first.last)
    (hbuf : second.buf = first.buf) (hlen : first.last ≤ first.pos + sgxMaxBuf)
    (hok : (sgxHttpParseRequestLine first).1 = sgxOk) :
    let bytes := unread first
    let lfAt := ptrAt (first.pos + lineEnd bytes)
    SameLineFields (sgxHttpParseRequestLine first).2 (sgxHttpParseRequestLine second).2 ↔
      (WordDecides (first.pos + skipped bytes) (methodWord bytes) ∨ first.method = second.method) ∧
        (EndsInCrlf bytes ∨ first.requestEnd.or lfAt = second.requestEnd.or lfAt) := by
  intro bytes lfAt
  have hbytes : unread second = unread first := by
    simp only [unread, hbuf, hpos, hlast]
  obtain ⟨hle, n, r, hrun⟩ := run_of_ok hstate hlen hok
  have hrun' := record_of_done 0 (unread first) (lineScanned.register first)
    (lineScanned.register second) rfl hrun
  rw [parse_of_run hstate hle hlen hrun, parse_of_run hstate' (by omega) (by omega)
    (by rw [hbytes]; exact hrun'), hpos]
  obtain ⟨hword, htoken⟩ := word_of_done _ _ _ _ hrun
  obtain ⟨hn, hend⟩ := line_end_of_done _ _ _ _ hrun
  have hstart : LineMarked 0 .swStart [] (Record.empty (lineScanned.register first)) :=
    ⟨le_refl 0, rfl, rfl⟩
  obtain ⟨⟨i, hi, hmethod, -⟩, j, k, hj, hk, -⟩ := line_done_marked hstart hrun
  obtain rfl : n = lineEnd bytes := by
    simp only [lineEnd, bytes]
    omega
  have hcursor : r.cursor .requestEnd = if EndsInCrlf bytes then some (lineEnd bytes) else none := by
    rw [hend]
    exact if_congr (by simp [EndsInCrlf, bytes]) rfl rfl
  have hm (old : ℤ) : renderMethod first.pos old r =
      methodAt (first.pos + skipped bytes) (methodWord bytes) old := by
    rw [renderMethod, hmethod, hword, htoken]
    simp only [wordStart, wordFrom, Nat.zero_add, bytes]
  have hline (request : SgxHttpRequest) (pos : ℕ) :
      (lineDone (renderLine first.pos request r) pos).requestEnd =
        (renderRequestEnd first.pos request.requestEnd (r.cursor .requestEnd)).or (ptrAt pos) := by
    rw [lineDone_requestEnd]
    rfl
  simp only [SameLineFields, hline]
  simp only [lineDone, renderLine, hm, hj, hk, ptrFrom, true_and, methodAt_eq_old_iff, hcursor]
  apply and_congr_right
  intro _
  by_cases hcrlf : EndsInCrlf bytes
  · simp [hcrlf, renderRequestEnd]
  · simp [hcrlf, renderRequestEnd, lfAt]

theorem leftover_fields_of_crlf_line :
    let text := "GET / HTTP/1.0\r\n".toList.map chr
    let first := append zeroRequest text
    let second := append { zeroRequest with method := sgxHttpPost, requestEnd := some 5 } text
    SameLineFields (sgxHttpParseRequestLine first).2 (sgxHttpParseRequestLine second).2 := by
  intro text first second
  have hbytes : unread first = text := unread_append rfl (by decide)
  have h := @leftover_fields_iff first second rfl rfl rfl rfl rfl (by decide) (by decide)
  dsimp only at h
  rw [hbytes] at h
  apply h.mpr
  constructor
  · exact .inl (.inr (.inl (by decide)))
  · exact .inl (by decide)

theorem fields_left_over :
    let text := "PUT / HTTP/1.0\n".toList.map chr
    let first := append zeroRequest text
    let second := append { zeroRequest with method := sgxHttpPost, requestEnd := some 5 } text
    first.state = 0 ∧ second.state = 0 ∧ second.pos = first.pos ∧ second.last = first.last ∧
      second.buf = first.buf ∧
      (sgxHttpParseRequestLine first).1 = sgxOk ∧ (sgxHttpParseRequestLine second).1 = sgxOk ∧
      (sgxHttpParseRequestLine first).2.method ≠ (sgxHttpParseRequestLine second).2.method ∧
      (sgxHttpParseRequestLine first).2.requestEnd ≠
        (sgxHttpParseRequestLine second).2.requestEnd := by
  intro text first second
  exact ⟨rfl, rfl, rfl, rfl, rfl, by decide, by decide, by decide, by decide⟩

end Sginx.Http
