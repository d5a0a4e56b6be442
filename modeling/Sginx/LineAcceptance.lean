import Sginx.LeftoverFields
import Sginx.LineGrammar

namespace Sginx.Http

open Sginx.Library.RingBuffer Sginx.Library.Scanning

def methodByte (c : Byte) : Prop := chr 'A' ≤ c ∧ c ≤ chr 'Z' ∨ c = chr '_'

def acceptedByte (c : Byte) : Prop := invalidMethodByte c = false

instance : DecidablePred methodByte := fun _ => inferInstanceAs (Decidable (_ ∨ _))

instance : DecidablePred acceptedByte := fun _ => inferInstanceAs (Decidable (_ = _))

theorem acceptedByte_iff {c : Byte} : acceptedByte c ↔ chr 'A' ≤ c := by
  have hshift : c.toNat >>> (chr 'Z').toNat = 0 := by
    apply Nat.shiftRight_eq_zero
    exact lt_of_lt_of_le c.toNat_lt (by decide)
  have hunderscore : c = chr '_' → chr 'A' ≤ c := by
    rintro rfl
    decide
  simp only [acceptedByte, invalidMethodByte, hshift, ne_eq, not_true_eq_false, or_false,
    decide_eq_false_iff_not, not_and_or, not_not, UInt8.not_lt]
  exact or_iff_left_of_imp hunderscore

theorem acceptedByte_of_methodByte {c : Byte} (h : methodByte c) : acceptedByte c := by
  rw [acceptedByte_iff]
  rcases h with ⟨h, -⟩ | rfl
  · exact h
  · decide

theorem wordBytes_accepted : WordBytes acceptedByte :=
  ⟨fun _ => acceptedByte_iff.mp, by decide⟩

theorem wordBytes_method : WordBytes methodByte :=
  ⟨fun _ h => acceptedByte_iff.mp (acceptedByte_of_methodByte h), by decide⟩

theorem lineNextOf_accepted : lineNextOf acceptedByte = lineNext := by
  funext s c
  cases s with
  | swStart =>
    simp only [lineNextOf, lineNext, acceptedByte]
    by_cases hbad : invalidMethodByte c <;> simp [hbad]
  | swMethod =>
    simp only [lineNextOf, lineNext, acceptedByte]
    by_cases hbad : invalidMethodByte c <;> simp [hbad]
  | _ => rfl

theorem wordScanner_accepted : wordScanner acceptedByte = lineScanner := by
  rw [wordScanner, lineNextOf_accepted]
  rfl

def methodRun (bytes : List Byte) : List Byte :=
  (bytes.dropWhile isLineEnd).takeWhile acceptedByte

def methodRunFrom : LineState → List Byte → List Byte
  | .swStart, bytes => methodRun bytes
  | .swMethod, bytes => bytes.takeWhile acceptedByte
  | _, _ => []

theorem methodRunFrom_past {s : LineState} (hs : s.pastWord) (bytes : List Byte) :
    methodRunFrom s bytes = [] := by
  cases s <;> first | rfl | exact absurd hs Bool.false_ne_true

theorem lineNextOf_past (m : Byte → Prop) [DecidablePred m] {s : LineState} (hs : s.pastWord)
    (c : Byte) : lineNextOf m s c = lineNext s c := by
  cases s <;> first | rfl | exact absurd hs Bool.false_ne_true

section Runs

variable {m : Byte → Prop} [DecidablePred m] (hm : ∀ c, m c → acceptedByte c)

include hm

theorem word_cases (s : LineState) (c : Byte) (bytes : List Byte) :
    (∃ s', lineNextOf acceptedByte s c = .inl s' ∧ lineNextOf m s c = .inl s' ∧
      methodRunFrom s (c :: bytes) = methodRunFrom s' bytes) ∨
    (lineNextOf acceptedByte s c = .inl .swMethod ∧
      lineNextOf m s c = (if m c then .inl .swMethod else .inr .invalidMethod) ∧
      methodRunFrom s (c :: bytes) = c :: methodRunFrom .swMethod bytes) ∨
    ∃ x, lineNextOf acceptedByte s c = .inr x ∧ lineNextOf m s c = .inr x ∧
      methodRunFrom s (c :: bytes) = [] := by
  cases s with
  | swStart =>
    simp only [lineNextOf, methodRunFrom, methodRun]
    by_cases hend : c = cr ∨ c = lf
    · exact .inl ⟨.swStart, if_pos hend, if_pos hend, by simp [isLineEnd, hend]⟩
    rw [if_neg hend, if_neg hend]
    by_cases hc : acceptedByte c
    · exact .inr (.inl ⟨if_pos hc, rfl, by simp [isLineEnd, hend, hc]⟩)
    · exact .inr (.inr ⟨_, if_neg hc, if_neg (fun h => hc (hm c h)), by simp [isLineEnd, hend, hc]⟩)
  | swMethod =>
    simp only [lineNextOf, methodRunFrom]
    by_cases hspace : c = chr ' '
    · have hbad : ¬ acceptedByte (chr ' ') := by decide
      exact .inl ⟨.swSpacesBeforeUri, if_pos hspace, if_pos hspace, by simp [hspace, hbad]⟩
    rw [if_neg hspace, if_neg hspace]
    by_cases hc : acceptedByte c
    · exact .inr (.inl ⟨if_pos hc, rfl, by simp [hc]⟩)
    · exact .inr (.inr ⟨_, if_neg hc, if_neg (fun h => hc (hm c h)), by simp [hc]⟩)
  | _ =>
    rw [lineNextOf_past acceptedByte rfl, lineNextOf_past m rfl, methodRunFrom_past rfl]
    rcases hnext : lineNext _ c with s' | x
    · exact .inl ⟨s', rfl, rfl, (methodRunFrom_past (pastWord_next rfl hnext) bytes).symm⟩
    · exact .inr (.inr ⟨x, rfl, rfl, rfl⟩)

theorem run_of_methodRun {bytes : List Byte} {s : LineState} {pos : ℕ}
    {r : Record LineCursor LineRegister} (h : ∀ c ∈ methodRunFrom s bytes, m c) :
    (wordScanner m).run pos bytes s r = (wordScanner acceptedByte).run pos bytes s r := by
  induction bytes generalizing s pos r with
  | nil => rfl
  | cons c bytes ih =>
    have hnote : (wordScanner m).note s c pos r = (wordScanner acceptedByte).note s c pos r := rfl
    rw [Scanner.run, Scanner.run, hnote]
    simp only [wordScanner] at ih ⊢
    rcases word_cases hm s c bytes with ⟨s', ha, hm', hrun⟩ | ⟨ha, hm', hrun⟩ | ⟨x, ha, hm', hrun⟩
    · rw [ha, hm']
      exact ih (by rwa [hrun] at h)
    · rw [hrun, List.forall_mem_cons] at h
      rw [ha, hm', if_pos h.1]
      exact ih h.2
    · rw [ha, hm']

theorem run_of_not_methodRun {bytes : List Byte} {s : LineState} {pos : ℕ}
    {r : Record LineCursor LineRegister} (h : ¬ ∀ c ∈ methodRunFrom s bytes, m c) :
    ∃ n r', (wordScanner m).run pos bytes s r = (.inr .invalidMethod, n, r') := by
  induction bytes generalizing s pos r with
  | nil =>
    refine absurd ?_ h
    cases s <;> exact fun c hc => absurd hc List.not_mem_nil
  | cons c bytes ih =>
    rw [Scanner.run]
    rcases word_cases hm s c bytes with ⟨s', -, hm', hrun⟩ | ⟨-, hm', hrun⟩ | ⟨x, -, -, hrun⟩
    · rw [show (wordScanner m).next s c = _ from hm']
      exact ih (by rwa [hrun] at h)
    · rw [hrun, List.forall_mem_cons] at h
      rw [show (wordScanner m).next s c = _ from hm']
      by_cases hc : m c
      · rw [if_pos hc]
        exact ih (fun hrest => h ⟨hc, hrest⟩)
      · rw [if_neg hc]
        exact ⟨pos, _, rfl⟩
    · rw [hrun] at h
      exact absurd (fun c hc => absurd hc List.not_mem_nil) h

end Runs

theorem lineNext_exit {s : LineState} {c : Byte} {x : ScanExit} (h : lineNext s c = .inr x) :
    x ≠ .invalidHeader := by
  rintro rfl
  cases s <;> simp only [lineNext] at h <;> split_ifs at h <;> cases h

theorem line_exit {bytes : List Byte} {s : LineState} {pos n : ℕ}
    {r r' : Record LineCursor LineRegister} {x : ScanExit}
    (h : lineScanner.run pos bytes s r = (.inr x, n, r')) : x ≠ .invalidHeader := by
  induction bytes generalizing s pos r with
  | nil => cases h
  | cons c bytes ih =>
    rw [Scanner.run] at h
    rcases hnext : lineNext s c with s' | y
    · rw [show lineScanner.next s c = _ from hnext] at h
      exact ih h
    · rw [show lineScanner.next s c = _ from hnext] at h
      obtain rfl : y = x := Sum.inr.inj (Prod.mk.inj h).1
      exact lineNext_exit hnext

def LineError (code : ℤ) : Prop :=
  code = sgxHttpParseInvalidMethod ∨ code = sgxHttpParseInvalidRequest

structure LineParsed (grammar : Language Byte) (start : ℕ) (bytes : List Byte)
    (answer : ℤ × SgxHttpRequest) : Prop where
  ok : ∀ u, u <+: bytes → (answer.1 = sgxOk ∧ answer.2.pos = start + u.length ↔ u ∈ grammar)
  again : answer.1 = sgxAgain ↔ ∃ line ∈ grammar, bytes <+: line ∧ bytes ≠ line
  otherwise : (¬ ∃ u ∈ grammar, u <+: bytes) →
    (¬ ∃ line ∈ grammar, bytes <+: line ∧ bytes ≠ line) → LineError answer.1

def Answers (answer : ℤ × SgxHttpRequest) :
    (LineState ⊕ ScanExit) × ℕ × Record LineCursor LineRegister → Prop
  | (.inl _, _, _) => answer.1 = sgxAgain
  | (.inr .done, n, _) => answer.1 = sgxOk ∧ answer.2.pos = n + 1
  | (.inr _, _, _) => LineError answer.1

theorem LineError.ne {code : ℤ} (h : LineError code) : code ≠ sgxOk ∧ code ≠ sgxAgain := by
  rcases h with rfl | rfl <;> decide

theorem answers_of_follows {answer : ℤ × SgxHttpRequest} {bytes : List Byte} {s : LineState}
    {pos : ℕ} {r : Record LineCursor LineRegister}
    (h : versionFollowed.Follows answer (lineScanner.run pos bytes s r)) :
    Answers answer (lineScanner.run pos bytes s r) := by
  rcases hrun : lineScanner.run pos bytes s r with ⟨s' | x, n, r'⟩
  · rw [hrun] at h
    exact h.1
  · rw [hrun] at h
    have hx := line_exit hrun
    cases x with
    | done => exact ⟨h.1, (h.2 rfl).1⟩
    | invalidMethod => exact .inl h.1
    | invalidRequest => exact .inr h.1
    | invalidHeader => exact absurd rfl hx

section Answer

variable {answer : ℤ × SgxHttpRequest}
  {out : (LineState ⊕ ScanExit) × ℕ × Record LineCursor LineRegister}

theorem Answers.ok_iff (h : Answers answer out) (pos : ℕ) :
    answer.1 = sgxOk ∧ answer.2.pos = pos ↔ ∃ n r, out = (.inr .done, n, r) ∧ n + 1 = pos := by
  obtain ⟨s | x, n, r⟩ := out
  · have hne : answer.1 ≠ sgxOk := by
      rw [show answer.1 = sgxAgain from h]
      decide
    simp [hne]
  cases x with
  | done =>
    obtain ⟨hok, hpos⟩ := h
    simp [hok, hpos]
  | _ => simp [(show LineError answer.1 from h).ne.1]

theorem Answers.again_iff (h : Answers answer out) :
    answer.1 = sgxAgain ↔ ∃ s n r, out = (.inl s, n, r) := by
  obtain ⟨s | x, n, r⟩ := out
  · simp [show answer.1 = sgxAgain from h]
  cases x with
  | done =>
    have hne : answer.1 ≠ sgxAgain := by
      rw [h.1]
      decide
    simp [hne]
  | _ => simp [(show LineError answer.1 from h).ne.2]

theorem Answers.error_of (h : Answers answer out) (hdone : ∀ n r, out ≠ (.inr .done, n, r))
    (hinl : ∀ s n r, out ≠ (.inl s, n, r)) : LineError answer.1 := by
  obtain ⟨s | x, n, r⟩ := out
  · exact absurd rfl (hinl s n r)
  cases x with
  | done => exact absurd rfl (hdone n r)
  | _ => exact h

end Answer

theorem lineParsed_of_answers {m : Byte → Prop} [DecidablePred m] (hm : WordBytes m) {pos : ℕ}
    {bytes : List Byte} {r : Record LineCursor LineRegister} {answer : ℤ × SgxHttpRequest}
    (h : Answers answer ((wordScanner m).run pos bytes .swStart r)) :
    LineParsed (lineGrammar m) pos bytes answer := by
  have hinl := (wordScanner m).run_inl_iff (language_live hm) .swStart bytes pos r
  have hinr (k : ℕ) := (wordScanner m).run_inr_iff .done .swStart bytes pos k r
  rw [language_line hm] at hinl
  simp only [language_line hm] at hinr
  constructor
  · intro u hu
    rw [h.ok_iff, hinr]
    constructor
    · rintro ⟨u', hmem, hprefix, hlen⟩
      -- of two prefixes of one length
      rwa [← (List.prefix_of_prefix_length_le hprefix hu hlen.le).eq_of_length hlen]
    · intro hmem
      exact ⟨u, hmem, hu, rfl⟩
  · rw [h.again_iff, hinl]
  · intro hdone hagain
    apply h.error_of
    · intro n r' hrun
      obtain ⟨u, hmem, hprefix, -⟩ := (wordScanner m).accepts_of_run hrun
      rw [language_line hm] at hmem
      exact hdone ⟨u, hmem, hprefix⟩
    · intro s n r' hrun
      exact hagain (hinl.mp ⟨s, n, r', hrun⟩)

def LineLike (grammar : Language Byte) (bytes : List Byte) : Prop :=
  ∃ line ∈ grammar, line <+: bytes ∨ bytes <+: line

theorem LineParsed.error_iff {grammar : Language Byte} {start : ℕ} {bytes : List Byte}
    {answer : ℤ × SgxHttpRequest} (h : LineParsed grammar start bytes answer) :
    LineError answer.1 ↔ ¬ LineLike grammar bytes := by
  constructor
  · rintro herror ⟨line, hline, hprefix | hprefix⟩
    · exact herror.ne.1 ((h.ok line hprefix).mpr hline).1
    by_cases heq : bytes = line
    · subst heq
      exact herror.ne.1 ((h.ok bytes hprefix).mpr hline).1
    · exact herror.ne.2 (h.again.mpr ⟨line, hline, hprefix, heq⟩)
  · intro hnot
    apply h.otherwise
    · rintro ⟨u, hu, hprefix⟩
      exact hnot ⟨u, hu, .inl hprefix⟩
    · rintro ⟨line, hline, hprefix, -⟩
      exact hnot ⟨line, hline, .inr hprefix⟩

theorem feed_line_answers (chunks : List (List Byte)) {request : SgxHttpRequest}
    (hlast : request.last = request.pos) (hstate : request.state = LineState.swStart.code)
    (hchunks : ∀ chunk ∈ chunks, chunk.length ≤ sgxMaxBuf) :
    ∃ r, Answers (feed sgxHttpParseRequestLine request chunks)
      ((wordScanner acceptedByte).run request.pos chunks.flatten .swStart r) := by
  rw [wordScanner_accepted]
  exact ⟨_, answers_of_follows (feed_line_follows chunks hlast hstate hchunks)⟩

theorem feed_line_parsed (chunks : List (List Byte)) {request : SgxHttpRequest}
    (hlast : request.last = request.pos) (hstate : request.state = LineState.swStart.code)
    (hchunks : ∀ chunk ∈ chunks, chunk.length ≤ sgxMaxBuf) :
    LineParsed (lineGrammar acceptedByte) request.pos chunks.flatten
      (feed sgxHttpParseRequestLine request chunks) := by
  obtain ⟨r, h⟩ := feed_line_answers chunks hlast hstate hchunks
  exact lineParsed_of_answers wordBytes_accepted h

theorem parse_line_parsed (request : SgxHttpRequest) (hle : request.pos ≤ request.last)
    (hlen : request.last ≤ request.pos + sgxMaxBuf)
    (hstate : request.state = LineState.swStart.code) :
    LineParsed (lineGrammar acceptedByte) request.pos (unread request)
      (sgxHttpParseRequestLine request) := by
  have hchunks : ∀ chunk ∈ [unread request], chunk.length ≤ sgxMaxBuf := by
    rw [List.forall_mem_singleton, unread_length]
    omega
  have h := @feed_line_parsed [unread request] { request with last := request.pos } rfl hstate hchunks
  rwa [feed_unread _ hle, List.flatten_singleton] at h

theorem line_grammar_iff (chunks : List (List Byte)) (request : SgxHttpRequest)
    (hlast : request.last = request.pos) (hstate : request.state = LineState.swStart.code)
    (hchunks : ∀ chunk ∈ chunks, chunk.length ≤ sgxMaxBuf) :
    LineParsed (lineGrammar methodByte) request.pos chunks.flatten
        (feed sgxHttpParseRequestLine request chunks) ↔
      (∀ c ∈ methodRun chunks.flatten, methodByte c) ∨
        ¬ LineLike (lineGrammar acceptedByte) chunks.flatten := by
  obtain ⟨r, h⟩ := feed_line_answers chunks hlast hstate hchunks
  rw [← (feed_line_parsed chunks hlast hstate hchunks).error_iff]
  generalize feed sgxHttpParseRequestLine request chunks = answer at h ⊢
  by_cases hword : ∀ c ∈ methodRun chunks.flatten, methodByte c
  · refine iff_of_true ?_ (.inl hword)
    apply lineParsed_of_answers wordBytes_method
    have hsame : (wordScanner methodByte).run request.pos chunks.flatten .swStart r = _ :=
      run_of_methodRun (fun _ => acceptedByte_of_methodByte) hword
    rwa [hsame]
  · -- the grammar gives up inside the word, where the code goes on
    obtain ⟨n, r', hrun⟩ : ∃ n r', (wordScanner methodByte).run request.pos chunks.flatten .swStart r =
        (.inr .invalidMethod, n, r') :=
      run_of_not_methodRun (fun _ => acceptedByte_of_methodByte) hword
    have hparsed (answer : ℤ × SgxHttpRequest) (herror : LineError answer.1) :
        LineParsed (lineGrammar methodByte) request.pos chunks.flatten answer := by
      apply lineParsed_of_answers wordBytes_method (r := r)
      rw [hrun]
      exact herror
    have hnot : ¬ LineLike (lineGrammar methodByte) chunks.flatten :=
      (hparsed (sgxHttpParseInvalidMethod, request) (.inl rfl)).error_iff.mp (.inl rfl)
    constructor
    · intro h'
      exact .inr (h'.error_iff.mpr hnot)
    · rintro (hall | herror)
      · exact absurd hall hword
      · exact hparsed answer herror

theorem line_grammar_of_get :
    let chunks := ["GE".toList.map chr, "T / HTTP/1.0\n".toList.map chr]
    LineParsed (lineGrammar methodByte) 0 chunks.flatten
      (feed sgxHttpParseRequestLine zeroRequest chunks) := by
  intro chunks
  apply (line_grammar_iff chunks zeroRequest rfl rfl (by decide)).mpr
  left
  exact List.all_iff_forall_prop.mp (by decide)

theorem small_letters_accepted :
    let text := "get / HTTP/1.0\n".toList.map chr
    text.length ≤ sgxMaxBuf ∧ (feed sgxHttpParseRequestLine zeroRequest [text]).1 = sgxOk ∧
      ¬ LineParsed (lineGrammar methodByte) 0 text
        (feed sgxHttpParseRequestLine zeroRequest [text]) := by
  intro text
  have hok : (feed sgxHttpParseRequestLine zeroRequest [text]).1 = sgxOk := by decide
  have hpos : (feed sgxHttpParseRequestLine zeroRequest [text]).2.pos = 0 + text.length := by decide
  refine ⟨by decide, hok, fun h => ?_⟩
  have hmem : text ∈ (wordScanner methodByte).language .done .swStart := by
    rw [language_line wordBytes_method]
    exact (h.ok text (List.prefix_refl text)).mp ⟨hok, hpos⟩
  have hexit : lineNextOf methodByte .swStart (chr 'g') = .inr .invalidMethod := by decide
  have hcons : text = chr 'g' :: text.tail := by decide
  rw [hcons, cons_mem_line, hexit] at hmem
  simp at hmem

end Sginx.Http
