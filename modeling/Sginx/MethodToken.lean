import Sginx.VersionDigits

namespace Sginx.Http

open Sginx.Library.RingBuffer Sginx.Library.Scanning

/-- What is left of a word when the pointers are subtracted: rounds of the ring do not count. -/
def wordTail (token : List Byte) : List Byte :=
  token.drop (token.length / sgxMaxBuf * sgxMaxBuf)

theorem wordTail_length (token : List Byte) : (wordTail token).length = token.length % sgxMaxBuf := by
  have h := Nat.div_add_mod' token.length sgxMaxBuf
  rw [wordTail, List.length_drop]
  omega

theorem wordTail_lt (token : List Byte) : (wordTail token).length < sgxMaxBuf := by
  rw [wordTail_length]
  exact Nat.mod_lt _ (by decide)

theorem wordTail_of_lt {token : List Byte} (h : token.length < sgxMaxBuf) : wordTail token = token := by
  rw [wordTail, Nat.div_eq_of_lt h, Nat.zero_mul, List.drop_zero]

theorem wordTail_end (i : ℕ) (token : List Byte) :
    i + token.length / sgxMaxBuf * sgxMaxBuf + (wordTail token).length = i + token.length := by
  have h := Nat.div_add_mod' token.length sgxMaxBuf
  rw [wordTail_length]
  omega

theorem straddles_lap (i q n : ℕ) : Straddles sgxMaxBuf (i + q * sgxMaxBuf) (i + q * sgxMaxBuf + n) ↔
    Straddles sgxMaxBuf i (i + n) := by
  unfold Straddles
  rw [Nat.add_mul_mod_self_right, Nat.add_right_comm, Nat.add_mul_mod_self_right]

theorem methodAt_lap (i q : ℕ) (token : List Byte) (old : ℤ) :
    methodAt (i + q * sgxMaxBuf) token old = methodAt i token old :=
  if_congr (straddles_lap i q token.length) rfl rfl

def Kept (buf : Fin sgxMaxBuf → Byte) (last i : ℕ) (token : List Byte) : Prop :=
  ∀ k, last ≤ i + k + sgxMaxBuf → Holds buf (i + k) (token.drop k)

def Room (i pos last : ℕ) : Prop :=
  ∀ p, pos ≤ p → p < last → ¬ Straddles sgxMaxBuf i p →
    last ≤ p - (p % sgxMaxBuf - i % sgxMaxBuf) + sgxMaxBuf

theorem Kept.append {buf : Fin sgxMaxBuf → Byte} {i : ℕ} {token : List Byte}
    (h : Kept buf (i + token.length) i token) (chunk : List Byte) :
    Kept (putAll buf (i + token.length) chunk) (i + token.length + chunk.length) i token := by
  intro k hk
  by_cases hlen : k ≤ token.length
  · have hput := (h k (by omega)).putAll chunk (by rw [List.length_drop]; omega)
    rw [List.length_drop, show i + k + (token.length - k) = i + token.length by omega] at hput
    exact hput.append_left
  · rw [List.drop_eq_nil_of_le (by omega)]
    exact holds_nil _ _

theorem Kept.concat {buf : Fin sgxMaxBuf → Byte} {last i : ℕ} {token : List Byte}
    (h : Kept buf last i token) {c : Byte} (hc : buf (slot sgxMaxBuf (i + token.length)) = c) :
    Kept buf last i (token ++ [c]) := by
  intro k hk
  by_cases hlen : k ≤ token.length
  · rw [List.drop_append_of_le_length hlen]
    apply (h k hk).concat
    rw [List.length_drop, show i + k + (token.length - k) = i + token.length by omega]
    exact hc
  · rw [List.drop_eq_nil_of_le (by rw [List.length_append, List.length_singleton]; omega)]
    exact holds_nil _ _

theorem room_of_span {i pos last : ℕ} (hpos : i ≤ pos) (hlast : last ≤ i + sgxMaxBuf) :
    Room i pos last := by
  intro p hp hlt hs
  have hsub := slot_sub (show i ≤ p by omega) (show p < i + sgxMaxBuf by omega)
  rw [if_neg hs] at hsub
  omega

theorem room_of_fits {i last n : ℕ} (hfits : last % sgxMaxBuf + n ≤ sgxMaxBuf) :
    Room i last (last + n) := by
  intro p hp hlt hs
  obtain ⟨d, rfl⟩ := Nat.exists_eq_add_of_le hp
  have hmod : (last + d) % sgxMaxBuf = last % sgxMaxBuf + d := by
    rw [Nat.add_mod, Nat.mod_eq_of_lt (show d < sgxMaxBuf by omega)]
    exact Nat.mod_eq_of_lt (by omega)
  have hle := Nat.mod_le last sgxMaxBuf
  rw [hmod]
  omega

theorem Room.mono {i pos pos' last : ℕ} (h : Room i pos last) (hle : pos ≤ pos') :
    Room i pos' last := fun p hp => h p (hle.trans hp)

structure InWord (request : SgxHttpRequest) (i pos : ℕ) (token : List Byte) : Prop where
  start : request.requestStart = ptrAt i
  pos_eq : pos = i + token.length
  kept : Kept request.buf request.last i token
  room : Room i pos request.last

theorem switchMethod_word {request : SgxHttpRequest} {i pos : ℕ} {token : List Byte}
    (h : InWord request i pos token) (hpos : pos < request.last)
    (hspace : request.buf (slot sgxMaxBuf pos) = chr ' ') :
    switchMethod request (ptrAt pos) =
      { request with method := methodAt i (wordTail token) request.method } := by
  obtain ⟨hstart, rfl, hkept, hroom⟩ := h
  have hlap : request.requestStart = ptrAt (i + token.length / sgxMaxBuf * sgxMaxBuf) := by
    rw [hstart, ptrAt, ptrAt, slot_lap]
  have hend := wordTail_end i token
  rw [← methodAt_lap i (token.length / sgxMaxBuf), ← hend]
  by_cases hs : Straddles sgxMaxBuf (i + token.length / sgxMaxBuf * sgxMaxBuf)
      (i + token.length / sgxMaxBuf * sgxMaxBuf + (wordTail token).length)
  · rw [methodAt, if_pos hs]
    exact switchMethod_straddle hlap (wordTail_lt token) hs
  · apply switchMethod_eq hlap (wordTail_lt token)
    · have hspan := hroom _ (le_refl _) hpos
      rw [← hend] at hspan
      have hsub := slot_sub (Nat.le_add_right (i + token.length / sgxMaxBuf * sgxMaxBuf) _)
        (Nat.add_lt_add_left (wordTail_lt token) _)
      rw [if_neg hs] at hsub
      have hi : (i + token.length / sgxMaxBuf * sgxMaxBuf) % sgxMaxBuf = i % sgxMaxBuf :=
        Nat.add_mul_mod_self_right _ _ _
      unfold Straddles at hs hspan
      rw [hi] at hs hsub
      apply hkept
      have := hspan hs
      omega
    · rw [hend]
      exact hspace

def Classified (old : ℤ) (request : SgxHttpRequest) (r : Record LineCursor LineRegister) : Prop :=
  ∃ i, r.cursor .requestStart = some i ∧
    request.method = methodAt i (wordTail r.register.token) old

def WordAgrees (old : ℤ) (request : SgxHttpRequest) :
    LineState → ℕ → Record LineCursor LineRegister → Prop
  | .swStart, pos, _ => request.method = old ∧ request.last ≤ pos + sgxMaxBuf
  | .swMethod, pos, r => request.method = old ∧
      ∃ i, r.cursor .requestStart = some i ∧ InWord request i pos r.register.token
  | _, _, r => Classified old request r

theorem wordAgrees_past {old : ℤ} {request : SgxHttpRequest} {s : LineState} (hs : s.pastWord)
    {pos : ℕ} {r : Record LineCursor LineRegister} :
    WordAgrees old request s pos r ↔ Classified old request r := by
  cases s <;> first | rfl | exact absurd hs Bool.false_ne_true

theorem lineStep_method {s : LineState} (hs : s.pastWord) (request : SgxHttpRequest) (pos : ℕ) :
    ∃ request', lineStep request s pos =
        stepTo request' (lineNext s (request.buf (slot sgxMaxBuf pos))) ∧
      SameRing request' request ∧ request'.method = request.method := by
  simp only [lineStep]
  generalize request.buf (slot sgxMaxBuf pos) = c
  cases s <;> first
    | exact absurd hs Bool.false_ne_true
    | (simp only [lineNext]
       split_ifs <;> exact ⟨_, rfl, ⟨rfl, rfl, rfl⟩, rfl⟩)

theorem start_agrees {old : ℤ} {request : SgxHttpRequest} {pos : ℕ}
    {r : Record LineCursor LineRegister} (h : WordAgrees old request .swStart pos r) :
    let c := request.buf (slot sgxMaxBuf pos)
    ∃ request', lineStep request .swStart pos = stepTo request' (lineNext .swStart c) ∧
      SameRing request' request ∧ ∀ s', lineNext .swStart c = .inl s' →
        WordAgrees old request' s' (pos + 1) (lineScanner.note .swStart c pos r) := by
  obtain ⟨hmethod, hspan⟩ := h
  intro c
  have hc : request.buf (slot sgxMaxBuf pos) = c := rfl
  simp only [lineStep, lineNext, hc]
  split_ifs with hend hbad
  · refine ⟨_, rfl, ⟨rfl, rfl, rfl⟩, ?_⟩
    rintro s' ⟨⟩
    exact ⟨hmethod, by dsimp only; omega⟩
  · exact ⟨_, rfl, ⟨rfl, rfl, rfl⟩, fun s' h => by cases h⟩
  · refine ⟨_, rfl, ⟨rfl, rfl, rfl⟩, ?_⟩
    rintro s' ⟨⟩
    refine ⟨hmethod, pos, rfl, rfl, rfl, ?_, room_of_span (Nat.le_succ pos) hspan⟩
    have hnil : Kept request.buf request.last pos [] := fun k _ => by
      rw [List.drop_nil]
      exact holds_nil _ _
    exact hnil.concat hc

theorem word_agrees {old : ℤ} {request : SgxHttpRequest} {pos : ℕ}
    {r : Record LineCursor LineRegister} (h : WordAgrees old request .swMethod pos r)
    (hpos : pos < request.last) :
    let c := request.buf (slot sgxMaxBuf pos)
    ∃ request', lineStep request .swMethod pos = stepTo request' (lineNext .swMethod c) ∧
      SameRing request' request ∧ ∀ s', lineNext .swMethod c = .inl s' →
        WordAgrees old request' s' (pos + 1) (lineScanner.note .swMethod c pos r) := by
  obtain ⟨hmethod, i, hi, hword⟩ := h
  intro c
  have hc : request.buf (slot sgxMaxBuf pos) = c := rfl
  simp only [lineStep, lineNext, hc]
  split_ifs with hspace hbad
  · have hin : InWord { request with methodEnd := ptrAt pos } i pos r.register.token :=
      ⟨hword.start, hword.pos_eq, hword.kept, hword.room⟩
    rw [switchMethod_word hin hpos (hc.trans hspace)]
    refine ⟨_, rfl, ⟨rfl, rfl, rfl⟩, ?_⟩
    rintro s' ⟨⟩
    have htoken : (lineScanner.note .swMethod c pos r).register.token = r.register.token := by
      simp [Scanner.note, lineScanner, lineFold, hspace]
    refine ⟨i, hi, ?_⟩
    rw [htoken]
    exact congrArg (methodAt i _) hmethod
  · exact ⟨_, rfl, ⟨rfl, rfl, rfl⟩, fun s' h => by cases h⟩
  · refine ⟨_, rfl, ⟨rfl, rfl, rfl⟩, ?_⟩
    rintro s' ⟨⟩
    have htoken : (lineScanner.note .swMethod c pos r).register.token = r.register.token ++ [c] := by
      simp [Scanner.note, lineScanner, lineFold, hspace]
    refine ⟨hmethod, i, hi, hword.start, ?_, ?_, hword.room.mono (Nat.le_succ pos)⟩
    · rw [htoken, List.length_append, List.length_singleton, hword.pos_eq]
      rfl
    · rw [htoken]
      apply hword.kept.concat
      rw [← hword.pos_eq]

theorem past_agrees {old : ℤ} {request : SgxHttpRequest} {s : LineState} (hs : s.pastWord)
    (pos : ℕ) {r : Record LineCursor LineRegister} (h : Classified old request r) :
    let c := request.buf (slot sgxMaxBuf pos)
    ∃ request', lineStep request s pos = stepTo request' (lineNext s c) ∧
      SameRing request' request ∧ Classified old request' (lineScanner.note s c pos r) := by
  intro c
  obtain ⟨request', hstep, hring, hmethod⟩ := lineStep_method hs request pos
  obtain ⟨i, hi, hclass⟩ := h
  obtain ⟨hcursor, htoken⟩ := note_pastWord hs c pos r
  exact ⟨request', hstep, hring, i, hcursor.trans hi, by rw [htoken, hmethod, hclass]⟩

theorem wordAgrees_moved {old : ℤ} {request : SgxHttpRequest} {s : LineState} {pos : ℕ}
    {r : Record LineCursor LineRegister} (pos' state : ℕ) (h : WordAgrees old request s pos r) :
    WordAgrees old { request with pos := pos', state := state } s pos r := by
  cases s with
  | swMethod =>
    obtain ⟨hmethod, i, hi, hword⟩ := h
    exact ⟨hmethod, i, hi, hword.start, hword.pos_eq, hword.kept, hword.room⟩
  | _ => exact h

theorem wordAgrees_append {old : ℤ} {request : SgxHttpRequest} {s : LineState}
    {r : Record LineCursor LineRegister} {chunk : List Byte}
    (h : WordAgrees old request s request.last r)
    (hfits : request.last % sgxMaxBuf + chunk.length ≤ sgxMaxBuf) :
    WordAgrees old (append request chunk) s request.last r := by
  cases s with
  | swStart => exact ⟨h.1, by simp only [append]; omega⟩
  | swMethod =>
    obtain ⟨hmethod, i, hi, hword⟩ := h
    have hkept := hword.kept
    rw [hword.pos_eq] at hkept
    have happend := hkept.append chunk
    rw [← hword.pos_eq] at happend
    exact ⟨hmethod, i, hi, hword.start, hword.pos_eq, happend, room_of_fits hfits⟩
  | _ => exact h

theorem wordStep_eq {old : ℤ} {request : SgxHttpRequest} {s : LineState} {pos : ℕ}
    {r : Record LineCursor LineRegister} (h : WordAgrees old request s pos r)
    (hpos : pos < request.last) :
    let c := request.buf (slot sgxMaxBuf pos)
    ∃ request', lineStep request s pos = stepTo request' (lineNext s c) ∧
      SameRing request' request ∧
      (∀ s', lineNext s c = .inl s' →
        WordAgrees old request' s' (pos + 1) (lineScanner.note s c pos r)) ∧
      (lineNext s c = .inr .done → Classified old request' (lineScanner.note s c pos r)) := by
  by_cases hs : s.pastWord
  · obtain ⟨request', hstep, hring, hclass⟩ := past_agrees hs pos ((wordAgrees_past hs).mp h)
    refine ⟨request', hstep, hring, fun s' hnext => ?_, fun _ => hclass⟩
    exact (wordAgrees_past (pastWord_next hs hnext)).mpr hclass
  · have hdone : lineNext s (request.buf (slot sgxMaxBuf pos)) ≠ .inr .done :=
      fun h => hs (pastWord_of_late (done_late h))
    cases s with
    | swStart =>
      obtain ⟨request', hstep, hring, hnext⟩ := start_agrees h
      exact ⟨request', hstep, hring, hnext, fun h => absurd h hdone⟩
    | swMethod =>
      obtain ⟨request', hstep, hring, hnext⟩ := word_agrees h hpos
      exact ⟨request', hstep, hring, hnext, fun h => absurd h hdone⟩
    | _ => exact absurd rfl hs

def methodFollowed (old : ℤ) : FollowedBy lineParser lineScanner where
  Agrees := WordAgrees old
  Ends request _ r := Classified old request r
  Fits last chunk := last % sgxMaxBuf + chunk.length ≤ sgxMaxBuf
  agrees_moved _ _ _ _ pos' state h := wordAgrees_moved pos' state h
  agrees_append _ _ _ _ h hfits := wordAgrees_append h hfits
  step_eq _ _ _ _ h hpos := wordStep_eq h hpos
  done_pos := lineParser_done_pos

/-- Reads store each chunk without a wrap, because they stop at the end of the buffer. -/
def Contiguous : ℕ → List (List Byte) → Prop
  | _, [] => True
  | last, chunk :: chunks =>
    last % sgxMaxBuf + chunk.length ≤ sgxMaxBuf ∧ Contiguous (last + chunk.length) chunks

theorem contiguous_read {request : SgxHttpRequest} (hpos : request.pos ≤ request.last)
    (hroom : request.last < request.pos + sgxMaxBuf) {chunk : List Byte}
    (hlen : chunk.length ≤ remainSize request) : Contiguous request.last [chunk] := by
  have hmod := Nat.mod_lt request.last (show 0 < sgxMaxBuf by decide)
  rw [remainSize_eq hpos hroom] at hlen
  exact ⟨by omega, trivial⟩

theorem methodFollowed_fitsAll {old : ℤ} {last : ℕ} {chunks : List (List Byte)}
    (h : Contiguous last chunks) : (methodFollowed old).FitsAll last chunks := by
  induction chunks generalizing last with
  | nil => trivial
  | cons chunk chunks ih => exact ⟨le_trans (Nat.le_add_left _ _) h.1, h.1, ih h.2⟩

def IsMethod (token : List Byte) : Prop :=
  token = [chr 'G', chr 'E', chr 'T'] ∨ token = [chr 'P', chr 'O', chr 'S', chr 'T'] ∨
    token = [chr 'H', chr 'E', chr 'A', chr 'D']

instance (token : List Byte) : Decidable (IsMethod token) := inferInstanceAs (Decidable (_ ∨ _))

def requestMethod (token : List Byte) : ℤ :=
  if token = [chr 'G', chr 'E', chr 'T'] then sgxHttpGet
  else if token = [chr 'P', chr 'O', chr 'S', chr 'T'] then sgxHttpPost
  else if token = [chr 'H', chr 'E', chr 'A', chr 'D'] then sgxHttpHead
  else sgxHttpUnknown

theorem requestMethod_unknown_iff (token : List Byte) :
    requestMethod token = sgxHttpUnknown ↔ ¬ IsMethod token := by
  unfold requestMethod IsMethod
  split_ifs with hget hpost hhead
  · simp [hget]
    decide
  · simp [hpost]
    decide
  · simp [hhead]
    decide
  · simp [hget, hpost, hhead]

theorem IsMethod.length {token : List Byte} (h : IsMethod token) :
    token.length = 3 ∨ token.length = 4 := by
  rcases h with rfl | rfl | rfl
  · exact .inl rfl
  · exact .inr rfl
  · exact .inr rfl

theorem methodOf_of_isMethod {token : List Byte} (h : IsMethod token) (old : ℤ) :
    methodOf token old = requestMethod token := by
  unfold methodOf requestMethod
  rcases h with rfl | rfl | rfl <;> rfl

theorem methodOf_of_not {token : List Byte} (h : ¬ IsMethod token) (old : ℤ) :
    methodOf token old = if token.length = 3 ∨ token.length = 4 then old else sgxHttpUnknown := by
  obtain ⟨hget, hpost, hhead⟩ : _ ∧ _ ∧ _ := by simpa only [IsMethod, not_or] using h
  rw [methodOf, if_neg hget, if_neg hpost, if_neg hhead]

def WordTold (start : ℕ) (token : List Byte) (old : ℤ) : Prop :=
  if Straddles sgxMaxBuf start (start + token.length) then ¬ IsMethod token
  else (IsMethod (wordTail token) → wordTail token = token) ∧
    ((wordTail token).length = 3 ∨ (wordTail token).length = 4 →
      IsMethod (wordTail token) ∨ old = sgxHttpUnknown)

theorem wordTail_or (token : List Byte) : wordTail token = token ∨ ¬ IsMethod token := by
  by_cases hlen : token.length < sgxMaxBuf
  · exact .inl (wordTail_of_lt hlen)
  · right
    intro h
    have hlong : 5 ≤ sgxMaxBuf := by decide
    rcases h.length with h | h <;> omega

theorem methodAt_eq_requestMethod_iff (start : ℕ) (token : List Byte) (old : ℤ) :
    methodAt start (wordTail token) old = requestMethod token ↔ WordTold start token old := by
  have hstraddle : Straddles sgxMaxBuf start (start + (wordTail token).length) ↔
      Straddles sgxMaxBuf start (start + token.length) := by
    unfold Straddles
    rw [wordTail_length, Nat.add_mod_mod]
  unfold methodAt WordTold
  by_cases hs : Straddles sgxMaxBuf start (start + token.length)
  · rw [if_pos (hstraddle.mpr hs), if_pos hs, eq_comm]
    exact requestMethod_unknown_iff token
  rw [if_neg (fun h => hs (hstraddle.mp h)), if_neg hs]
  by_cases hmethod : IsMethod (wordTail token)
  · rw [methodOf_of_isMethod hmethod]
    rcases wordTail_or token with htail | hnot
    · rw [htail] at hmethod ⊢
      exact iff_of_true rfl ⟨fun _ => rfl, fun _ => .inl hmethod⟩
    · -- a word longer than the ring that ends like a method
      have hunknown := (requestMethod_unknown_iff token).mpr hnot
      constructor
      · intro h
        exact absurd hmethod ((requestMethod_unknown_iff _).mp (h.trans hunknown))
      · rintro ⟨hsame, -⟩
        rw [hsame hmethod] at hmethod
        exact absurd hmethod hnot
  · have hnot : ¬ IsMethod token := by
      rcases wordTail_or token with htail | hnot
      · rwa [htail] at hmethod
      · exact hnot
    rw [methodOf_of_not hmethod, (requestMethod_unknown_iff token).mpr hnot]
    by_cases hlen : (wordTail token).length = 3 ∨ (wordTail token).length = 4
    · simp [hmethod, hlen]
    · simp [hmethod, hlen]

theorem feed_method {line : RequestLine acceptedByte} {rest first : List Byte}
    {chunks : List (List Byte)} {request : SgxHttpRequest} (hlast : request.last = request.pos)
    (hstate : request.state = LineState.swStart.code) (hfirst : first.length ≤ sgxMaxBuf)
    (hchunks : Contiguous (request.last + first.length) chunks)
    (hbytes : first ++ chunks.flatten = line.bytes ++ rest) :
    let answer := feed sgxHttpParseRequestLine request (first :: chunks)
    answer.1 = sgxOk ∧ answer.2.method =
      methodAt (request.pos + line.ends.length) (wordTail line.word) request.method := by
  intro answer
  have hagrees : WordAgrees request.method (append request first) .swStart request.pos
      (Record.empty (lineScanned.register request)) := by
    refine ⟨rfl, ?_⟩
    simp only [append, hlast]
    omega
  have hfollows := (methodFollowed request.method).feed_cons_follows chunks first request .swStart
    (Record.empty (lineScanned.register request)) hlast hstate hfirst hagrees
    (methodFollowed_fitsAll hchunks)
  obtain ⟨d, tail, hmajor, -⟩ := line.major_eq
  obtain ⟨n, r, hrun, -⟩ := line.run_version (fun _ h => h) hmajor request.pos rest
    (Record.empty (lineScanned.register request))
  rw [hbytes, hrun] at hfollows
  obtain ⟨hok, hdone⟩ := hfollows
  obtain ⟨-, i, hi, hmethod⟩ := hdone rfl
  obtain ⟨hstart, htoken⟩ := word_of_done _ _ _ _ hrun
  simp only [wordStart, wordFrom, line.skipped_eq wordBytes_accepted,
    line.methodWord_eq wordBytes_accepted] at hstart htoken
  rw [hstart] at hi
  obtain rfl := Option.some.inj hi
  refine ⟨hok, ?_⟩
  rw [show answer.2.method = _ from hmethod, htoken]

theorem method_told_iff (line : RequestLine acceptedByte) (rest first : List Byte)
    (chunks : List (List Byte)) (request : SgxHttpRequest) (hlast : request.last = request.pos)
    (hstate : request.state = LineState.swStart.code) (hfirst : first.length ≤ sgxMaxBuf)
    (hchunks : Contiguous (request.last + first.length) chunks)
    (hbytes : first ++ chunks.flatten = line.bytes ++ rest) :
    let answer := feed sgxHttpParseRequestLine request (first :: chunks)
    answer.1 = sgxOk ∧ (answer.2.method = requestMethod line.word ↔
      WordTold (request.pos + line.ends.length) line.word request.method) := by
  intro answer
  obtain ⟨hok, hmethod⟩ := feed_method hlast hstate hfirst hchunks hbytes
  refine ⟨hok, ?_⟩
  rw [show answer.2.method = _ from hmethod]
  exact methodAt_eq_requestMethod_iff _ _ _

theorem method_told_of_get :
    let line := getLine [chr '1'] [chr '0'] mem_major_one mem_minor_zero
    let request := { zeroRequest with method := sgxHttpPost }
    let answer := feed sgxHttpParseRequestLine request [line.bytes.take 2, line.bytes.drop 2]
    answer.2.method = requestMethod line.word := by
  intro line request answer
  have hchunks : Contiguous (request.last + (line.bytes.take 2).length) [line.bytes.drop 2] :=
    ⟨by decide, trivial⟩
  have hs : ¬ Straddles sgxMaxBuf 0 3 := by decide
  have hmethod : IsMethod (wordTail line.word) := by decide
  have htold : WordTold 0 line.word sgxHttpPost :=
    (if_neg hs).mpr ⟨fun _ => wordTail_of_lt (by decide), fun _ => .inl hmethod⟩
  exact (method_told_iff line [] (line.bytes.take 2) [line.bytes.drop 2] request rfl rfl (by decide)
    hchunks rfl).2.mpr htold

theorem put_keeps_old_method :
    let get := getLine [chr '1'] [chr '0'] mem_major_one mem_minor_zero
    let line : RequestLine acceptedByte := { get with
      word := [chr 'P', chr 'U', chr 'T']
      word_mem := mem_symbols_plus_of_all (by decide) (by decide) }
    let request := { zeroRequest with method := sgxHttpPost }
    let answer := feed sgxHttpParseRequestLine request [line.bytes]
    line.bytes.length ≤ sgxMaxBuf ∧ answer.1 = sgxOk ∧ answer.2.method = sgxHttpPost ∧
      answer.2.method ≠ requestMethod line.word := by
  decide

end Sginx.Http
