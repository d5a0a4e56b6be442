import Sginx.BodyScanner

namespace Sginx.Http

open Sginx.Library.RingBuffer Sginx.Library.Scanning

structure HeaderLine where
  key : List Byte
  spacesBeforeColon : ℕ
  spacesAfterColon : ℕ
  value : List Byte

def HeaderLine.bytes (line : HeaderLine) : List Byte :=
  line.key ++ List.replicate line.spacesBeforeColon (chr ' ') ++ [chr ':'] ++
    List.replicate line.spacesAfterColon (chr ' ') ++ line.value ++ [cr, lf]

def headerSection (lines : List HeaderLine) : List Byte :=
  (lines.map HeaderLine.bytes).flatten ++ [cr, lf]

def keyByte (c : Byte) : Prop := c ≠ chr ' ' ∧ c ≠ chr ':' ∧ c ≠ cr ∧ c ≠ lf

def valueByte (c : Byte) : Prop := c ≠ cr ∧ c ≠ lf

instance : DecidablePred keyByte := fun _ => inferInstanceAs (Decidable (_ ∧ _))

instance : DecidablePred valueByte := fun _ => inferInstanceAs (Decidable (_ ∧ _))

structure HeaderLine.Framed (line : HeaderLine) : Prop where
  key_ne : line.key ≠ []
  key_bytes : ∀ c ∈ line.key, keyByte c
  value_bytes : ∀ c ∈ line.value, valueByte c

def AtLineStart (s : BodyState) : Prop := s = .swStart ∨ s = .swCrlf

theorem next_space_key : bodyScanner.next .swKey (chr ' ') = .inl .swSpacesBeforeColon := rfl

theorem next_value {c : Byte} (hc : valueByte c) : bodyScanner.next .swValue c = .inl .swValue := by
  simp [bodyScanner, bodyNext, hc.1, hc.2]

theorem run_key_cons {s : BodyState} (hs : AtLineStart s) {c : Byte} (hcr : c ≠ cr)
    (hlf : s = .swStart → c ≠ lf) {tail : List Byte}
    (htail : ∀ b ∈ tail, b ≠ chr ' ' ∧ b ≠ chr ':') (pos : ℕ) (rest : List Byte)
    (r : Record BodyCursor Unit) :
    bodyScanner.run pos (c :: tail ++ rest) s r =
      bodyScanner.run (pos + (c :: tail).length) rest .swKey (r.mark .keyStart pos) := by
  have hnext : bodyScanner.next s c = .inl .swKey := by
    rcases hs with rfl | rfl
    · simp [bodyScanner, bodyNext, hcr, hlf rfl]
    · simp [bodyScanner, bodyNext, hcr]
  have hmark : bodyScanner.note s c pos r = r.mark .keyStart pos := by
    apply bodyScanner.note_eq_mark
    · rcases hs with rfl | rfl
      · rintro (_ | _ | _ | _) <;> simp [bodyScanner, bodyMarks, hcr, hlf rfl]
      · rintro (_ | _ | _ | _) <;> simp [bodyScanner, bodyMarks, hcr]
    · rcases hs with rfl | rfl <;> rfl
    · exact fun _ => rfl
  have hstay : ∀ b ∈ tail, bodyScanner.next .swKey b = .inl .swKey := by
    intro b hb
    simp [bodyScanner, bodyNext, (htail b hb).1, (htail b hb).2]
  rw [List.cons_append, bodyScanner.run_cons_inl hnext, hmark, bodyScanner.run_idle hstay,
    List.length_cons, Nat.add_assoc, Nat.add_comm 1]
  intro b hb
  obtain ⟨hspace, hcolon⟩ := htail b hb
  apply bodyScanner.note_eq_self
  · rintro (_ | _ | _ | _) <;> simp [bodyScanner, bodyMarks, hspace, hcolon]
  · rfl
  · exact fun _ => rfl

theorem run_key {s : BodyState} (hs : AtLineStart s) {key : List Byte} (hne : key ≠ [])
    (hkey : ∀ c ∈ key, keyByte c) (pos : ℕ) (rest : List Byte) (r : Record BodyCursor Unit) :
    bodyScanner.run pos (key ++ rest) s r =
      bodyScanner.run (pos + key.length) rest .swKey (r.mark .keyStart pos) := by
  obtain ⟨c, tail, rfl⟩ := List.exists_cons_of_ne_nil hne
  rw [List.forall_mem_cons] at hkey
  obtain ⟨⟨-, -, hcr, hlf⟩, htail⟩ := hkey
  exact run_key_cons hs hcr (fun _ => hlf) (fun b hb => ⟨(htail b hb).1, (htail b hb).2.1⟩) pos rest r

theorem note_spaces {s : BodyState} (hs : s = .swSpacesBeforeColon ∨ s = .swSpacesAfterColon)
    (pos : ℕ) (r : Record BodyCursor Unit) : bodyScanner.note s (chr ' ') pos r = r := by
  apply bodyScanner.note_eq_self
  · rcases hs with rfl | rfl <;> rintro (_ | _ | _ | _) <;> rfl
  · rcases hs with rfl | rfl <;> rfl
  · exact fun _ => rfl

theorem run_spaces {s : BodyState} (hs : s = .swSpacesBeforeColon ∨ s = .swSpacesAfterColon)
    (n pos : ℕ) (rest : List Byte) (r : Record BodyCursor Unit) :
    bodyScanner.run pos (List.replicate n (chr ' ') ++ rest) s r =
      bodyScanner.run (pos + n) rest s r := by
  rw [bodyScanner.run_idle, List.length_replicate]
  · intro b hb
    rw [List.eq_of_mem_replicate hb]
    rcases hs with rfl | rfl <;> rfl
  · intro b hb
    rw [List.eq_of_mem_replicate hb]
    exact note_spaces hs

theorem run_colon (n pos : ℕ) (rest : List Byte) (r : Record BodyCursor Unit) :
    bodyScanner.run pos (List.replicate n (chr ' ') ++ chr ':' :: rest) .swKey r =
      bodyScanner.run (pos + n + 1) rest .swSpacesAfterColon (r.mark .keyEnd pos) := by
  have hmark (c : Byte) (hc : c = chr ' ' ∨ c = chr ':') :
      bodyScanner.note .swKey c pos r = r.mark .keyEnd pos := by
    apply bodyScanner.note_eq_mark
    · rintro (_ | _ | _ | _) <;> simp [bodyScanner, bodyMarks, hc]
    · rfl
    · exact fun _ => rfl
  cases n with
  | zero =>
    rw [List.replicate_zero, List.nil_append, bodyScanner.run_cons_inl rfl, hmark _ (.inr rfl)]
  | succ n =>
    have hcolon : bodyScanner.note .swSpacesBeforeColon (chr ':') (pos + 1 + n)
        (r.mark .keyEnd pos) = r.mark .keyEnd pos := by
      apply bodyScanner.note_eq_self
      · rintro (_ | _ | _ | _) <;> rfl
      · rfl
      · exact fun _ => rfl
    rw [List.replicate_succ, List.cons_append,
      bodyScanner.run_cons_inl next_space_key, hmark _ (.inl rfl),
      run_spaces (.inl rfl), bodyScanner.run_cons_inl rfl, hcolon, Nat.add_right_comm pos 1 n,
      Nat.add_assoc pos n 1]

theorem reaches_key {s : BodyState} (hs : AtLineStart s) {key : List Byte} (hne : key ≠ [])
    (hkey : ∀ c ∈ key, keyByte c) : bodyScanner.Reaches s key .swKey := by
  intro pos rest r
  exact ⟨_, run_key hs hne hkey pos rest r⟩

theorem reaches_colon (n : ℕ) : bodyScanner.Reaches .swKey
    (List.replicate n (chr ' ') ++ [chr ':']) .swSpacesAfterColon := by
  intro pos rest r
  refine ⟨r.mark .keyEnd pos, ?_⟩
  rw [List.append_assoc, List.length_append, List.length_replicate, List.length_singleton,
    ← Nat.add_assoc]
  exact run_colon n pos rest r

theorem reaches_value_end {bs : List Byte} (h : ∀ c ∈ bs, valueByte c) :
    bodyScanner.Reaches .swValue (bs ++ [cr, lf]) .swCrlf := by
  have hvalue : bodyScanner.Reaches .swValue bs .swValue :=
    Scanner.Reaches.stay fun b hb => next_value (h b hb)
  have hend : bodyScanner.Reaches .swValue [cr, lf] .swCrlf :=
    Scanner.Reaches.cons rfl (Scanner.Reaches.single rfl)
  exact hvalue.append hend

theorem reaches_line_end {bs : List Byte} (h : ∀ c ∈ bs, valueByte c) :
    bodyScanner.Reaches .swSpacesAfterColon (bs ++ [cr, lf]) .swCrlf := by
  induction bs with
  | nil => exact Scanner.Reaches.cons rfl (Scanner.Reaches.single rfl)
  | cons b bs ih =>
    rw [List.forall_mem_cons] at h
    by_cases hb : b = chr ' '
    · exact (ih h.2).cons (by simp [bodyScanner, bodyNext, hb])
    · exact (reaches_value_end h.2).cons (by simp [bodyScanner, bodyNext, hb])

theorem reaches_line {s : BodyState} (hs : AtLineStart s) {line : HeaderLine} (h : line.Framed) :
    bodyScanner.Reaches s line.bytes .swCrlf := by
  have hend : ∀ c ∈ List.replicate line.spacesAfterColon (chr ' ') ++ line.value, valueByte c := by
    intro c hc
    rcases List.mem_append.mp hc with hspace | hvalue
    · rw [List.eq_of_mem_replicate hspace]
      exact ⟨cr_ne_space.symm, lf_ne_space.symm⟩
    · exact h.value_bytes c hvalue
  have hline := ((reaches_key hs h.key_ne h.key_bytes).append
    (reaches_colon line.spacesBeforeColon)).append (reaches_line_end hend)
  simpa only [HeaderLine.bytes, List.append_assoc] using hline

theorem reaches_lines {lines : List HeaderLine} (hne : lines ≠ [])
    (h : ∀ line ∈ lines, line.Framed) {s : BodyState} (hs : AtLineStart s) :
    bodyScanner.Reaches s (lines.map HeaderLine.bytes).flatten .swCrlf := by
  induction lines generalizing s with
  | nil => exact absurd rfl hne
  | cons line lines ih =>
    rw [List.forall_mem_cons] at h
    have hline := reaches_line hs h.1
    rw [List.map_cons, List.flatten_cons]
    by_cases hlast : lines = []
    · subst hlast
      simpa using hline
    · exact hline.append (ih hlast h.2 (.inr rfl))

theorem section_length (lines : List HeaderLine) : (headerSection lines).length =
    (lines.map HeaderLine.bytes).flatten.length + 2 := by
  rw [headerSection, List.length_append]
  rfl

theorem run_section {lines : List HeaderLine} (hne : lines ≠ [])
    (h : ∀ line ∈ lines, line.Framed) (rest : List Byte) (r : Record BodyCursor Unit) :
    ∃ r', bodyScanner.run 0 (headerSection lines ++ rest) .swStart r =
      (.inr .done, (lines.map HeaderLine.bytes).flatten.length + 1, r') := by
  obtain ⟨r', hr'⟩ := reaches_lines hne h (.inl rfl) 0 ([cr, lf] ++ rest) r
  rw [headerSection, List.append_assoc, hr', Nat.zero_add]
  exact ⟨_, rfl⟩

theorem run_ends {ends : List Byte} (hends : ∀ c ∈ ends, c = cr ∨ c = lf) (pos : ℕ)
    (rest : List Byte) (r : Record BodyCursor Unit) :
    bodyScanner.run pos (ends ++ rest) .swStart r =
      bodyScanner.run (pos + ends.length) rest .swStart r := by
  apply bodyScanner.run_idle
  · intro b hb
    simp [bodyScanner, bodyNext, hends b hb]
  · intro b hb
    apply bodyScanner.note_eq_self
    · rintro (_ | _ | _ | _) <;> rcases hends b hb with rfl | rfl <;> rfl
    · rfl
    · exact fun _ => rfl

theorem run_empty_section (rest : List Byte) (r : Record BodyCursor Unit) :
    bodyScanner.run 0 (headerSection [] ++ rest) .swStart r =
      bodyScanner.run 2 rest .swStart r := by
  have hends : ∀ b ∈ headerSection [], b = cr ∨ b = lf := by simp [headerSection]
  exact run_ends hends 0 rest r

theorem parse_body_eq {request : SgxHttpRequest} {bs : List Byte} (hne : bs ≠ [])
    (hstate : request.state = 0) (hunread : unread request = bs) :
    sgxHttpParseRequestBody request = bodyScanned.result request.pos request
      (bodyScanner.run 0 bs .swStart (Record.empty ())) := by
  have hle : request.pos ≤ request.last := by
    by_contra hlt
    apply hne
    rw [← hunread, unread, show request.last - request.pos = 0 by omega, window]
  rw [← hunread]
  exact bodyScanned.parse_start request .swStart hle hstate trivial

theorem section_framing_iff (lines : List HeaderLine) (h : ∀ line ∈ lines, line.Framed)
    (rest : List Byte) (request : SgxHttpRequest) (hstate : request.state = 0)
    (hunread : unread request = headerSection lines ++ rest) :
    ((sgxHttpParseRequestBody request).1 = sgxOk ∧
      (sgxHttpParseRequestBody request).2.pos = request.pos + (headerSection lines).length) ↔
      lines ≠ [] := by
  have hne : headerSection lines ++ rest ≠ [] := by simp [headerSection]
  rw [parse_body_eq hne hstate hunread]
  constructor
  · rintro ⟨hok, hpos⟩ rfl
    rw [run_empty_section] at hok hpos
    rcases hrun : bodyScanner.run 2 rest .swStart (Record.empty ()) with ⟨s | x, k, r⟩
    · rw [hrun] at hok
      cases hok
    · rw [hrun] at hok hpos
      obtain rfl := bodyScanned.result_inr_done (.inl hok)
      have hk := (bodyScanner.run_inr hrun).1
      have hpos' : request.pos + k + 1 = request.pos + 2 := hpos
      omega
  · intro hlines
    obtain ⟨r, hr⟩ := run_section hlines h rest (Record.empty ())
    rw [hr, section_length]
    exact ⟨rfl, rfl⟩

theorem section_framing_one_line :
    let line : HeaderLine := ⟨[chr 'a'], 0, 2, []⟩
    let request := append zeroRequest (headerSection [line] ++ [chr 'T'])
    (sgxHttpParseRequestBody request).1 = sgxOk ∧
      (sgxHttpParseRequestBody request).2.pos = 0 + (headerSection [line]).length :=
  (section_framing_iff [⟨[chr 'a'], 0, 2, []⟩]
    (List.forall_mem_singleton.mpr ⟨by decide, List.forall_mem_singleton.mpr (by decide),
      List.forall_mem_nil _⟩) [chr 'T'] _ rfl (unread_append rfl (by decide))).mpr (by decide)

theorem no_header_line_is_not_framed :
    let request := append zeroRequest (headerSection [] ++ [chr 'T'])
    request.state = 0 ∧ unread request = headerSection [] ++ [chr 'T'] ∧
      (sgxHttpParseRequestBody request).1 = sgxAgain ∧
      ¬ ((sgxHttpParseRequestBody request).1 = sgxOk ∧
        (sgxHttpParseRequestBody request).2.pos = request.pos + (headerSection []).length) := by
  intro request
  have hagain : (sgxHttpParseRequestBody request).1 = sgxAgain := by decide
  refine ⟨rfl, unread_append rfl (by decide), hagain, fun h => ?_⟩
  rw [hagain] at h
  exact absurd h.1 (by decide)

structure HeaderLine.Valid (line : HeaderLine) : Prop extends line.Framed where
  value_ne : line.value ≠ []
  value_head : line.value.head? ≠ some (chr ' ')

def HeaderLine.valueOffset (line : HeaderLine) : ℕ :=
  line.key.length + line.spacesBeforeColon + 1 + line.spacesAfterColon

theorem HeaderLine.bytes_length (line : HeaderLine) :
    line.bytes.length = line.valueOffset + line.value.length + 2 := by
  simp only [bytes, valueOffset, List.length_append, List.length_replicate, List.length_cons,
    List.length_nil]

def headerEntry (pos : ℕ) (line : HeaderLine) : SgxHttpHeader where
  keyStart := ptrAt pos
  keyEnd := ptrAt (pos + line.key.length)
  valueStart := ptrAt (pos + line.valueOffset)
  valueEnd := ptrAt (pos + line.valueOffset + line.value.length)

def headerEntries : ℕ → List HeaderLine → List SgxHttpHeader
  | _, [] => []
  | pos, line :: lines => headerEntry pos line :: headerEntries (pos + line.bytes.length) lines

theorem headerEntries_length (pos : ℕ) (lines : List HeaderLine) :
    (headerEntries pos lines).length = lines.length := by
  induction lines generalizing pos with
  | nil => rfl
  | cons line lines ih => rw [headerEntries, List.length_cons, ih, List.length_cons]

def headerCursor (pos : ℕ) (line : HeaderLine) : BodyCursor → Option ℕ
  | .keyStart => some pos
  | .keyEnd => some (pos + line.key.length)
  | .valueStart => some (pos + line.valueOffset)
  | .valueEnd => some (pos + line.valueOffset + line.value.length)

theorem renderEntry_headerCursor (base pos : ℕ) (request : SgxHttpRequest) (line : HeaderLine) :
    renderEntry base request (headerCursor pos line) = headerEntry (base + pos) line := by
  simp only [renderEntry, headerCursor, headerEntry, ptrFrom, Nat.add_assoc]

theorem run_value_cons {c : Byte} (hspace : c ≠ chr ' ') {tail : List Byte}
    (htail : ∀ b ∈ tail, valueByte b) (pos : ℕ) (rest : List Byte) (r : Record BodyCursor Unit) :
    bodyScanner.run pos (c :: tail ++ rest) .swSpacesAfterColon r =
      bodyScanner.run (pos + (c :: tail).length) rest .swValue (r.mark .valueStart pos) := by
  have hnext : bodyScanner.next .swSpacesAfterColon c = .inl .swValue := by
    simp [bodyScanner, bodyNext, hspace]
  have hmark : bodyScanner.note .swSpacesAfterColon c pos r = r.mark .valueStart pos := by
    apply bodyScanner.note_eq_mark
    · rintro (_ | _ | _ | _) <;> simp [bodyScanner, bodyMarks, hspace]
    · rfl
    · exact fun _ => rfl
  rw [List.cons_append, bodyScanner.run_cons_inl hnext, hmark,
    bodyScanner.run_idle (fun b hb => next_value (htail b hb)), List.length_cons,
    Nat.add_assoc, Nat.add_comm 1]
  intro b hb
  obtain ⟨hcr, hlf⟩ := htail b hb
  apply bodyScanner.note_eq_self
  · rintro (_ | _ | _ | _) <;> simp [bodyScanner, bodyMarks, hcr, hlf]
  · rfl
  · exact fun _ => rfl

theorem run_value {value : List Byte} (hne : value ≠ []) (hhead : value.head? ≠ some (chr ' '))
    (hvalue : ∀ c ∈ value, valueByte c) (pos : ℕ) (rest : List Byte)
    (r : Record BodyCursor Unit) :
    bodyScanner.run pos (value ++ rest) .swSpacesAfterColon r =
      bodyScanner.run (pos + value.length) rest .swValue (r.mark .valueStart pos) := by
  obtain ⟨c, tail, rfl⟩ := List.exists_cons_of_ne_nil hne
  rw [List.forall_mem_cons] at hvalue
  have hspace : c ≠ chr ' ' := fun h => hhead (by rw [h, List.head?_cons])
  exact run_value_cons hspace hvalue.2 pos rest r

theorem note_value_end {c : Byte} (hc : c = cr ∨ c = lf) (pos : ℕ) (r : Record BodyCursor Unit) :
    bodyScanner.note .swValue c pos r = r.mark .valueEnd pos := by
  apply bodyScanner.note_eq_mark
  · rcases hc with rfl | rfl <;> rintro (_ | _ | _ | _) <;> rfl
  · rfl
  · exact fun _ => rfl

theorem run_line_end (pos : ℕ) (rest : List Byte) (r : Record BodyCursor Unit) :
    bodyScanner.run pos (cr :: lf :: rest) .swValue r = bodyScanner.run (pos + 2) rest .swCrlf
      ⟨(r.mark .valueEnd pos).cursor, (r.mark .valueEnd pos).cursor :: r.entries, ()⟩ := by
  rw [bodyScanner.run_cons_inl rfl, note_value_end (.inl rfl), bodyScanner.run_cons_inl rfl]
  rfl

theorem marks_eq_headerCursor (pos : ℕ) (line : HeaderLine) (r : Record BodyCursor Unit) :
    ((((r.mark .keyStart pos).mark .keyEnd (pos + line.key.length)).mark .valueStart
      (pos + line.valueOffset)).mark .valueEnd
        (pos + line.valueOffset + line.value.length)).cursor = headerCursor pos line := by
  funext m
  cases m <;> simp [Record.mark, headerCursor]

theorem valueOffset_eq (pos : ℕ) (line : HeaderLine) :
    pos + line.key.length + line.spacesBeforeColon + 1 + line.spacesAfterColon =
      pos + line.valueOffset := by
  rw [HeaderLine.valueOffset]
  omega

theorem run_line {s : BodyState} (hs : AtLineStart s) {line : HeaderLine} (h : line.Valid)
    (pos : ℕ) (rest : List Byte) (r : Record BodyCursor Unit) :
    bodyScanner.run pos (line.bytes ++ rest) s r =
      bodyScanner.run (pos + line.bytes.length) rest .swCrlf
        ⟨headerCursor pos line, headerCursor pos line :: r.entries, ()⟩ := by
  have hbytes : line.bytes ++ rest = line.key ++ (List.replicate line.spacesBeforeColon (chr ' ') ++
      chr ':' :: (List.replicate line.spacesAfterColon (chr ' ') ++
        (line.value ++ (cr :: lf :: rest)))) := by
    simp [HeaderLine.bytes]
  rw [hbytes, run_key hs h.key_ne h.key_bytes, run_colon, run_spaces (.inr rfl), valueOffset_eq,
    run_value h.value_ne h.value_head h.value_bytes, run_line_end, marks_eq_headerCursor,
    line.bytes_length, ← Nat.add_assoc, ← Nat.add_assoc]
  rfl

def headerCursors : ℕ → List HeaderLine → List (BodyCursor → Option ℕ)
  | _, [] => []
  | pos, line :: lines => headerCursor pos line :: headerCursors (pos + line.bytes.length) lines

theorem map_renderEntry_headerCursors (base pos : ℕ) (request : SgxHttpRequest)
    (lines : List HeaderLine) : (headerCursors pos lines).map (renderEntry base request) =
      headerEntries (base + pos) lines := by
  induction lines generalizing pos with
  | nil => rfl
  | cons line lines ih =>
    rw [headerCursors, List.map_cons, renderEntry_headerCursor, ih, headerEntries, Nat.add_assoc]

theorem run_lines {lines : List HeaderLine} (hne : lines ≠ []) (h : ∀ line ∈ lines, line.Valid)
    {s : BodyState} (hs : AtLineStart s) (pos : ℕ) (rest : List Byte)
    (r : Record BodyCursor Unit) :
    ∃ cursor, bodyScanner.run pos ((lines.map HeaderLine.bytes).flatten ++ rest) s r =
      bodyScanner.run (pos + (lines.map HeaderLine.bytes).flatten.length) rest .swCrlf
        ⟨cursor, (headerCursors pos lines).reverse ++ r.entries, ()⟩ := by
  induction lines generalizing s pos r with
  | nil => exact absurd rfl hne
  | cons line lines ih =>
    rw [List.forall_mem_cons] at h
    rw [List.map_cons, List.flatten_cons, List.append_assoc, run_line hs h.1]
    by_cases hlast : lines = []
    · subst hlast
      exact ⟨headerCursor pos line, by simp [headerCursors]⟩
    · obtain ⟨cursor, hcursor⟩ := ih hlast h.2 (.inr rfl) (pos + line.bytes.length)
        ⟨headerCursor pos line, headerCursor pos line :: r.entries, ()⟩
      exact ⟨cursor, by rw [hcursor]; simp [headerCursors, Nat.add_assoc]⟩

theorem header_round_trip (lines : List HeaderLine) (hne : lines ≠ [])
    (h : ∀ line ∈ lines, line.Valid) (rest : List Byte) (request : SgxHttpRequest)
    (hstate : request.state = 0) (hunread : unread request = headerSection lines ++ rest) :
    let answer := sgxHttpParseRequestBody request
    answer.1 = sgxOk ∧ answer.2.pos = request.pos + (headerSection lines).length ∧
      answer.2.list.length = lines.length + request.list.length ∧
      answer.2.list = (headerEntries request.pos lines).reverse ++ request.list := by
  intro answer
  have hbytes : headerSection lines ++ rest ≠ [] := by simp [headerSection]
  obtain ⟨cursor, hrun⟩ := run_lines hne h (.inl rfl) 0 (cr :: lf :: rest) (Record.empty ())
  rw [Nat.zero_add] at hrun
  have hanswer : answer = bodyScanned.result request.pos request
      (bodyScanner.run (lines.map HeaderLine.bytes).flatten.length (cr :: lf :: rest) .swCrlf
        ⟨cursor, (headerCursors 0 lines).reverse ++ (Record.empty ()).entries, ()⟩) := by
    rw [← hrun]
    have hparse := parse_body_eq hbytes hstate hunread
    rwa [headerSection, List.append_assoc] at hparse
  have hlist : answer.2.list = (headerEntries request.pos lines).reverse ++ request.list := by
    rw [hanswer]
    have hrender := map_renderEntry_headerCursors request.pos 0 request lines
    rw [Nat.add_zero] at hrender
    rw [← hrender, ← List.map_reverse]
    refine congrArg (· ++ request.list) (congrArg (List.map (renderEntry request.pos request)) ?_)
    exact List.append_nil _
  refine ⟨by rw [hanswer]; rfl, by rw [hanswer, section_length]; rfl, ?_, hlist⟩
  rw [hlist, List.length_append, List.length_reverse, headerEntries_length]

theorem header_round_trip_two_lines :
    let lines : List HeaderLine := [⟨[chr 'a'], 0, 1, [chr 'b']⟩, ⟨[chr 'k'], 2, 0, [chr 'v', chr ' ']⟩]
    let request := append (moved zeroRequest zeroRequest.buf 8120 8120 0) (headerSection lines)
    (sgxHttpParseRequestBody request).2.list = (headerEntries 8120 lines).reverse := by
  intro lines request
  have hvalid : ∀ line ∈ lines, line.Valid := by
    intro line hline
    rcases List.mem_cons.mp hline with rfl | hline
    · exact ⟨⟨by decide, List.forall_mem_singleton.mpr (by decide),
        List.forall_mem_singleton.mpr (by decide)⟩, by decide, by decide⟩
    · obtain rfl := List.mem_singleton.mp hline
      exact ⟨⟨by decide, List.forall_mem_singleton.mpr (by decide), List.forall_mem_cons.mpr
        ⟨by decide, List.forall_mem_singleton.mpr (by decide)⟩⟩, by decide, by decide⟩
  have h := header_round_trip lines (List.cons_ne_nil _ _) hvalid [] request rfl
    (by rw [unread_append rfl (by decide), List.append_nil])
  rw [h.2.2.2]
  exact List.append_nil _

end Sginx.Http
