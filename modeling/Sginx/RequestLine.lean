import Sginx.LineAcceptance

namespace Sginx.Http

open Sginx.Library.RingBuffer Sginx.Library.Scanning
open scoped Computability

structure RequestLine (m : Byte → Prop) where
  ends : List Byte
  word : List Byte
  spacesBeforeUri : List Byte
  uri : List Byte
  spacesAfterUri : List Byte
  major : List Byte
  minor : List Byte
  stop : List Byte
  ends_mem : ends ∈ lineEnds
  word_mem : word ∈ methodOver m
  spacesBeforeUri_mem : spacesBeforeUri ∈ space * space∗
  uri_mem : uri ∈ Http.uri
  spacesAfterUri_mem : spacesAfterUri ∈ space * space∗
  major_mem : major ∈ Http.major
  minor_mem : minor ∈ Http.minor
  stop_mem : stop ∈ terminator

variable {m : Byte → Prop}

def RequestLine.behindUri (line : RequestLine m) : List Byte :=
  line.spacesAfterUri ++ [chr 'H', chr 'T', chr 'T', chr 'P', chr '/'] ++ line.major ++ [chr '.'] ++
    line.minor

def RequestLine.bytes (line : RequestLine m) : List Byte :=
  line.ends ++ line.word ++ line.spacesBeforeUri ++ line.uri ++ line.behindUri ++ line.stop

theorem mem_lineGrammar {u : List Byte} :
    u ∈ lineGrammar m ↔ ∃ line : RequestLine m, line.bytes = u := by
  constructor
  · intro h
    obtain ⟨_, h, stop, hstop, rfl⟩ := h
    obtain ⟨_, h, minor, hminor, rfl⟩ := h
    obtain ⟨_, h, _, rfl, rfl⟩ := h
    obtain ⟨_, h, major, hmajor, rfl⟩ := h
    obtain ⟨_, h, _, rfl, rfl⟩ := h
    obtain ⟨_, h, after, hafter, rfl⟩ := h
    obtain ⟨_, h, uri, huri, rfl⟩ := h
    obtain ⟨_, h, before, hbefore, rfl⟩ := h
    obtain ⟨ends, hends, word, hword, rfl⟩ := h
    refine ⟨⟨ends, word, before, uri, after, major, minor, stop, hends, hword, hbefore, huri, hafter,
      hmajor, hminor, hstop⟩, ?_⟩
    simp only [RequestLine.bytes, RequestLine.behindUri, List.append_assoc]
  · rintro ⟨line, rfl⟩
    have hmethod := Language.append_mem_mul line.ends_mem line.word_mem
    have huri := Language.append_mem_mul
      (Language.append_mem_mul hmethod line.spacesBeforeUri_mem) line.uri_mem
    have hslash : [chr 'H', chr 'T', chr 'T', chr 'P', chr '/'] ∈ httpSlash := mem_text.mpr rfl
    have hhttp := Language.append_mem_mul
      (Language.append_mem_mul huri line.spacesAfterUri_mem) hslash
    have hdot : [chr '.'] ∈ ({[chr '.']} : Language Byte) := mem_text.mpr rfl
    have hmajor := Language.append_mem_mul (Language.append_mem_mul hhttp line.major_mem) hdot
    have hline := Language.append_mem_mul
      (Language.append_mem_mul hmajor line.minor_mem) line.stop_mem
    simpa only [RequestLine.bytes, RequestLine.behindUri, List.append_assoc, lineGrammar] using hline

section Parts

variable (line : RequestLine m)

theorem RequestLine.ends_byte : ∀ c ∈ line.ends, isLineEnd c := by
  intro c hc
  simpa [isLineEnd] using mem_kstar_symbols.mp line.ends_mem c hc

theorem RequestLine.word_ne : line.word ≠ [] := (mem_symbols_plus.mp line.word_mem).1

theorem RequestLine.word_byte : ∀ c ∈ line.word, m c := (mem_symbols_plus.mp line.word_mem).2

theorem RequestLine.spacesBeforeUri_byte : ∀ c ∈ line.spacesBeforeUri, c = chr ' ' :=
  (mem_symbols_plus.mp line.spacesBeforeUri_mem).2

theorem RequestLine.spacesAfterUri_byte : ∀ c ∈ line.spacesAfterUri, c = chr ' ' :=
  (mem_symbols_plus.mp line.spacesAfterUri_mem).2

theorem RequestLine.uri_eq : ∃ tail, line.uri = chr '/' :: tail ∧ ∀ c ∈ tail, c ≠ chr ' ' := by
  obtain ⟨_, ⟨c, rfl, rfl⟩, tail, htail, h⟩ := line.uri_mem
  exact ⟨tail, h.symm, mem_kstar_symbols.mp htail⟩

theorem RequestLine.uri_byte : ∀ c ∈ line.uri, notSpace c := by
  obtain ⟨tail, huri, htail⟩ := line.uri_eq
  rw [huri, List.forall_mem_cons]
  exact ⟨by decide, fun c hc => by simpa [notSpace] using htail c hc⟩

theorem RequestLine.major_eq : ∃ d tail, line.major = d :: tail ∧ (chr '1' ≤ d ∧ d ≤ chr '9') ∧
    ∀ c ∈ tail, notDigit c = false := by
  obtain ⟨_, ⟨d, hd, rfl⟩, tail, htail, h⟩ := line.major_mem
  exact ⟨d, tail, h.symm, hd, fun c hc => digit_iff.mp (mem_kstar_symbols.mp htail c hc)⟩

theorem RequestLine.minor_eq : ∃ d tail, line.minor = d :: tail ∧
    ∀ c ∈ line.minor, notDigit c = false := by
  obtain ⟨hne, hdigits⟩ := mem_symbols_plus.mp line.minor_mem
  obtain ⟨d, tail, h⟩ := List.exists_cons_of_ne_nil hne
  exact ⟨d, tail, h, fun c hc => digit_iff.mp (hdigits c hc)⟩

theorem mem_terminator {stop : List Byte} (h : stop ∈ terminator) :
    ∃ spaces brk, stop = spaces ++ brk ∧ (∀ c ∈ spaces, c = chr ' ') ∧
      (brk = [lf] ∨ brk = [cr, lf]) := by
  rcases h with h | ⟨spaces, hspaces, brk, hbrk, rfl⟩
  · exact ⟨[], stop, rfl, List.forall_mem_nil _, h⟩
  · exact ⟨spaces, brk, rfl, (mem_symbols_plus.mp hspaces).2, hbrk⟩

end Parts

theorem dropWhile_append_stop {β : Type} {p : β → Bool} {xs ys : List β} (hxs : ∀ x ∈ xs, p x)
    (hys : ∀ y ∈ ys.head?, p y = false) : (xs ++ ys).dropWhile p = ys := by
  rw [List.dropWhile_append_of_pos hxs]
  cases ys with
  | nil => rfl
  | cons y ys => rw [List.dropWhile_cons_of_neg (by simp [hys y rfl])]

theorem takeWhile_append_stop {β : Type} {p : β → Bool} {xs ys : List β} (hxs : ∀ x ∈ xs, p x)
    (hys : ∀ y ∈ ys.head?, p y = false) : (xs ++ ys).takeWhile p = xs := by
  rw [List.takeWhile_append_of_pos hxs]
  cases ys with
  | nil => simp
  | cons y ys => rw [List.takeWhile_cons_of_neg (by simp [hys y rfl]), List.append_nil]

def uriOf (bytes : List Byte) : List Byte :=
  (((bytes.dropWhile isLineEnd).dropWhile notSpace).dropWhile (· = chr ' ')).takeWhile notSpace

theorem RequestLine.head?_word (hm : WordBytes m) (line : RequestLine m) (ys : List Byte) :
    ∀ c ∈ (line.word ++ ys).head?, isLineEnd c = false := by
  obtain ⟨c, word, hword⟩ := List.exists_cons_of_ne_nil line.word_ne
  have hc : m c := line.word_byte c (by rw [hword]; exact List.mem_cons_self)
  rw [hword]
  rintro y ⟨⟩
  obtain ⟨hcr, hlf, -⟩ := hm.ne hc
  simp [isLineEnd, hcr, hlf]

theorem RequestLine.dropWhile_ends (hm : WordBytes m) (line : RequestLine m) (rest : List Byte) :
    (line.bytes ++ rest).dropWhile isLineEnd =
      line.word ++ (line.spacesBeforeUri ++ (line.uri ++ (line.behindUri ++ (line.stop ++ rest)))) := by
  simp only [RequestLine.bytes, List.append_assoc]
  exact dropWhile_append_stop line.ends_byte (line.head?_word hm _)

theorem RequestLine.skipped_eq (hm : WordBytes m) (line : RequestLine m) (rest : List Byte) :
    skipped (line.bytes ++ rest) = line.ends.length := by
  simp only [skipped, RequestLine.bytes, List.append_assoc]
  rw [takeWhile_append_stop line.ends_byte (line.head?_word hm _)]

theorem head?_spaces {spaces : List Byte} (hne : spaces ≠ []) (h : ∀ c ∈ spaces, c = chr ' ')
    (ys : List Byte) : (spaces ++ ys).head? = some (chr ' ') := by
  obtain ⟨c, tail, rfl⟩ := List.exists_cons_of_ne_nil hne
  rw [h c List.mem_cons_self]
  rfl

theorem RequestLine.word_notSpace (hm : WordBytes m) (line : RequestLine m) :
    ∀ c ∈ line.word, notSpace c := fun c hc => by
  simp [notSpace, (hm.ne (line.word_byte c hc)).2.2]

theorem RequestLine.head?_spacesBeforeUri (line : RequestLine m) (ys : List Byte) :
    ∀ c ∈ (line.spacesBeforeUri ++ ys).head?, notSpace c = false := by
  rw [head?_spaces (mem_symbols_plus.mp line.spacesBeforeUri_mem).1 line.spacesBeforeUri_byte]
  rintro c ⟨⟩
  decide

theorem RequestLine.methodWord_eq (hm : WordBytes m) (line : RequestLine m) (rest : List Byte) :
    methodWord (line.bytes ++ rest) = line.word := by
  rw [methodWord, line.dropWhile_ends hm]
  exact takeWhile_append_stop (line.word_notSpace hm) (line.head?_spacesBeforeUri _)

theorem RequestLine.uriOf_eq (hm : WordBytes m) (line : RequestLine m) (rest : List Byte) :
    uriOf (line.bytes ++ rest) = line.uri := by
  have hafter := (mem_symbols_plus.mp line.spacesAfterUri_mem).1
  have hspaces : ∀ c ∈ line.spacesBeforeUri, decide (c = chr ' ') = true := fun c hc => by
    simp [line.spacesBeforeUri_byte c hc]
  rw [uriOf, line.dropWhile_ends hm,
    dropWhile_append_stop (line.word_notSpace hm) (line.head?_spacesBeforeUri _)]
  rw [dropWhile_append_stop hspaces]
  · apply takeWhile_append_stop line.uri_byte
    simp only [RequestLine.behindUri, List.append_assoc]
    rw [head?_spaces hafter line.spacesAfterUri_byte]
    rintro y ⟨⟩
    decide
  · obtain ⟨tail, huri, -⟩ := line.uri_eq
    rw [huri]
    rintro y ⟨⟩
    decide

structure OneLine (text : List Byte) : Prop where
  count_lf : text.count lf = 1
  last : text.getLast? = some lf
  cr_before : ∀ i, text[i]? = some cr → i + 2 = text.length

theorem oneLine_of_brk {body brk : List Byte} (hbody : ∀ c ∈ body, c ≠ cr ∧ c ≠ lf)
    (hbrk : brk = [lf] ∨ brk = [cr, lf]) : OneLine (body ++ brk) := by
  have hcr : cr ∉ body := fun h => (hbody cr h).1 rfl
  have hcount : body.count lf = 0 := List.count_eq_zero.mpr fun h => (hbody lf h).2 rfl
  rcases hbrk with rfl | rfl
  · refine ⟨by rw [List.count_append, hcount]; rfl, by simp, fun i hi => ?_⟩
    have hmem := List.mem_of_getElem? hi
    simp [hcr, cr_ne_lf] at hmem
  · refine ⟨by rw [List.count_append, hcount]; rfl, by simp, fun i hi => ?_⟩
    rw [List.getElem?_append] at hi
    split_ifs at hi with h
    · exact absurd (List.mem_of_getElem? hi) hcr
    rw [List.length_append, List.length_cons, List.length_singleton]
    rcases hj : i - body.length with _ | _ | j
    · omega
    · rw [hj] at hi
      exact absurd (Option.some.inj hi) cr_ne_lf.symm
    · rw [hj] at hi
      cases hi

theorem oneLine_iff {front mid back brk : List Byte} (hfront : ∀ c ∈ front, c ≠ cr ∧ c ≠ lf)
    (hback : ∀ c ∈ back, c ≠ cr ∧ c ≠ lf) (hne : back ≠ []) (hbrk : brk = [lf] ∨ brk = [cr, lf]) :
    OneLine (front ++ mid ++ back ++ brk) ↔ ∀ c ∈ mid, c ≠ cr ∧ c ≠ lf := by
  constructor
  · intro h c hc
    constructor
    · rintro rfl
      obtain ⟨i, hi⟩ := List.mem_iff_getElem?.mp hc
      have hlt : i < mid.length := (List.getElem?_eq_some_iff.mp hi).1
      have hat : (front ++ mid ++ back ++ brk)[front.length + i]? = some cr := by
        rw [List.append_assoc, List.append_assoc, List.getElem?_append_right (Nat.le_add_right _ _),
          Nat.add_sub_cancel_left, List.getElem?_append_left hlt]
        exact hi
      have hend := h.cr_before _ hat
      have hpos := List.length_pos_iff.mpr hne
      have hlen : 1 ≤ brk.length := by rcases hbrk with rfl | rfl <;> simp
      simp only [List.length_append] at hend
      omega
    · rintro rfl
      have hcount := h.count_lf
      have hmid := List.count_pos_iff.mpr hc
      have hlast : 1 ≤ brk.count lf := by rcases hbrk with rfl | rfl <;> decide
      simp only [List.count_append] at hcount
      omega
  · intro h
    apply oneLine_of_brk _ hbrk
    intro c hc
    rw [List.mem_append, List.mem_append] at hc
    rcases hc with (hc | hc) | hc
    · exact hfront c hc
    · exact h c hc
    · exact hback c hc

theorem digit_ne {c : Byte} (h : notDigit c = false) : c ≠ cr ∧ c ≠ lf := by
  constructor
  · rintro rfl
    exact absurd h (by decide)
  · rintro rfl
    exact absurd h (by decide)

theorem space_ne {c : Byte} (h : c = chr ' ') : c ≠ cr ∧ c ≠ lf := by
  rw [h]
  exact ⟨cr_ne_space.symm, lf_ne_space.symm⟩

theorem RequestLine.behindUri_byte (line : RequestLine m) :
    ∀ c ∈ line.behindUri, c ≠ cr ∧ c ≠ lf := by
  obtain ⟨d, tail, hmajor, hd, htail⟩ := line.major_eq
  obtain ⟨e, minor, -, hminor⟩ := line.minor_eq
  have hzero : chr '0' ≤ chr '1' := by decide
  have hfirst : notDigit d = false := digit_iff.mp ⟨UInt8.le_trans hzero hd.1, hd.2⟩
  have hhttp : ∀ c ∈ [chr 'H', chr 'T', chr 'T', chr 'P', chr '/'], c ≠ cr ∧ c ≠ lf :=
    List.all_iff_forall_prop.mp (by decide)
  intro c hc
  simp only [RequestLine.behindUri, List.mem_append, hmajor] at hc
  rcases hc with (((hc | hc) | hc) | hc) | hc
  · exact space_ne (line.spacesAfterUri_byte c hc)
  · exact hhttp c hc
  · rcases List.mem_cons.mp hc with rfl | hc
    · exact digit_ne hfirst
    · exact digit_ne (htail c hc)
  · rw [List.mem_singleton.mp hc]
    decide
  · exact digit_ne (hminor c hc)

theorem RequestLine.oneLine_iff (hm : WordBytes m) (line : RequestLine m) :
    OneLine (line.bytes.dropWhile isLineEnd) ↔ ∀ c ∈ line.uri, c ≠ cr ∧ c ≠ lf := by
  obtain ⟨spaces, brk, hstop, hspaces, hbrk⟩ := mem_terminator line.stop_mem
  have hbytes := line.dropWhile_ends hm []
  rw [List.append_nil, List.append_nil] at hbytes
  have hparts : line.bytes.dropWhile isLineEnd =
      (line.word ++ line.spacesBeforeUri) ++ line.uri ++ (line.behindUri ++ spaces) ++ brk := by
    rw [hbytes, hstop]
    simp only [List.append_assoc]
  rw [hparts]
  apply Http.oneLine_iff _ _ _ hbrk
  · intro c hc
    rcases List.mem_append.mp hc with hc | hc
    · exact ⟨(hm.ne (line.word_byte c hc)).1, (hm.ne (line.word_byte c hc)).2.1⟩
    · exact space_ne (line.spacesBeforeUri_byte c hc)
  · intro c hc
    rcases List.mem_append.mp hc with hc | hc
    · exact line.behindUri_byte c hc
    · exact space_ne (hspaces c hc)
  · simp [RequestLine.behindUri]

theorem LineParsed.exists_of_ok {grammar : Language Byte} {start : ℕ} {bytes : List Byte}
    {answer : ℤ × SgxHttpRequest} (h : LineParsed grammar start bytes answer)
    (hok : answer.1 = sgxOk) :
    ∃ u ∈ grammar, u <+: bytes ∧ answer.2.pos = start + u.length := by
  obtain ⟨u, hu, hprefix⟩ : ∃ u ∈ grammar, u <+: bytes := by
    by_contra hnone
    by_cases hagain : ∃ line ∈ grammar, bytes <+: line ∧ bytes ≠ line
    · have hcode := h.again.mpr hagain
      rw [hok] at hcode
      exact absurd hcode (by decide)
    · exact (h.otherwise hnone hagain).ne.1 hok
  exact ⟨u, hu, hprefix, ((h.ok u hprefix).mpr hu).2⟩

theorem line_of_ok {chunks : List (List Byte)} {request : SgxHttpRequest}
    (hlast : request.last = request.pos) (hstate : request.state = LineState.swStart.code)
    (hchunks : ∀ chunk ∈ chunks, chunk.length ≤ sgxMaxBuf)
    (hok : (feed sgxHttpParseRequestLine request chunks).1 = sgxOk) :
    ∃ line : RequestLine acceptedByte, ∃ rest, chunks.flatten = line.bytes ++ rest ∧
      (feed sgxHttpParseRequestLine request chunks).2.pos = request.pos + line.bytes.length := by
  obtain ⟨u, hu, ⟨rest, hrest⟩, hpos⟩ :=
    (feed_line_parsed chunks hlast hstate hchunks).exists_of_ok hok
  obtain ⟨line, rfl⟩ := mem_lineGrammar.mp hu
  exact ⟨line, rest, hrest.symm, hpos⟩

theorem one_line_iff (chunks : List (List Byte)) (request : SgxHttpRequest)
    (hlast : request.last = request.pos) (hstate : request.state = LineState.swStart.code)
    (hchunks : ∀ chunk ∈ chunks, chunk.length ≤ sgxMaxBuf)
    (hok : (feed sgxHttpParseRequestLine request chunks).1 = sgxOk) :
    let bytes := chunks.flatten
    let pos := (feed sgxHttpParseRequestLine request chunks).2.pos
    OneLine ((bytes.take (pos - request.pos)).dropWhile isLineEnd) ↔
      ∀ c ∈ uriOf bytes, c ≠ cr ∧ c ≠ lf := by
  intro bytes pos
  obtain ⟨line, rest, hbytes, hpos⟩ := line_of_ok hlast hstate hchunks hok
  have htake : bytes.take (pos - request.pos) = line.bytes := by
    simp only [bytes, pos]
    rw [hbytes, hpos, Nat.add_sub_cancel_left, List.take_left]
  rw [htake, line.oneLine_iff wordBytes_accepted]
  simp only [bytes]
  rw [hbytes, line.uriOf_eq wordBytes_accepted]

theorem one_line_of_get :
    let text := "\r\nGET /a HTTP/1.0 \r\nHost: b\r\n".toList.map chr
    OneLine ((text.take ((feed sgxHttpParseRequestLine zeroRequest [text]).2.pos - 0)).dropWhile
      isLineEnd) := by
  intro text
  have huri : uriOf text = "/a".toList.map chr := by decide
  apply (one_line_iff [text] zeroRequest rfl rfl (List.forall_mem_singleton.mpr (by decide))
    (by decide)).mpr
  rw [List.flatten_singleton, huri]
  exact List.all_iff_forall_prop.mp (by decide)

theorem header_line_in_uri :
    let text := "GET /a\nHost: HTTP/1.0\r\n".toList.map chr
    let answer := feed sgxHttpParseRequestLine zeroRequest [text]
    answer.1 = sgxOk ∧ answer.2.pos = text.length ∧
      ¬ OneLine ((text.take (answer.2.pos - 0)).dropWhile isLineEnd) := by
  intro text answer
  have hpos : answer.2.pos = text.length := by decide
  refine ⟨by decide, hpos, fun h => ?_⟩
  have hcount := h.count_lf
  rw [hpos] at hcount
  exact absurd hcount (by decide)

end Sginx.Http
