import Sginx.HeaderEntries
import Sginx.HeaderNames
import Sginx.MethodToken

namespace Sginx.Http

open Sginx.Library.RingBuffer Sginx.Library.Scanning

structure Message where
  line : RequestLine acceptedByte
  text : SectionText

def Message.bytes (message : Message) : List Byte := message.line.bytes ++ message.text.bytes

/-- The parser saves no header of a line that ends with a bare `LF`. -/
def Message.headers (message : Message) : List (List Byte × List Byte) :=
  (message.text.lines.filter (·.crlf)).map fun line => (line.key, line.value)

def ringSlice (buf : Fin sgxMaxBuf → Byte) (start stop : Ptr) : List Byte :=
  match start, stop with
  | some i, some j => window buf i.toNat ((j - i) % sgxMaxBuf).toNat
  | _, _ => []

def headerRead (buf : Fin sgxMaxBuf → Byte) (head : SgxHttpHeader) : List Byte × List Byte :=
  (ringSlice buf head.keyStart head.keyEnd, ringSlice buf head.valueStart head.valueEnd)

inductive Called : ℕ → SgxHttpRequest → SgxHttpRequest → Prop where
  | none (request) : Called 0 request request
  | message {n request request₁ request₂ request'} :
      sgxHttpParseRequestLine request = (sgxOk, request₁) →
      sgxHttpParseRequestBody request₁ = (sgxOk, request₂) →
      Called n request₂ request' → Called (n + 1) request request'

structure Told (message : Message) (before after : SgxHttpRequest) : Prop where
  method : WordTold (before.pos + message.line.ends.length) message.line.word before.method →
    after.method = requestMethod message.line.word
  uri : ringSlice after.buf after.uriStart after.uriEnd = message.line.uri
  minor : after.httpMinor = cInt (decimal message.line.minor)
  headers : ∃ heads : List SgxHttpHeader, after.list = heads.reverse ++ before.list ∧
    heads.map (headerRead after.buf) = message.headers

inductive Read : SgxHttpRequest → List Message → SgxHttpRequest → Prop where
  | none (request) : Read request [] request
  | message {message messages request request₁ request₂ request'} :
      sgxHttpParseRequestLine request = (sgxOk, request₁) →
      sgxHttpParseRequestBody request₁ = (sgxOk, request₂) →
      Told message request request₂ → Read request₂ messages request' →
      Read request (message :: messages) request'

theorem window_slot (buf : Fin sgxMaxBuf → Byte) (i n : ℕ) :
    window buf (i % sgxMaxBuf) n = window buf i n := by
  induction n generalizing i with
  | zero => rfl
  | succ n ih =>
    have hslot : slot sgxMaxBuf (i % sgxMaxBuf) = slot sgxMaxBuf i :=
      Fin.ext (Nat.mod_mod i sgxMaxBuf)
    have hnext := ih (i % sgxMaxBuf + 1)
    rw [window, window, hslot, ← hnext, ← ih (i + 1), Nat.mod_add_mod]

theorem ringSlice_ptrAt (buf : Fin sgxMaxBuf → Byte) {i n : ℕ} (hn : n < sgxMaxBuf) :
    ringSlice buf (ptrAt i) (ptrAt (i + n)) = window buf i n := by
  have hmod : ((((slot sgxMaxBuf (i + n) : ℕ) : ℤ) - ((slot sgxMaxBuf i : ℕ) : ℤ)) %
      (sgxMaxBuf : ℤ)).toNat = n := by
    rw [slot_val, slot_val]
    simp only [sgxMaxBuf] at hn ⊢
    omega
  simp only [ringSlice, ptrAt]
  rw [hmod, Int.toNat_natCast, slot_val, window_slot]

theorem SliceOf.ringSlice_eq {request : SgxHttpRequest} {start stop : Ptr} {text : List Byte}
    (h : SliceOf request start stop text) : ringSlice request.buf start stop = text := by
  obtain ⟨i, rfl, rfl, hlen, hholds⟩ := h
  rw [ringSlice_ptrAt _ hlen]
  exact hholds.window_eq

theorem slice_held {request : SgxHttpRequest} {pos : ℕ} {before part after : List Byte}
    (h : Holds request.buf pos (before ++ (part ++ after))) (hpart : part.length < sgxMaxBuf) :
    SliceOf request (ptrAt (pos + before.length)) (ptrAt (pos + before.length + part.length))
      part := by
  have hdrop := h.drop before.length
  rw [List.drop_left] at hdrop
  exact ⟨pos + before.length, rfl, rfl, hpart, hdrop.append_left⟩

theorem holds_unread (request : SgxHttpRequest) : Holds request.buf request.pos (unread request) :=
  holds_window request.buf request.pos _

theorem unread_moved {request : SgxHttpRequest} {front rest : List Byte} {pos' : ℕ}
    (h : unread request = front ++ rest) (hpos : pos' = request.pos + front.length) :
    window request.buf pos' (request.last - pos') = rest := by
  have hlen := congrArg List.length h
  rw [unread_length, List.length_append] at hlen
  have hdrop := (holds_unread request).drop front.length
  rw [h, List.drop_left] at hdrop
  have hwindow := hdrop.window_eq
  rw [hpos, show request.last - (request.pos + front.length) = rest.length by omega]
  exact hwindow

theorem late_run_uri {s : LineState} (hs : s.late) (bytes : List Byte) (pos : ℕ)
    (r : Record LineCursor LineRegister) {m : LineCursor} (hm : m = .uriStart ∨ m = .uriEnd) :
    (lineScanner.run pos bytes s r).2.2.cursor m = r.cursor m := by
  have hnote (s : LineState) (hs : s.late) (c : Byte) (pos : ℕ)
      (r : Record LineCursor LineRegister) :
      (lineScanner.note s c pos r).cursor m = r.cursor m := by
    rw [note_cursor_line]
    rcases hm with rfl | rfl <;> cases s <;> first | rfl | exact absurd hs Bool.false_ne_true
  induction bytes generalizing s pos r with
  | nil => rfl
  | cons c bytes ih =>
    rw [Scanner.run]
    cases hnext : lineScanner.next s c with
    | inl s' =>
      dsimp only
      rw [ih (late_next hs hnext), hnote s hs]
    | inr x => exact hnote s hs c pos r

theorem RequestLine.reaches_uri {m : Byte → Prop} (hm : ∀ c, m c → acceptedByte c)
    (line : RequestLine m) : lineScanner.Reaches .swStart
      (line.ends ++ line.word ++ line.spacesBeforeUri) .swSpacesBeforeUri := by
  have hends : lineScanner.Reaches .swStart line.ends .swStart := by
    apply Scanner.Reaches.stay
    intro c hc
    have hend : c = cr ∨ c = lf := by simpa [isLineEnd] using line.ends_byte c hc
    simp [lineScanner, lineNext, hend]
  exact (hends.append (reaches_word hm line.word_ne line.word_byte)).append
    (reaches_spaces rfl rfl (mem_symbols_plus.mp line.spacesBeforeUri_mem).1
      line.spacesBeforeUri_byte)

theorem run_uri_marks {uri : List Byte}
    (huri : ∃ tail, uri = chr '/' :: tail ∧ ∀ c ∈ tail, c ≠ chr ' ') (pos : ℕ) (rest : List Byte)
    (r : Record LineCursor LineRegister) : ∃ r',
      lineScanner.run pos (uri ++ (chr ' ' :: rest)) .swSpacesBeforeUri r =
        lineScanner.run (pos + uri.length + 1) rest .swHttp r' ∧
      r'.cursor .uriStart = some pos ∧ r'.cursor .uriEnd = some (pos + uri.length) := by
  obtain ⟨tail, rfl, htail⟩ := huri
  have hstay : ∀ c ∈ tail, lineScanner.next .swAfterSlashInUri c = .inl .swAfterSlashInUri := by
    intro c hc
    simp [lineScanner, lineNext, htail c hc]
  have hnote : ∀ c ∈ tail, ∀ pos r, lineScanner.note .swAfterSlashInUri c pos r = r := by
    intro c hc pos r
    apply lineScanner.note_eq_self
    · rintro (_ | _ | _ | _ | _) <;> simp [lineScanner, lineMarks, htail c hc]
    · rfl
    · exact fun _ => rfl
  refine ⟨lineScanner.note .swAfterSlashInUri (chr ' ') (pos + (chr '/' :: tail).length)
    (lineScanner.note .swSpacesBeforeUri (chr '/') pos r), ?_, ?_, ?_⟩
  · rw [List.cons_append, lineScanner.run_cons_inl rfl, lineScanner.run_idle hstay hnote,
      lineScanner.run_cons_inl rfl, List.length_cons, Nat.add_right_comm pos 1, Nat.add_assoc pos]
  · simp [note_cursor_line, lineMarks]
  · simp [note_cursor_line, lineMarks]

def RequestLine.uriOffset (line : RequestLine m) : ℕ :=
  (line.ends ++ line.word ++ line.spacesBeforeUri).length

theorem RequestLine.run_line (line : RequestLine acceptedByte) (pos : ℕ) (rest : List Byte)
    (r : Record LineCursor LineRegister) : ∃ n r',
      lineScanner.run pos (line.bytes ++ rest) .swStart r = (.inr .done, n, r') ∧
      n + 1 = pos + line.bytes.length ∧
      r'.cursor .uriStart = some (pos + line.uriOffset) ∧
      r'.cursor .uriEnd = some (pos + line.uriOffset + line.uri.length) := by
  obtain ⟨spaces, hspaces⟩ : ∃ spaces, line.spacesAfterUri = chr ' ' :: spaces := by
    obtain ⟨c, spaces, h⟩ :=
      List.exists_cons_of_ne_nil (mem_symbols_plus.mp line.spacesAfterUri_mem).1
    have hc := line.spacesAfterUri_byte c (by rw [h]; exact List.mem_cons_self)
    exact ⟨spaces, by rw [h, hc]⟩
  have haccepts : line.bytes ∈ lineScanner.language .done .swStart := by
    rw [← wordScanner_accepted, language_line wordBytes_accepted]
    exact mem_lineGrammar.mpr ⟨line, rfl⟩
  obtain ⟨n, r', hrun, hlen⟩ := lineScanner.run_of_accepts haccepts pos rest r
  obtain ⟨r₁, hbefore⟩ := line.reaches_uri (fun _ h => h) pos
    (line.uri ++ (line.behindUri ++ (line.stop ++ rest))) r
  obtain ⟨behind, hbehind⟩ : ∃ behind,
      line.behindUri ++ (line.stop ++ rest) = chr ' ' :: behind := by
    simp only [RequestLine.behindUri, hspaces, List.append_assoc, List.cons_append]
    exact ⟨_, rfl⟩
  rw [hbehind] at hbefore
  obtain ⟨r₂, huri, hstart, hend⟩ := run_uri_marks line.uri_eq (pos + line.uriOffset) behind r₁
  have hbytes : line.bytes ++ rest = line.ends ++ line.word ++ line.spacesBeforeUri ++
      (line.uri ++ (chr ' ' :: behind)) := by
    rw [← hbehind]
    simp only [RequestLine.bytes, List.append_assoc]
  have hlate : LineState.late .swHttp := rfl
  have hcursor {m : LineCursor} (hm : m = .uriStart ∨ m = .uriEnd) : r'.cursor m = r₂.cursor m := by
    rw [← late_run_uri hlate behind (pos + line.uriOffset + line.uri.length + 1) r₂ hm, ← huri]
    have hall := (congrArg (lineScanner.run pos · .swStart r) hbytes).trans hbefore
    rw [hrun] at hall
    exact congrArg (fun out => out.2.2.cursor m) hall
  exact ⟨n, r', hrun, hlen, (hcursor (.inl rfl)).trans hstart, (hcursor (.inr rfl)).trans hend⟩

structure Taken (n : ℕ) (before after : SgxHttpRequest) : Prop where
  buf : after.buf = before.buf
  last : after.last = before.last
  pos : after.pos = before.pos + n
  state : after.state = 0

theorem Taken.unread {n : ℕ} {before after : SgxHttpRequest} (h : Taken n before after)
    {front rest : List Byte} (hunread : unread before = front ++ rest) (hlen : front.length = n) :
    unread after = rest := by
  rw [Http.unread, h.buf, h.last]
  apply unread_moved hunread
  rw [h.pos, hlen]

theorem Taken.last_le {n : ℕ} {before after : SgxHttpRequest} (h : Taken n before after)
    (hlen : before.last ≤ before.pos + sgxMaxBuf) : after.last ≤ after.pos + sgxMaxBuf := by
  rw [h.last, h.pos]
  omega

theorem parse_line_taken {request : SgxHttpRequest} (hstate : request.state = 0)
    (hlen : request.last ≤ request.pos + sgxMaxBuf) {line : RequestLine acceptedByte}
    {rest : List Byte} (h : unread request = line.bytes ++ rest) : ∃ request₁,
      sgxHttpParseRequestLine request = (sgxOk, request₁) ∧
      Taken line.bytes.length request request₁ ∧ request₁.list = request.list ∧
      request₁.uriStart = ptrAt (request.pos + line.uriOffset) ∧
      request₁.uriEnd = ptrAt (request.pos + line.uriOffset + line.uri.length) ∧
      (WordTold (request.pos + line.ends.length) line.word request.method →
        request₁.method = requestMethod line.word) ∧
      request₁.httpMinor = cInt (decimal line.minor) := by
  have hpos : 0 < line.bytes.length := by
    have hword := List.length_pos_iff.mpr line.word_ne
    simp only [RequestLine.bytes, List.length_append]
    omega
  have hle : request.pos ≤ request.last := by
    have hcount := congrArg List.length h
    rw [unread_length, List.length_append] at hcount
    omega
  obtain ⟨n, r, hrun, hcount, hstart, hend⟩ :=
    line.run_line 0 rest (Record.empty (lineScanned.register request))
  rw [← h] at hrun
  rw [Nat.zero_add] at hcount hstart hend
  have hparse := parse_of_run hstate hle hlen hrun
  have hshort : (unread request).length ≤ sgxMaxBuf := by
    rw [unread_length]
    omega
  have hmethod := (@feed_method line rest (unread request) [] { request with last := request.pos }
    rfl hstate hshort trivial (by rw [List.flatten_nil, List.append_nil, h])).2
  obtain ⟨d, tail, hmajor, -⟩ := line.major_eq
  have hminor := (@feed_version line rest [unread request] { request with last := request.pos }
    rfl hstate (List.forall_mem_singleton.mpr hshort) (by rw [List.flatten_singleton, h]) d tail
    hmajor).2.2
  rw [feed_unread _ hle, hparse] at hmethod hminor
  refine ⟨_, hparse, ⟨rfl, rfl, ?_, rfl⟩, rfl, ?_, ?_,
    fun htold => hmethod.trans ((methodAt_eq_requestMethod_iff _ _ _).mpr htold), hminor⟩
  · rw [← hcount]
    rfl
  · change ptrFrom request.pos request.uriStart (r.cursor .uriStart) = _
    rw [hstart]
    rfl
  · change ptrFrom request.pos request.uriEnd (r.cursor .uriEnd) = _
    rw [hend, Nat.add_assoc]
    rfl

theorem parse_body_taken {request : SgxHttpRequest} (hstate : request.state = 0)
    (hlen : request.last ≤ request.pos + sgxMaxBuf) {text : SectionText} {rest : List Byte}
    (h : unread request = text.bytes ++ rest) : ∃ request₂,
      sgxHttpParseRequestBody request = (sgxOk, request₂) ∧
      Taken text.bytes.length request request₂ ∧
      request₂.uriStart = request.uriStart ∧ request₂.uriEnd = request.uriEnd ∧
      request₂.method = request.method ∧ request₂.httpMinor = request.httpMinor ∧
      request₂.list = (((lineStarts (request.pos + text.ends.length) text.lines).filter saved).map
        lineEntry).reverse ++ request.list := by
  have hne : text.bytes ++ rest ≠ [] := by simp [SectionText.bytes]
  have hle : request.pos ≤ request.last := by
    have hcount := congrArg List.length h
    have hpos := List.length_pos_iff.mpr hne
    rw [unread_length] at hcount
    omega
  have hchunk : ∀ chunk ∈ [unread request], chunk.length ≤ sgxMaxBuf := by
    rw [List.forall_mem_singleton, unread_length]
    omega
  obtain ⟨-, hlist⟩ := @feed_body_list text rest [unread request]
    { request with last := request.pos } rfl hstate hchunk (by rw [List.flatten_singleton, h])
  rw [feed_unread _ hle] at hlist
  obtain ⟨n, r, hrun, hcount, -⟩ := run_sectionText text 0 rest
  have hparse := parse_body_eq hne hstate h
  rw [hrun] at hparse
  rw [Nat.zero_add] at hcount
  refine ⟨_, hparse, ⟨rfl, rfl, ?_, rfl⟩, rfl, rfl, rfl, rfl, ?_⟩
  · rw [← hcount]
    rfl
  · rw [hparse] at hlist
    exact hlist

theorem SectionLine.valueOffset_eq (line : SectionLine) : (line.key ++
    (List.replicate line.spacesBeforeColon (chr ' ') ++ chr ':' ::
      List.replicate line.spacesAfterColon (chr ' '))).length = line.valueOffset := by
  simp only [HeaderLine.valueOffset, List.length_append, List.length_cons, List.length_replicate]
  omega

theorem line_parsed {request : SgxHttpRequest} {pos : ℕ} {line : SectionLine} {rest : List Byte}
    (h : Holds request.buf pos (line.bytes ++ rest)) (hlen : line.bytes.length ≤ sgxMaxBuf) :
    Parsed request ⟨lineEntry (pos, line), line.key, line.value⟩ := by
  have hcount := line.bytes_length 0
  have hstop : 0 < (lineStop line.crlf).length := by cases line.crlf <;> decide
  have hoffset : line.key.length < line.valueOffset := by
    simp only [HeaderLine.valueOffset]
    omega
  have hkey : Holds request.buf pos ([] ++ (line.key ++
      (List.replicate line.spacesBeforeColon (chr ' ') ++ chr ':' ::
        (List.replicate line.spacesAfterColon (chr ' ') ++
          (line.value ++ (lineStop line.crlf ++ rest)))))) := by
    simp only [SectionLine.bytes, List.append_assoc, List.cons_append, List.nil_append] at h ⊢
    exact h
  have hvalue : Holds request.buf pos ((line.key ++
      (List.replicate line.spacesBeforeColon (chr ' ') ++
        chr ':' :: List.replicate line.spacesAfterColon (chr ' '))) ++
          (line.value ++ (lineStop line.crlf ++ rest))) := by
    simp only [SectionLine.bytes, List.append_assoc, List.cons_append] at h ⊢
    exact h
  constructor
  · exact slice_held hkey (by omega)
  · have hslice := slice_held hvalue (by omega)
    rw [line.valueOffset_eq] at hslice
    exact hslice

theorem lines_parsed {request : SgxHttpRequest} {pos : ℕ} {lines : List SectionLine}
    {rest : List Byte} (h : Holds request.buf pos ((lines.map SectionLine.bytes).flatten ++ rest))
    (hlen : (lines.map SectionLine.bytes).flatten.length ≤ sgxMaxBuf) :
    ∀ p ∈ lineStarts pos lines, Parsed request ⟨lineEntry p, p.2.key, p.2.value⟩ := by
  induction lines generalizing pos with
  | nil => exact List.forall_mem_nil _
  | cons line lines ih =>
    rw [List.map_cons, List.flatten_cons] at h hlen
    rw [List.append_assoc] at h
    rw [List.length_append] at hlen
    have hrest := h.drop line.bytes.length
    rw [List.drop_left] at hrest
    rw [lineStarts, List.forall_mem_cons]
    exact ⟨line_parsed h (by omega), ih hrest (by omega)⟩

theorem text_parsed {request : SgxHttpRequest} {pos : ℕ} {text : SectionText} {rest : List Byte}
    (h : Holds request.buf pos (text.bytes ++ rest)) (hlen : text.bytes.length ≤ sgxMaxBuf) :
    ∀ p ∈ lineStarts (pos + text.ends.length) text.lines,
      Parsed request ⟨lineEntry p, p.2.key, p.2.value⟩ := by
  simp only [SectionText.bytes, List.append_assoc, List.length_append] at h hlen
  have hlines := h.drop text.ends.length
  rw [List.drop_left] at hlines
  exact lines_parsed hlines (by omega)

theorem Parsed.headerRead_eq {request : SgxHttpRequest} {p : ParsedHeader}
    (h : Parsed request p) : headerRead request.buf p.head = (p.key, p.value) :=
  Prod.ext h.key.ringSlice_eq h.value.ringSlice_eq

theorem kept_headers (pos : ℕ) (lines : List SectionLine) :
    (((lineStarts pos lines).filter saved).map fun p => (p.2.key, p.2.value)) =
      (lines.filter (·.crlf)).map fun line => (line.key, line.value) := by
  conv_rhs => rw [← lineStarts_lines pos lines, List.filter_map, List.map_map]
  rfl

theorem headers_told {request : SgxHttpRequest} {pos : ℕ} {lines : List SectionLine}
    (h : ∀ p ∈ lineStarts pos lines, Parsed request ⟨lineEntry p, p.2.key, p.2.value⟩) :
    (((lineStarts pos lines).filter saved).map lineEntry).map (headerRead request.buf) =
      (lines.filter (·.crlf)).map fun line => (line.key, line.value) := by
  rw [← kept_headers pos lines, List.map_map]
  apply List.map_congr_left
  intro p hp
  exact (h p (List.mem_of_mem_filter hp)).headerRead_eq

structure Parses (message : Message) (before after : SgxHttpRequest) : Prop
    extends Taken message.bytes.length before after where
  uriStart : after.uriStart = ptrAt (before.pos + message.line.uriOffset)
  uriEnd : after.uriEnd = ptrAt (before.pos + message.line.uriOffset + message.line.uri.length)
  method : WordTold (before.pos + message.line.ends.length) message.line.word before.method →
    after.method = requestMethod message.line.word
  minor : after.httpMinor = cInt (decimal message.line.minor)
  list : after.list = (((lineStarts (before.pos + message.line.bytes.length +
    message.text.ends.length) message.text.lines).filter saved).map lineEntry).reverse ++
      before.list

theorem message_parses {request : SgxHttpRequest} (hstate : request.state = 0)
    (hlen : request.last ≤ request.pos + sgxMaxBuf) {message : Message} {rest : List Byte}
    (h : unread request = message.bytes ++ rest) : ∃ request₁ request₂,
      sgxHttpParseRequestLine request = (sgxOk, request₁) ∧
      sgxHttpParseRequestBody request₁ = (sgxOk, request₂) ∧ Parses message request request₂ := by
  rw [Message.bytes, List.append_assoc] at h
  obtain ⟨request₁, hline, hfirst, hlist₁, hstart, hend, hmethod, hminor⟩ :=
    parse_line_taken hstate hlen h
  obtain ⟨request₂, hbody, hsecond, hstart₂, hend₂, hmethod₂, hminor₂, hlist₂⟩ :=
    parse_body_taken hfirst.state (hfirst.last_le hlen) (hfirst.unread h rfl)
  refine ⟨request₁, request₂, hline, hbody, ⟨⟨hsecond.buf.trans hfirst.buf,
    hsecond.last.trans hfirst.last, ?_, hsecond.state⟩, hstart₂.trans hstart, hend₂.trans hend,
    fun htold => hmethod₂.trans (hmethod htold), hminor₂.trans hminor, ?_⟩⟩
  · rw [hsecond.pos, hfirst.pos, Message.bytes, List.length_append, Nat.add_assoc]
  · rw [hlist₂, hlist₁, hfirst.pos]

theorem Parses.headers_parsed {message : Message} {before after : SgxHttpRequest}
    (h : Parses message before after) (hlen : before.last ≤ before.pos + sgxMaxBuf)
    {rest : List Byte} (hbytes : unread before = message.bytes ++ rest) :
    ∀ p ∈ lineStarts (before.pos + message.line.bytes.length + message.text.ends.length)
      message.text.lines, Parsed after ⟨lineEntry p, p.2.key, p.2.value⟩ := by
  have hcount := congrArg List.length hbytes
  rw [unread_length, List.length_append, Message.bytes, List.length_append] at hcount
  have hheld := holds_unread before
  rw [hbytes, Message.bytes, List.append_assoc] at hheld
  have htext := hheld.drop message.line.bytes.length
  rw [List.drop_left, ← h.buf] at htext
  exact text_parsed htext (by omega)

theorem message_told {request : SgxHttpRequest} (hstate : request.state = 0)
    (hlen : request.last ≤ request.pos + sgxMaxBuf) {message : Message} {rest : List Byte}
    (hbytes : unread request = message.bytes ++ rest) : ∃ request₁ request₂,
      sgxHttpParseRequestLine request = (sgxOk, request₁) ∧
      sgxHttpParseRequestBody request₁ = (sgxOk, request₂) ∧
      Told message request request₂ ∧ Taken message.bytes.length request request₂ := by
  obtain ⟨request₁, request₂, hline, hbody, h⟩ := message_parses hstate hlen hbytes
  refine ⟨request₁, request₂, hline, hbody, ⟨h.method, ?_, h.minor, _, ?_,
    headers_told (h.headers_parsed hlen hbytes)⟩, h.toTaken⟩
  · have hheld := holds_unread request
    have hsplit : message.bytes ++ rest =
        (message.line.ends ++ message.line.word ++ message.line.spacesBeforeUri) ++
          (message.line.uri ++ (message.line.behindUri ++ (message.line.stop ++
            (message.text.bytes ++ rest)))) := by
      simp only [Message.bytes, RequestLine.bytes, List.append_assoc]
    have hcount := congrArg List.length (hbytes.trans hsplit)
    have hword := List.length_pos_iff.mpr message.line.word_ne
    rw [hbytes, hsplit, ← h.buf] at hheld
    rw [unread_length] at hcount
    simp only [List.length_append] at hcount
    rw [h.uriStart, h.uriEnd]
    exact (slice_held hheld (by omega)).ringSlice_eq
  · exact h.list

theorem messages_told {messages : List Message} : ∀ {request : SgxHttpRequest} {rest : List Byte},
    request.state = 0 → request.last ≤ request.pos + sgxMaxBuf →
    unread request = (messages.map Message.bytes).flatten ++ rest → ∃ request',
      Read request messages request' ∧ unread request' = rest := by
  induction messages with
  | nil => exact fun {request} _ _ _ h => ⟨request, .none request, h⟩
  | cons message messages ih =>
    intro request rest hstate hlen h
    rw [List.map_cons, List.flatten_cons, List.append_assoc] at h
    obtain ⟨request₁, request₂, hline, hbody, htold, htaken⟩ := message_told hstate hlen h
    obtain ⟨request', hread, hrest⟩ :=
      ih htaken.state (htaken.last_le hlen) (htaken.unread h rfl)
    exact ⟨request', .message hline hbody htold hread, hrest⟩

theorem message_of_ok {request request₁ request₂ : SgxHttpRequest} (hstate : request.state = 0)
    (hlen : request.last ≤ request.pos + sgxMaxBuf)
    (hline : sgxHttpParseRequestLine request = (sgxOk, request₁))
    (hbody : sgxHttpParseRequestBody request₁ = (sgxOk, request₂)) : ∃ message : Message, ∃ rest,
      unread request = message.bytes ++ rest := by
  have hle := (run_of_ok hstate hlen (congrArg Prod.fst hline)).1
  have hshort : ∀ chunk ∈ [unread request], chunk.length ≤ sgxMaxBuf := by
    rw [List.forall_mem_singleton, unread_length]
    omega
  obtain ⟨line, rest₁, hbytes, -⟩ := @line_of_ok [unread request]
    { request with last := request.pos } rfl hstate hshort (by rw [feed_unread _ hle, hline])
  rw [List.flatten_singleton] at hbytes
  obtain ⟨request₁', hline', htaken, -⟩ := parse_line_taken hstate hlen hbytes
  obtain rfl : request₁ = request₁' := congrArg Prod.snd (hline.symm.trans hline')
  have hcount := congrArg List.length hbytes
  rw [unread_length, List.length_append] at hcount
  have hle₁ : request₁.pos ≤ request₁.last := by
    rw [htaken.pos, htaken.last]
    omega
  have hshort₁ : ∀ chunk ∈ [unread request₁], chunk.length ≤ sgxMaxBuf := by
    rw [List.forall_mem_singleton, htaken.unread hbytes rfl]
    omega
  obtain ⟨text, rest, htext⟩ := @text_of_ok [unread request₁]
    { request₁ with last := request₁.pos } rfl htaken.state hshort₁
    (by rw [feed_unread _ hle₁, hbody])
  rw [List.flatten_singleton, htaken.unread hbytes rfl] at htext
  exact ⟨⟨line, text⟩, rest, by rw [Message.bytes, List.append_assoc, hbytes, htext]⟩

theorem Called.messages {n : ℕ} {request request' : SgxHttpRequest}
    (h : Called n request request') : request.state = 0 →
    request.last ≤ request.pos + sgxMaxBuf → ∃ messages : List Message,
      messages.length = n ∧ Read request messages request' ∧
      unread request = (messages.map Message.bytes).flatten ++ unread request' := by
  induction h with
  | none request => exact fun _ _ => ⟨[], rfl, .none request, rfl⟩
  | @message n request request₁ request₂ request' hline hbody _ ih =>
    intro hstate hlen
    obtain ⟨message, rest, hbytes⟩ := message_of_ok hstate hlen hline hbody
    obtain ⟨request₁', request₂', hline', hbody', htold, htaken⟩ := message_told hstate hlen hbytes
    obtain rfl : request₁ = request₁' := congrArg Prod.snd (hline.symm.trans hline')
    obtain rfl : request₂ = request₂' := congrArg Prod.snd (hbody.symm.trans hbody')
    obtain ⟨messages, hcount, hread, hrest⟩ := ih htaken.state (htaken.last_le hlen)
    refine ⟨message :: messages, congrArg (· + 1) hcount, .message hline hbody htold hread, ?_⟩
    rw [hbytes, ← htaken.unread hbytes rfl, hrest]
    simp only [List.map_cons, List.flatten_cons, List.append_assoc]

theorem messages_read_back (request : SgxHttpRequest) (hstate : request.state = 0)
    (hlen : request.last ≤ request.pos + sgxMaxBuf) :
    (∀ (messages : List Message) (rest : List Byte),
      unread request = (messages.map Message.bytes).flatten ++ rest →
        ∃ request', Read request messages request' ∧ unread request' = rest) ∧
    ∀ (n : ℕ) (request' : SgxHttpRequest), Called n request request' →
      ∃ messages : List Message, messages.length = n ∧ Read request messages request' ∧
        unread request = (messages.map Message.bytes).flatten ++ unread request' :=
  ⟨fun _ _ h => messages_told hstate hlen h, fun _ _ h => h.messages hstate hlen⟩

theorem messages_read_back_at_end :
    let message : Message :=
      ⟨getLine [chr '1'] [chr '0'] mem_major_one mem_minor_zero, oneHeader true⟩
    let request := append { zeroRequest with pos := sgxMaxBuf - 5, last := sgxMaxBuf - 5 }
      (([message, message].map Message.bytes).flatten ++ [chr 'G'])
    ∃ request', Read request [message, message] request' ∧ unread request' = [chr 'G'] := by
  intro message request
  apply (messages_read_back request rfl (by decide)).1 [message, message] ([chr 'G'])
  exact unread_append rfl (by decide)

end Sginx.Http
