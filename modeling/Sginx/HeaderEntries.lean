import Sginx.FollowedParser
import Sginx.HeaderGrammar

namespace Sginx.Http

open Sginx.Library.RingBuffer Sginx.Library.Scanning

def bodyFollowed (request : SgxHttpRequest) : FollowedBy bodyParser bodyScanner where
  Agrees answer _ _ r := ∃ buf pos last state,
    answer = renderBody 0 (moved request buf pos last state) r
  Ends answer _ r := ∃ buf pos last state,
    answer = renderBody 0 (moved request buf pos last state) r
  Fits _ _ := True
  agrees_moved := by
    rintro _ s pos r pos' state' ⟨buf, p, last, state, rfl⟩
    exact ⟨buf, pos', last, state', rfl⟩
  agrees_append := by
    rintro _ s r chunk ⟨buf, p, last, state, rfl⟩ -
    exact ⟨_, p, _, state, rfl⟩
  step_eq := by
    rintro _ s pos r ⟨buf, p, last, state, rfl⟩ -
    have hstep := bodyStep_render 0 pos (moved request buf p last state) s r
    rw [Nat.zero_add] at hstep
    refine ⟨_, hstep, ⟨rfl, rfl, rfl⟩, ?_, ?_⟩
    · exact fun _ _ => ⟨buf, p, last, state, rfl⟩
    · exact fun _ => ⟨buf, pos + 1, last, 0, rfl⟩
  done_pos _ _ := rfl

theorem feed_body_follows (chunks : List (List Byte)) {request : SgxHttpRequest}
    (hlast : request.last = request.pos) (hstate : request.state = BodyState.swStart.code)
    (hchunks : ∀ chunk ∈ chunks, chunk.length ≤ sgxMaxBuf) :
    (bodyFollowed request).Follows (feed sgxHttpParseRequestBody request chunks)
      (bodyScanner.run request.pos chunks.flatten .swStart (Record.empty ())) :=
  (bodyFollowed request).feed_follows chunks request .swStart _ hlast hstate
    ⟨request.buf, request.pos, request.last, request.state, rfl⟩
    ((bodyFollowed request).fitsAll (fun _ _ => trivial) hchunks)

theorem lineStop_run (crlf : Bool) (pos : ℕ) (rest : List Byte) (r : Record BodyCursor Unit) :
    bodyScanner.run pos (lineStop crlf ++ rest) .swValue r =
      bodyScanner.run (pos + (lineStop crlf).length) rest .swCrlf
        ⟨(r.mark .valueEnd pos).cursor,
          if crlf then (r.mark .valueEnd pos).cursor :: r.entries else r.entries, ()⟩ := by
  cases crlf with
  | false =>
    -- no entry is added on the bare `LF`
    refine (bodyScanner.run_cons_inl rfl pos rest r).trans ?_
    rw [note_value_end (.inr rfl)]
    rfl
  | true => exact run_line_end pos rest r

theorem SectionLine.run_key (line : SectionLine) {s : BodyState} (hs : AtLineStart s)
    (hlf : s = .swStart → line.key.head? ≠ some lf) (pos : ℕ) (rest : List Byte)
    (r : Record BodyCursor Unit) :
    bodyScanner.run pos (line.key ++ rest) s r =
      bodyScanner.run (pos + line.key.length) rest .swKey (r.mark .keyStart pos) := by
  obtain ⟨c, tail, hkey, hcr, htail⟩ := line.key_eq
  rw [hkey] at hlf ⊢
  exact run_key_cons hs hcr (fun h hc => hlf h (congrArg some hc)) htail pos rest r

theorem SectionLine.run_value (line : SectionLine) (pos : ℕ) (rest : List Byte)
    (r : Record BodyCursor Unit) :
    bodyScanner.run pos (line.value ++ rest) .swSpacesAfterColon r =
      bodyScanner.run (pos + line.value.length) rest .swValue (r.mark .valueStart pos) := by
  obtain ⟨c, tail, hvalue, hspace, htail⟩ := line.value_eq
  rw [hvalue]
  exact run_value_cons hspace htail pos rest r

theorem SectionLine.bytes_length (line : SectionLine) (pos : ℕ) :
    pos + line.valueOffset + line.value.length + (lineStop line.crlf).length =
      pos + line.bytes.length := by
  simp only [SectionLine.bytes, HeaderLine.valueOffset, List.length_append, List.length_cons,
    List.length_replicate]
  omega

theorem run_sectionLine {s : BodyState} (hs : AtLineStart s) (line : SectionLine)
    (hlf : s = .swStart → line.key.head? ≠ some lf) (pos : ℕ) (rest : List Byte)
    (r : Record BodyCursor Unit) :
    bodyScanner.run pos (line.bytes ++ rest) s r =
      bodyScanner.run (pos + line.bytes.length) rest .swCrlf
        ⟨headerCursor pos line.toHeaderLine, if line.crlf then
          headerCursor pos line.toHeaderLine :: r.entries else r.entries, ()⟩ := by
  have hbytes : line.bytes ++ rest = line.key ++ (List.replicate line.spacesBeforeColon (chr ' ') ++
      chr ':' :: (List.replicate line.spacesAfterColon (chr ' ') ++
        (line.value ++ (lineStop line.crlf ++ rest)))) := by
    simp only [SectionLine.bytes, List.append_assoc, List.cons_append]
  rw [hbytes, line.run_key hs hlf, run_colon, run_spaces (.inr rfl), valueOffset_eq,
    line.run_value, lineStop_run, marks_eq_headerCursor, line.bytes_length]
  rfl

def lineStarts : ℕ → List SectionLine → List (ℕ × SectionLine)
  | _, [] => []
  | pos, line :: lines => (pos, line) :: lineStarts (pos + line.bytes.length) lines

def lineCursor (p : ℕ × SectionLine) : BodyCursor → Option ℕ := headerCursor p.1 p.2.toHeaderLine

def lineEntry (p : ℕ × SectionLine) : SgxHttpHeader := headerEntry p.1 p.2.toHeaderLine

def saved (p : ℕ × SectionLine) : Bool := p.2.crlf

theorem run_sectionLines (lines : List SectionLine) {s : BodyState} (hs : AtLineStart s)
    (hne : lines ≠ []) (hlf : s = .swStart → ∀ line ∈ lines.head?, line.key.head? ≠ some lf)
    (pos : ℕ) (rest : List Byte) (r : Record BodyCursor Unit) :
    ∃ cursor, bodyScanner.run pos ((lines.map SectionLine.bytes).flatten ++ rest) s r =
      bodyScanner.run (pos + (lines.map SectionLine.bytes).flatten.length) rest .swCrlf
        ⟨cursor, (((lineStarts pos lines).filter saved).map lineCursor).reverse ++ r.entries, ()⟩ := by
  induction lines generalizing s pos r with
  | nil => exact absurd rfl hne
  | cons line lines ih =>
    have hline := run_sectionLine hs line (fun h => hlf h line rfl) pos
      ((lines.map SectionLine.bytes).flatten ++ rest) r
    rw [List.map_cons, List.flatten_cons, List.append_assoc, hline]
    by_cases hlast : lines = []
    · subst hlast
      refine ⟨headerCursor pos line.toHeaderLine, ?_⟩
      cases hcrlf : line.crlf <;> simp [lineStarts, saved, lineCursor, hcrlf]
    · obtain ⟨cursor, hcursor⟩ := ih (.inr rfl) hlast (fun h => by cases h)
        (pos + line.bytes.length) ⟨headerCursor pos line.toHeaderLine, if line.crlf then
          headerCursor pos line.toHeaderLine :: r.entries else r.entries, ()⟩
      refine ⟨cursor, ?_⟩
      rw [hcursor]
      cases hcrlf : line.crlf <;> simp [lineStarts, saved, lineCursor, hcrlf, Nat.add_assoc]

theorem run_sectionText (text : SectionText) (pos : ℕ) (rest : List Byte) :
    ∃ n r, bodyScanner.run pos (text.bytes ++ rest) .swStart (Record.empty ()) =
        (.inr .done, n, r) ∧ n + 1 = pos + text.bytes.length ∧
      r.entries = (((lineStarts (pos + text.ends.length) text.lines).filter saved).map
        lineCursor).reverse := by
  obtain ⟨cursor, hlines⟩ := run_sectionLines text.lines (.inl rfl) text.lines_ne
    (fun _ => text.head_ne) (pos + text.ends.length) ([cr, lf] ++ rest) (Record.empty ())
  rw [SectionText.bytes, List.append_assoc, List.append_assoc, run_ends text.ends_byte, hlines]
  refine ⟨_, _, rfl, ?_, List.append_nil _⟩
  simp only [List.length_append, List.length_cons, List.length_nil]
  omega

theorem renderEntry_lineCursor (request : SgxHttpRequest) (p : ℕ × SectionLine) :
    renderEntry 0 request (lineCursor p) = lineEntry p := by
  rw [lineCursor, renderEntry_headerCursor, Nat.zero_add]
  rfl

theorem feed_body_list {text : SectionText} {rest : List Byte} {chunks : List (List Byte)}
    {request : SgxHttpRequest} (hlast : request.last = request.pos)
    (hstate : request.state = BodyState.swStart.code)
    (hchunks : ∀ chunk ∈ chunks, chunk.length ≤ sgxMaxBuf)
    (hbytes : chunks.flatten = text.bytes ++ rest) :
    let answer := feed sgxHttpParseRequestBody request chunks
    answer.1 = sgxOk ∧ answer.2.list =
      (((lineStarts (request.pos + text.ends.length) text.lines).filter saved).map
        lineEntry).reverse ++ request.list := by
  intro answer
  have hfollows := feed_body_follows chunks hlast hstate hchunks
  obtain ⟨n, r, hrun, -, hentries⟩ := run_sectionText text request.pos rest
  rw [hbytes, hrun] at hfollows
  obtain ⟨hok, hdone⟩ := hfollows
  obtain ⟨-, buf, pos, last, state, hanswer⟩ := hdone rfl
  refine ⟨hok, ?_⟩
  rw [show answer.2 = _ from hanswer]
  refine congrArg (· ++ request.list) ?_
  rw [hentries, List.map_reverse, List.map_map]
  congr 2
  funext p
  exact renderEntry_lineCursor _ p

theorem text_of_ok {chunks : List (List Byte)} {request : SgxHttpRequest}
    (hlast : request.last = request.pos) (hstate : request.state = BodyState.swStart.code)
    (hchunks : ∀ chunk ∈ chunks, chunk.length ≤ sgxMaxBuf)
    (hok : (feed sgxHttpParseRequestBody request chunks).1 = sgxOk) :
    ∃ text : SectionText, ∃ rest, chunks.flatten = text.bytes ++ rest := by
  have hfollows := feed_body_follows chunks hlast hstate hchunks
  rcases hrun : bodyScanner.run request.pos chunks.flatten .swStart (Record.empty ()) with
    ⟨s | x, n, r⟩
  · rw [hrun] at hfollows
    have hagain := hfollows.1
    rw [hok] at hagain
    exact absurd hagain (by decide)
  · rw [hrun] at hfollows
    obtain rfl := ScanExit.code_eq_ok.mp (hfollows.1.symm.trans hok)
    obtain ⟨u, hu, ⟨rest, hrest⟩, -⟩ := bodyScanner.accepts_of_run hrun
    rw [language_section] at hu
    obtain ⟨text, rfl⟩ := text_of_mem hu
    exact ⟨text, rest, hrest.symm⟩

theorem lineStarts_lines (pos : ℕ) (lines : List SectionLine) :
    (lineStarts pos lines).map Prod.snd = lines := by
  induction lines generalizing pos with
  | nil => rfl
  | cons line lines ih => rw [lineStarts, List.map_cons, ih]

theorem forall_saved_iff (pos : ℕ) (lines : List SectionLine) :
    (∀ p ∈ lineStarts pos lines, saved p) ↔ ∀ line ∈ lines, line.crlf := by
  conv_rhs => rw [← lineStarts_lines pos lines, List.forall_mem_map]
  rfl

theorem saved_perm_iff (pos : ℕ) (lines : List SectionLine) (list : List SgxHttpHeader) :
    ((((lineStarts pos lines).filter saved).map lineEntry).reverse ++ list).Perm
        ((lineStarts pos lines).map lineEntry ++ list) ↔ ∀ line ∈ lines, line.crlf := by
  rw [List.perm_append_right_iff, ← forall_saved_iff pos lines]
  constructor
  · intro h
    have hlen := h.length_eq
    rw [List.length_reverse, List.length_map, List.length_map] at hlen
    exact List.length_filter_eq_length_iff.mp hlen
  · intro h
    rw [List.filter_eq_self.mpr h]
    exact List.reverse_perm _

theorem header_saved_iff (chunks : List (List Byte)) (request : SgxHttpRequest)
    (hlast : request.last = request.pos) (hstate : request.state = BodyState.swStart.code)
    (hchunks : ∀ chunk ∈ chunks, chunk.length ≤ sgxMaxBuf)
    (hok : (feed sgxHttpParseRequestBody request chunks).1 = sgxOk) :
    (∃ text : SectionText, ∃ rest, chunks.flatten = text.bytes ++ rest) ∧
      ∀ (text : SectionText) (rest : List Byte), chunks.flatten = text.bytes ++ rest →
        ((feed sgxHttpParseRequestBody request chunks).2.list.Perm
            ((lineStarts (request.pos + text.ends.length) text.lines).map lineEntry ++
              request.list) ↔ ∀ line ∈ text.lines, line.crlf) := by
  refine ⟨text_of_ok hlast hstate hchunks hok, fun text rest hbytes => ?_⟩
  obtain ⟨-, hlist⟩ := feed_body_list hlast hstate hchunks hbytes
  rw [hlist]
  exact saved_perm_iff _ _ _

def oneHeader (crlf : Bool) : SectionText where
  ends := []
  lines := [{ key := [chr 'a']
              spacesBeforeColon := 0
              spacesAfterColon := 1
              value := [chr 'b']
              crlf := crlf
              key_eq := ⟨chr 'a', [], rfl, by decide, List.forall_mem_nil _⟩
              value_eq := ⟨chr 'b', [], rfl, by decide, List.forall_mem_nil _⟩ }]
  ends_byte := List.forall_mem_nil _
  lines_ne := List.cons_ne_nil _ _
  head_ne := by
    rintro line ⟨⟩ h
    exact absurd (Option.some.inj h) (show chr 'a' ≠ lf by decide)

theorem header_saved_on_crlf :
    let chunks := [(oneHeader true).bytes.take 5, (oneHeader true).bytes.drop 5]
    (feed sgxHttpParseRequestBody zeroRequest chunks).2.list.Perm
      ((lineStarts 0 (oneHeader true).lines).map lineEntry ++ []) := by
  intro chunks
  have h := header_saved_iff chunks zeroRequest rfl rfl (by decide) (by decide)
  exact (h.2 (oneHeader true) [] rfl).mpr (List.forall_mem_singleton.mpr rfl)

theorem header_dropped_on_lf :
    let answer := feed sgxHttpParseRequestBody zeroRequest [(oneHeader false).bytes]
    (oneHeader false).bytes = [97, 58, 32, 98, lf, cr, lf] ∧ answer.1 = sgxOk ∧
      answer.2.list = [] ∧
      ¬ answer.2.list.Perm ((lineStarts 0 (oneHeader false).lines).map lineEntry ++ []) := by
  intro answer
  have hlist : answer.2.list = [] := by decide
  refine ⟨by decide, by decide, hlist, ?_⟩
  rw [hlist]
  exact fun h => absurd h.length_eq (by decide)

end Sginx.Http
