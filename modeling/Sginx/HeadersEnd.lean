import Sginx.HeaderNames
import Sginx.PartialHeader

namespace Sginx.Http

open Sginx.Library.RingBuffer Sginx.Library.Scanning

section Counting

variable {σ μ δ : Type}

def Parser.readCount (P : Parser σ) : ℕ → SgxHttpRequest → σ → ℕ → ℕ
  | 0, _, _, _ => 0
  | n + 1, request, state, pos =>
    match P.step request state pos with
    | .next request state => Parser.readCount P n request state (pos + 1) + 1
    | .ret _ _ => 1
    | .done _ => 1

def Parser.bytesRead (P : Parser σ) (request : SgxHttpRequest) : ℕ :=
  match P.ofCode request.state with
  | some state => P.readCount (request.last - request.pos) request state request.pos
  | none => request.last - request.pos

def stopOf {ρ : Type} : (σ ⊕ ρ) × ℕ × Record μ δ → ℕ
  | (.inl _, k, _) => k
  | (.inr _, k, _) => k + 1

variable {P : Parser σ} {A : Scanner Byte σ ScanExit μ δ} (V : ScannedBy P A)

theorem ScannedBy.readCount_eq (n base k : ℕ) (request : SgxHttpRequest) (s : σ) (r : Record μ δ)
    (hready : V.Ready base request.buf request.last s k r) (hn : base + k + n ≤ request.last) :
    k + P.readCount n (V.render base request r) s (base + k) =
      stopOf (A.run k (window request.buf (base + k) n) s r) := by
  induction n generalizing k s r with
  | zero => rfl
  | succ n ih =>
    rw [Parser.readCount, V.step_eq base request s k r hready (by omega), window, Scanner.run]
    dsimp only
    cases hnext : A.next s (request.buf (slot sgxMaxBuf (base + k))) with
    | inl s' =>
      have hrest := ih (k + 1) s' _ (V.ready_next _ _ _ _ _ _ _ hready hnext) (by omega)
      rw [Nat.add_assoc, Nat.add_comm 1] at hrest
      exact hrest
    | inr x => cases x <;> rfl

theorem ScannedBy.bytesRead_eq (request : SgxHttpRequest) (s : σ)
    (hle : request.pos ≤ request.last) (hstate : request.state = P.code s)
    (hready : V.Ready request.pos request.buf request.last s 0
      (Record.empty (V.register request))) :
    P.bytesRead request =
      stopOf (A.run 0 (unread request) s (Record.empty (V.register request))) := by
  have h := V.readCount_eq (request.last - request.pos) request.pos 0 request s _ hready (by omega)
  rw [V.render_empty, Nat.zero_add] at h
  rw [Parser.bytesRead, hstate, P.ofCode_code]
  exact h

end Counting

def blankLine : List Byte := [cr, lf, cr, lf]

structure HeadersEnd (request : SgxHttpRequest) : Prop where
  stops : ∀ ends c between rest, unread request = ends ++ c :: (between ++ (blankLine ++ rest)) →
    (∀ b ∈ ends, b = cr ∨ b = lf) → c ≠ cr → c ≠ lf → ¬ blankLine <:+: between ++ [cr, lf, cr] →
    ((sgxHttpParseRequestBody request).1 = sgxOk ∨
      (sgxHttpParseRequestBody request).1 = sgxHttpParseInvalidHeader) ∧
      bodyParser.bytesRead request ≤ ends.length + 1 + between.length + 4
  keys : ∃ added, (sgxHttpParseRequestBody request).2.list = added ++ request.list ∧
    ∀ head ∈ added, ∀ text,
      SliceOf (sgxHttpParseRequestBody request).2 head.keyStart head.keyEnd text →
      ∀ b ∈ text, b ≠ cr ∧ b ≠ lf

def HiddenEnd (bytes : List Byte) : Prop :=
  ∃ ends lines key rest, Opening ends lines ∧ KeyOpen lines key ∧
    bytes = openingBytes ends lines ++ (key ++ (blankLine ++ rest))

def BrokenKey (bytes : List Byte) : Prop :=
  ∃ ends lines rest, Opening ends lines ∧ bytes = openingBytes ends lines ++ rest ∧
    ∃ line ∈ lines, line.crlf = true ∧ ∃ b ∈ line.key, b = cr ∨ b = lf

theorem first_occurrence {α : Type*} {text : List α} (hne : text ≠ []) (u v : List α) :
    ∃ u' v', u ++ (text ++ v) = u' ++ (text ++ v') ∧ u'.length ≤ u.length ∧
      ¬ text <:+: u' ++ text.dropLast := by
  induction hlen : u.length using Nat.strong_induction_on generalizing u v with
  | _ n ih =>
    by_cases hfirst : text <:+: u ++ text.dropLast
    · obtain ⟨a, b, hab⟩ := hfirst
      have hshort : a.length < n := by
        have hcount := congrArg List.length hab
        have hpos := List.length_pos_of_ne_nil hne
        simp only [List.length_append, List.length_dropLast] at hcount
        omega
      have hwhole : u ++ (text ++ v) = a ++ (text ++ (b ++ text.getLast hne :: v)) := by
        have hsplit := List.dropLast_append_getLast hne
        calc u ++ (text ++ v)
            = (u ++ text.dropLast) ++ (text.getLast hne :: v) := by
              conv_lhs => rw [← hsplit]
              simp only [List.append_assoc, List.singleton_append]
          _ = a ++ (text ++ (b ++ text.getLast hne :: v)) := by
              rw [← hab]
              simp only [List.append_assoc]
      obtain ⟨u', v', hsame, hle, hnot⟩ := ih a.length hshort a _ rfl
      exact ⟨u', v', hwhole.trans hsame, by omega, hnot⟩
    · exact ⟨u, v, rfl, hlen.le, hfirst⟩

theorem blankLine_exits {s : BodyState} (hkey : s ≠ .swKey) (hstart : s ≠ .swStart) (pos : ℕ)
    (r : Record BodyCursor Unit) : ∃ x n r', bodyScanner.run pos blankLine s r = (.inr x, n, r') := by
  cases s with
  | swStart => exact absurd rfl hstart
  | swKey => exact absurd rfl hkey
  | _ => exact ⟨_, _, _, rfl⟩

theorem run_keyOpen {ends : List Byte} {lines : List SectionLine} {key : List Byte}
    (h : Opening ends lines) (hkey : KeyOpen lines key) (rest : List Byte) :
    ∃ r, bodyScanner.run 0 (openingBytes ends lines ++ (key ++ rest)) .swStart (Record.empty ()) =
      bodyScanner.run ((openingBytes ends lines).length + key.length) rest .swKey r := by
  obtain ⟨c, tail, rfl, hcr, hlf, htail⟩ := hkey
  by_cases hne : lines = []
  · subst hne
    have hbytes : openingBytes ends [] = ends := List.append_nil ends
    rw [hbytes, run_ends h.ends_byte, Nat.zero_add,
      run_key_cons (.inl rfl) hcr (fun _ => hlf rfl) htail]
    exact ⟨_, rfl⟩
  · obtain ⟨cursor, hlines⟩ := run_opening h hne ((c :: tail) ++ rest)
    rw [hlines, run_key_cons (.inr rfl) hcr (fun hs => by cases hs) htail]
    exact ⟨_, rfl⟩

theorem key_reads_blankLine : bodyScanner.Reaches .swKey blankLine .swKey := by
  apply Scanner.Reaches.stay
  intro b hb
  simp only [blankLine, List.mem_cons, List.not_mem_nil, or_false] at hb
  rcases hb with rfl | rfl | rfl | rfl <;> rfl

theorem run_hiddenEnd {ends : List Byte} {lines : List SectionLine} {key : List Byte}
    (h : Opening ends lines) (hkey : KeyOpen lines key) (rest : List Byte) :
    ∃ r, bodyScanner.run 0 (openingBytes ends lines ++ (key ++ (blankLine ++ rest))) .swStart
        (Record.empty ()) =
      bodyScanner.run ((openingBytes ends lines).length + key.length + 4) rest .swKey r := by
  obtain ⟨r, hr⟩ := run_keyOpen h hkey (blankLine ++ rest)
  obtain ⟨r', hr'⟩ := key_reads_blankLine ((openingBytes ends lines).length + key.length) rest r
  exact ⟨r', hr.trans hr'⟩

theorem opening_first {ends : List Byte} {lines : List SectionLine} {key : List Byte}
    (h : Opening ends lines) (hkey : KeyOpen lines key) :
    ∃ c between, openingBytes ends lines ++ key = ends ++ c :: between ∧ c ≠ cr ∧ c ≠ lf := by
  cases lines with
  | nil =>
    obtain ⟨c, tail, rfl, hcr, hlf, -⟩ := hkey
    exact ⟨c, tail, by rw [openingBytes, List.map_nil, List.flatten_nil, List.append_nil], hcr,
      hlf rfl⟩
  | cons line rest =>
    obtain ⟨c, tail, hc, hcr, -⟩ := line.key_eq
    have hlf := h.head_ne line rfl
    rw [hc, List.head?_cons] at hlf
    obtain ⟨w, hw⟩ : ∃ w, line.bytes = c :: w := by
      rw [SectionLine.bytes, hc, List.cons_append]
      exact ⟨_, rfl⟩
    refine ⟨c, w ++ ((rest.map SectionLine.bytes).flatten ++ key), ?_, hcr,
      fun hb => hlf (congrArg some hb)⟩
    rw [openingBytes, List.map_cons, List.flatten_cons, hw]
    simp only [List.append_assoc, List.cons_append]

theorem body_exit {s : BodyState} {b : Byte} {x : ScanExit} (h : bodyNext s b = .inr x) :
    x = .done ∨ x = .invalidHeader := by
  cases s <;> simp only [bodyNext] at h <;> split_ifs at h <;> simp_all

theorem exit_code {pos n : ℕ} {bytes : List Byte} {s : BodyState} {x : ScanExit}
    {r r' : Record BodyCursor Unit} (h : bodyScanner.run pos bytes s r = (.inr x, n, r')) :
    x.code = sgxOk ∨ x.code = sgxHttpParseInvalidHeader := by
  obtain ⟨pre, b, rest, s', r₀, -, -, hexit, -⟩ := bodyScanner.run_inr_split h
  rcases body_exit hexit with rfl | rfl
  · exact .inl rfl
  · exact .inr rfl

section Call

variable {request : SgxHttpRequest}

theorem parse_result (hle : request.pos ≤ request.last) (hstate : request.state = 0) :
    sgxHttpParseRequestBody request = bodyScanned.result request.pos request
      (bodyScanner.run 0 (unread request) .swStart (Record.empty ())) :=
  bodyScanned.parse_start request .swStart hle hstate trivial

theorem bytesRead_result (hle : request.pos ≤ request.last) (hstate : request.state = 0) :
    bodyParser.bytesRead request =
      stopOf (bodyScanner.run 0 (unread request) .swStart (Record.empty ())) :=
  bodyScanned.bytesRead_eq request .swStart hle hstate trivial

theorem stops_of_exit (bytes rest : List Byte) {n k : ℕ} {x : ScanExit}
    {r : Record BodyCursor Unit} (hle : request.pos ≤ request.last) (hstate : request.state = 0)
    (hbytes : unread request = bytes ++ rest)
    (hrun : bodyScanner.run 0 bytes .swStart (Record.empty ()) = (.inr x, n, r)) (hk : n < k) :
    ((sgxHttpParseRequestBody request).1 = sgxOk ∨
      (sgxHttpParseRequestBody request).1 = sgxHttpParseInvalidHeader) ∧
      bodyParser.bytesRead request ≤ k := by
  have hall : bodyScanner.run 0 (unread request) .swStart (Record.empty ()) = (.inr x, n, r) := by
    rw [hbytes, bodyScanner.run_append, hrun]
    rfl
  rw [parse_result hle hstate, bytesRead_result hle hstate, hall, bodyScanned.result_inr_code]
  exact ⟨exit_code hrun, hk⟩

theorem stops_of_not_hidden (hle : request.pos ≤ request.last) (hstate : request.state = 0)
    (hshown : ¬ HiddenEnd (unread request)) {ends between rest : List Byte} {c : Byte}
    (hbytes : unread request = ends ++ c :: (between ++ (blankLine ++ rest))) (hcr : c ≠ cr)
    (hlf : c ≠ lf) :
    ((sgxHttpParseRequestBody request).1 = sgxOk ∨
      (sgxHttpParseRequestBody request).1 = sgxHttpParseInvalidHeader) ∧
      bodyParser.bytesRead request ≤ ends.length + 1 + between.length + 4 := by
  have hsplit : unread request = (ends ++ c :: between) ++ (blankLine ++ rest) := by
    rw [hbytes, List.append_assoc, List.cons_append]
  have hlen : (ends ++ c :: between).length = ends.length + 1 + between.length := by
    rw [List.length_append, List.length_cons]
    omega
  rcases hfront : bodyScanner.run 0 (ends ++ c :: between) .swStart (Record.empty ()) with
    ⟨s | x, n, r⟩
  · obtain ⟨-, ends', lines, w, hopening, hpartial, hpre, -⟩ := reading_of_run hfront
    have hstart : s ≠ .swStart := by
      rintro rfl
      obtain ⟨rfl, rfl⟩ := hpartial
      have hmem : c ∈ openingBytes ends' [] ++ [] := by
        rw [← hpre]
        exact List.mem_append_right _ List.mem_cons_self
      have hends : openingBytes ends' [] ++ [] = ends' := by simp [openingBytes]
      rw [hends] at hmem
      exact (hopening.ends_byte c hmem).elim hcr hlf
    have hkey : s ≠ .swKey := by
      rintro rfl
      apply hshown
      refine ⟨ends', lines, w, rest, hopening, hpartial, ?_⟩
      rw [hsplit, hpre, List.append_assoc]
    have hn := bodyScanner.run_inl hfront
    obtain ⟨x, m, r', hexit⟩ := blankLine_exits hkey hstart n r
    have hm : m < n + 4 := (bodyScanner.run_inr hexit).2
    apply stops_of_exit ((ends ++ c :: between) ++ blankLine) rest hle hstate
    · rw [hsplit, List.append_assoc (ends ++ c :: between)]
    · rw [bodyScanner.run_append, hfront]
      exact hexit
    · omega
  · have hn := (bodyScanner.run_inr hfront).2
    exact stops_of_exit _ _ hle hstate hsplit hfront (by omega)

theorem not_hidden_of_stops (hle : request.pos ≤ request.last) (hstate : request.state = 0)
    (h : HeadersEnd request) : ¬ HiddenEnd (unread request) := by
  rintro ⟨ends, lines, key, rest, hopening, hkey, hbytes⟩
  obtain ⟨c, between, hfirst, hcr, hlf⟩ := opening_first hopening hkey
  obtain ⟨u, v, hsame, hu, hnot⟩ :=
    first_occurrence (show blankLine ≠ [] by decide) between rest
  have hsplit : unread request = ends ++ c :: (u ++ (blankLine ++ v)) := by
    rw [hbytes, ← List.append_assoc, hfirst, List.append_assoc, List.cons_append, hsame]
  obtain ⟨hcode, hread⟩ := h.stops ends c u v hsplit hopening.ends_byte hcr hlf hnot
  obtain ⟨r, hrun⟩ := run_hiddenEnd hopening hkey rest
  have hlen := congrArg List.length hfirst
  rw [List.length_append, List.length_append, List.length_cons] at hlen
  rw [← hbytes] at hrun
  rw [parse_result hle hstate, hrun] at hcode
  rw [bytesRead_result hle hstate, hrun] at hread
  rcases hrest : bodyScanner.run ((openingBytes ends lines).length + key.length + 4) rest .swKey r with
    ⟨s | x, n, r'⟩
  · rw [hrest] at hcode
    rcases hcode with hcode | hcode <;> cases hcode
  · rw [hrest] at hread
    have hn := (bodyScanner.run_inr hrest).1
    have hread' : n + 1 ≤ ends.length + 1 + u.length + 4 := hread
    omega

theorem result_fields (base : ℕ) (request : SgxHttpRequest)
    (out : (BodyState ⊕ ScanExit) × ℕ × Record BodyCursor Unit) :
    (bodyScanned.result base request out).2.list =
        out.2.2.entries.map (renderEntry base request) ++ request.list ∧
      (bodyScanned.result base request out).2.buf = request.buf := by
  obtain ⟨s | x, k, r⟩ := out
  · exact ⟨rfl, rfl⟩
  · cases x <;> exact ⟨rfl, rfl⟩

theorem run_entries_grow (bytes : List Byte) (pos : ℕ) (s : BodyState)
    (r : Record BodyCursor Unit) :
    ∃ new, (bodyScanner.run pos bytes s r).2.2.entries = new ++ r.entries := by
  have hnote (s : BodyState) (b : Byte) (pos : ℕ) (r : Record BodyCursor Unit) :
      ∃ new, (bodyScanner.note s b pos r).entries = new ++ r.entries := by
    cases hemits : bodyEmits s b with
    | false => exact ⟨[], note_entries hemits pos r⟩
    | true => exact ⟨[_], if_pos hemits⟩
  induction bytes generalizing pos s r with
  | nil => exact ⟨[], rfl⟩
  | cons b bytes ih =>
    rw [Scanner.run]
    cases bodyScanner.next s b with
    | inl s' =>
      obtain ⟨new, hnew⟩ := ih (pos + 1) s' (bodyScanner.note s b pos r)
      obtain ⟨first, hfirst⟩ := hnote s b pos r
      exact ⟨new ++ first, by rw [hnew, hfirst, List.append_assoc]⟩
    | inr x => exact hnote s b pos r

theorem SectionLine.key_bytes (line : SectionLine) :
    ∃ post, line.bytes = line.key ++ post ∧ post ≠ [] := by
  refine ⟨_, rfl, ?_⟩
  exact List.append_ne_nil_of_right_ne_nil _ (List.cons_ne_nil _ _)

theorem lineStarts_at {start : ℕ} {lines : List SectionLine} {p : ℕ × SectionLine}
    (h : p ∈ lineStarts start lines) : p.2 ∈ lines ∧ ∃ pre post,
      (lines.map SectionLine.bytes).flatten = pre ++ (p.2.key ++ post) ∧ post ≠ [] ∧
        p.1 = start + pre.length := by
  induction lines generalizing start with
  | nil => cases h
  | cons line rest ih =>
    rw [List.map_cons, List.flatten_cons]
    rcases List.mem_cons.mp h with rfl | h
    · obtain ⟨post, hpost, hne⟩ := line.key_bytes
      refine ⟨List.mem_cons_self, [], post ++ (rest.map SectionLine.bytes).flatten, ?_,
        List.append_ne_nil_of_left_ne_nil hne _, rfl⟩
      rw [hpost, List.append_assoc, List.nil_append]
    · obtain ⟨hmem, pre, post, hbytes, hne, hstart⟩ := ih h
      refine ⟨List.mem_cons_of_mem _ hmem, line.bytes ++ pre, post, ?_, hne, ?_⟩
      · rw [hbytes, List.append_assoc]
      · rw [hstart, List.length_append, Nat.add_assoc]

theorem SliceOf.unique {start stop : Ptr} {text text' : List Byte}
    (h : SliceOf request start stop text) (h' : SliceOf request start stop text') : text = text' := by
  have hsize := ptrDiff_slice h
  have hsize' := ptrDiff_slice h'
  obtain ⟨i, hi, -, hlen, hholds⟩ := h
  obtain ⟨j, hj, -, hlen', hholds'⟩ := h'
  have hslot : i % sgxMaxBuf = j % sgxMaxBuf :=
    congrArg Fin.val (slot_eq_of_ptrAt (hi.symm.trans hj))
  have hsame : text.length = text'.length := by omega
  apply List.ext_getElem? fun k => ?_
  by_cases hk : k < text.length
  · have hat : slot sgxMaxBuf (i + k) = slot sgxMaxBuf (j + k) :=
      Fin.ext (Nat.ModEq.add_right k hslot)
    rw [hholds k hk, hholds' k (hsame ▸ hk), hat]
  · rw [List.getElem?_eq_none (by omega), List.getElem?_eq_none (by omega)]

theorem key_slice {ends rest : List Byte} {lines : List SectionLine} {p : ℕ × SectionLine}
    (hfit : request.last - request.pos ≤ sgxMaxBuf)
    (hbytes : unread request = openingBytes ends lines ++ rest)
    (hp : p ∈ lineStarts ends.length lines) :
    SliceOf request (ptrAt (request.pos + p.1)) (ptrAt (request.pos + p.1 + p.2.key.length))
      p.2.key := by
  obtain ⟨-, pre, post, hlines, hne, hstart⟩ := lineStarts_at hp
  have hsplit : unread request = (ends ++ pre) ++ (p.2.key ++ (post ++ rest)) := by
    rw [hbytes, openingBytes, hlines]
    simp only [List.append_assoc]
  have hholds := holds_window request.buf request.pos (request.last - request.pos)
  change Holds request.buf request.pos (unread request) at hholds
  have hlen := congrArg List.length hsplit
  simp only [unread, window_length, List.length_append] at hlen
  have hpost := List.length_pos_of_ne_nil hne
  refine ⟨request.pos + p.1, rfl, rfl, by omega, ?_⟩
  have hdrop := hholds.drop (ends ++ pre).length
  rw [hsplit, List.drop_left, List.length_append, ← hstart] at hdrop
  exact hdrop.append_left

theorem keys_iff (hle : request.pos ≤ request.last) (hstate : request.state = 0)
    (hfit : request.last - request.pos ≤ sgxMaxBuf) :
    (∃ added, (sgxHttpParseRequestBody request).2.list = added ++ request.list ∧
      ∀ head ∈ added, ∀ text,
        SliceOf (sgxHttpParseRequestBody request).2 head.keyStart head.keyEnd text →
        ∀ b ∈ text, b ≠ cr ∧ b ≠ lf) ↔ ¬ BrokenKey (unread request) := by
  have hresult := parse_result hle hstate
  obtain ⟨hlist, hbuf⟩ := result_fields request.pos request
    (bodyScanner.run 0 (unread request) .swStart (Record.empty ()))
  rw [← hresult] at hlist hbuf
  have hslices (start stop : Ptr) (text : List Byte) :
      SliceOf (sgxHttpParseRequestBody request).2 start stop text ↔ SliceOf request start stop text := by
    rw [SliceOf, SliceOf, hbuf]
  simp only [hslices]
  constructor
  · rintro ⟨added, hadded, hclean⟩ ⟨ends, lines, rest, hopening, hbytes, line, hline, hcrlf, b, hb, hend⟩
    have hne : lines ≠ [] := List.ne_nil_of_mem hline
    obtain ⟨cursor, hlines⟩ := run_opening hopening hne rest
    obtain ⟨new, hnew⟩ := run_entries_grow rest (openingBytes ends lines).length .swCrlf
      ⟨cursor, openingEntries ends lines, ()⟩
    rw [hbytes, hlines, hnew, List.map_append] at hlist
    have hmap := List.append_cancel_right (hadded.symm.trans hlist)
    rw [← lineStarts_lines ends.length lines] at hline
    obtain ⟨p, hp, rfl⟩ := List.mem_map.mp hline
    have hentry : renderEntry request.pos request (lineCursor p) ∈ added := by
      rw [hmap]
      apply List.mem_append_right
      apply List.mem_map_of_mem
      exact List.mem_reverse.mpr (List.mem_map_of_mem (List.mem_filter.mpr ⟨hp, hcrlf⟩))
    rw [lineCursor, renderEntry_headerCursor] at hentry
    have hslice := key_slice hfit hbytes hp
    have hbyte := hclean _ hentry p.2.key hslice b hb
    exact hend.elim hbyte.1 hbyte.2
  · intro hbroken
    refine ⟨_, hlist, fun head hhead text htext b hb => ?_⟩
    obtain ⟨ends, lines, rest, hopening, hbytes, hentries⟩ := run_entries
      (rfl : bodyScanner.run 0 (unread request) .swStart (Record.empty ()) = (_, _, _))
    rw [hentries, openingEntries, List.map_reverse, List.mem_reverse, List.map_map] at hhead
    obtain ⟨p, hp, rfl⟩ := List.mem_map.mp hhead
    obtain ⟨hp, hcrlf⟩ := List.mem_filter.mp hp
    rw [Function.comp_apply, lineCursor, renderEntry_headerCursor] at htext
    have hkey := htext.unique (key_slice hfit hbytes hp)
    rw [hkey] at hb
    refine ⟨fun hcr => hbroken ?_, fun hlf => hbroken ?_⟩
    · exact ⟨ends, lines, rest, hopening, hbytes, p.2, (lineStarts_at hp).1, hcrlf, b, hb, .inl hcr⟩
    · exact ⟨ends, lines, rest, hopening, hbytes, p.2, (lineStarts_at hp).1, hcrlf, b, hb, .inr hlf⟩

theorem headers_end_iff (hle : request.pos ≤ request.last) (hstate : request.state = 0)
    (hfit : request.last - request.pos ≤ sgxMaxBuf) :
    HeadersEnd request ↔ ¬ HiddenEnd (unread request) ∧ ¬ BrokenKey (unread request) := by
  constructor
  · intro h
    exact ⟨not_hidden_of_stops hle hstate h, (keys_iff hle hstate hfit).mp h.keys⟩
  · rintro ⟨hshown, hbroken⟩
    refine ⟨?_, (keys_iff hle hstate hfit).mpr hbroken⟩
    intro ends c between rest hbytes _ hcr hlf _
    exact stops_of_not_hidden hle hstate hshown hbytes hcr hlf

end Call

def keyWithoutColon : List Byte :=
  [chr 'a'] ++ (blankLine ++ ([chr 'b', chr ':', chr ' ', chr 'c'] ++ blankLine))

theorem headers_end_iff_key_without_colon :
    let request := append zeroRequest keyWithoutColon
    HeadersEnd request ↔ ¬ HiddenEnd (unread request) ∧ ¬ BrokenKey (unread request) :=
  headers_end_iff (by decide) rfl (by decide)

theorem empty_line_is_read_as_key :
    let request := append zeroRequest keyWithoutColon
    let answer := sgxHttpParseRequestBody request
    unread request = keyWithoutColon ∧ answer.1 = sgxOk ∧ bodyParser.bytesRead request = 13 ∧
      answer.2.list = [⟨ptrAt 0, ptrAt 6, ptrAt 8, ptrAt 9⟩] ∧ ¬ HeadersEnd request := by
  intro request answer
  have hbytes : unread request = keyWithoutColon := unread_append rfl (by decide)
  have hread : bodyParser.bytesRead request = 13 := by decide
  refine ⟨hbytes, by decide, hread, by decide, fun h => ?_⟩
  have hstops := (h.stops [] (chr 'a') [] _ hbytes (List.forall_mem_nil _) (by decide) (by decide)
    (fun hinfix => absurd hinfix.length_le (by decide))).2
  rw [hread] at hstops
  exact absurd hstops (by decide)

end Sginx.Http
