import Sginx.RecordedSlices

namespace Sginx.Http

open Sginx.Library.RingBuffer Sginx.Library.Scanning

/-- Runs that alternate reads with calls that answer `SGX_AGAIN`, each read leaving a stream that
`Allowed` allows. -/
inductive ParseRun (parse : SgxHttpRequest → ℤ × SgxHttpRequest) (Allowed : List Byte → Prop)
    (start : SgxHttpRequest) : SgxHttpRequest → List Byte → Prop where
  | start {stream : List Byte} (h : RingReachable start stream) (hstate : start.state = 0) :
      ParseRun parse Allowed start start stream
  | read {request : SgxHttpRequest} {stream : List Byte}
      (h : ParseRun parse Allowed start request stream) (bs : List Byte)
      (hlen : bs.length ≤ remainSize request) (hlast : request.last + bs.length < sizeMod)
      (hallowed : Allowed (stream ++ bs)) :
      ParseRun parse Allowed start (sgxRequestRunRound request (.bytes bs)).1 (stream ++ bs)
  | again {request : SgxHttpRequest} {stream : List Byte}
      (h : ParseRun parse Allowed start request stream)
      (hanswer : (parse request).1 = sgxAgain) :
      ParseRun parse Allowed start (parse request).2 stream

def lead : List Byte → ℕ
  | [] => 0
  | c :: cs => if c = cr ∨ c = lf then lead cs + 1 else 0

def firstByte (base : ℕ) (stream : List Byte) : ℕ := base + lead (stream.drop base)

def FitsRing (base : ℕ) (stream : List Byte) : Prop :=
  stream.length ≤ firstByte base stream + sgxMaxBuf

def SliceIntact (base : ℕ) (stream : List Byte) (buf : Fin sgxMaxBuf → Byte) (start stop : Ptr) :
    Prop :=
  ∃ i j, firstByte base stream ≤ i ∧ i ≤ j ∧ j < firstByte base stream + sgxMaxBuf ∧
    start = ptrAt i ∧ stop = ptrAt j ∧
    ∀ k, i ≤ k → k < j → stream[k]? = some (buf (slot sgxMaxBuf k))

theorem lead_le (bs : List Byte) : lead bs ≤ bs.length := by
  induction bs with
  | nil => exact le_refl 0
  | cons c cs ih =>
    rw [lead, List.length_cons]
    split_ifs <;> omega

theorem lead_append (xs ys : List Byte) :
    lead (xs ++ ys) = lead xs ∨ lead xs = xs.length ∧ lead xs ≤ lead (xs ++ ys) := by
  induction xs with
  | nil => exact .inr ⟨rfl, Nat.zero_le _⟩
  | cons c cs ih =>
    rw [List.cons_append, lead, lead, List.length_cons]
    split_ifs <;> omega

theorem lead_take (k : ℕ) (bs : List Byte) : lead (bs.take k) = min k (lead bs) := by
  induction bs generalizing k with
  | nil => simp [lead]
  | cons c cs ih =>
    cases k with
    | zero => simp [lead]
    | succ k =>
      rw [List.take_succ_cons, lead, lead, ih]
      split_ifs <;> omega

theorem line_run_lead (bs : List Byte) (pos : ℕ) (r : Record LineCursor LineRegister) :
    ∃ r', (∀ m, m ≠ .requestStart → r'.cursor m = r.cursor m) ∧
      lineScanner.run pos bs .swStart r =
        lineScanner.run (pos + lead bs) (bs.drop (lead bs)) .swStart r' := by
  induction bs generalizing pos r with
  | nil => exact ⟨r, fun _ _ => rfl, rfl⟩
  | cons c cs ih =>
    by_cases hc : c = cr ∨ c = lf
    · have hnext : lineScanner.next .swStart c = .inl .swStart := by
        simp [lineScanner, lineNext, hc]
      obtain ⟨r', hcursor, hrun⟩ := ih (pos + 1) (lineScanner.note .swStart c pos r)
      refine ⟨r', fun m hm => ?_, ?_⟩
      · rw [hcursor m hm, note_cursor_line]
        cases m <;> first | rfl | exact absurd rfl hm
      · rw [lineScanner.run_cons_inl hnext, hrun, lead, if_pos hc, List.drop_succ_cons,
          Nat.add_assoc, Nat.add_comm 1]
    · rw [lead, if_neg hc]
      exact ⟨r, fun _ _ => rfl, rfl⟩

theorem body_run_lead (bs : List Byte) (pos : ℕ) (r : Record BodyCursor Unit) :
    bodyScanner.run pos bs .swStart r =
      bodyScanner.run (pos + lead bs) (bs.drop (lead bs)) .swStart r := by
  induction bs generalizing pos with
  | nil => rfl
  | cons c cs ih =>
    by_cases hc : c = cr ∨ c = lf
    · have hnext : bodyScanner.next .swStart c = .inl .swStart := by
        simp [bodyScanner, bodyNext, hc]
      have hnote : bodyScanner.note .swStart c pos r = r := by
        apply bodyScanner.note_eq_self
        · rintro (_ | _ | _ | _) <;> rcases hc with rfl | rfl <;> rfl
        · rfl
        · exact fun _ => rfl
      rw [bodyScanner.run_cons_inl hnext, hnote, ih, lead, if_pos hc, List.drop_succ_cons,
        Nat.add_assoc, Nat.add_comm 1]
    · rw [lead, if_neg hc]
      rfl

theorem line_start_marked (bs : List Byte) (register : LineRegister) :
    ∃ r, LineMarked (lead bs) .swStart (bs.take (lead bs)) r ∧
      lineScanner.run 0 bs .swStart (Record.empty register) =
        lineScanner.run (bs.take (lead bs)).length (bs.drop (lead bs)) .swStart r := by
  have hlen : (bs.take (lead bs)).length = lead bs := List.length_take_of_le (lead_le bs)
  obtain ⟨r, hcursor, hrun⟩ := line_run_lead bs 0 (Record.empty register)
  refine ⟨r, ⟨hlen.ge, ?_, ?_⟩, ?_⟩
  · rw [hcursor _ (by decide)]
    rfl
  · rw [hcursor _ (by decide)]
    rfl
  · rw [hrun, hlen, Nat.zero_add]

theorem body_start_marked (bs : List Byte) :
    BodyMarked (lead bs) .swStart (bs.take (lead bs)) (Record.empty ()) ∧
      bodyScanner.run 0 bs .swStart (Record.empty ()) =
        bodyScanner.run (bs.take (lead bs)).length (bs.drop (lead bs)) .swStart
          (Record.empty ()) := by
  have hlen : (bs.take (lead bs)).length = lead bs := List.length_take_of_le (lead_le bs)
  refine ⟨⟨hlen.ge, trivial, fun _ hc => absurd hc List.not_mem_nil⟩, ?_⟩
  rw [body_run_lead, hlen, Nat.zero_add]

theorem firstByte_le {base : ℕ} {stream : List Byte} (h : base ≤ stream.length) :
    firstByte base stream ≤ stream.length := by
  have hlead := lead_le (stream.drop base)
  rw [List.length_drop] at hlead
  rw [firstByte]
  omega

theorem firstByte_append {base : ℕ} {stream : List Byte} (h : base ≤ stream.length)
    (bs : List Byte) : firstByte base (stream ++ bs) = firstByte base stream ∨
      firstByte base stream = stream.length ∧
        firstByte base stream ≤ firstByte base (stream ++ bs) := by
  have hlead := lead_append (stream.drop base) bs
  rw [List.length_drop] at hlead
  rw [firstByte, firstByte, List.drop_append_of_le_length h]
  omega

def MessageKept (base : ℕ) (buf : Fin sgxMaxBuf → Byte) (stream : List Byte) : Prop :=
  Holds buf (firstByte base stream) (stream.drop (firstByte base stream))

theorem MessageKept.at {base : ℕ} {buf : Fin sgxMaxBuf → Byte} {stream : List Byte}
    (h : MessageKept base buf stream) {i : ℕ} (hi : firstByte base stream ≤ i)
    (hlt : i < stream.length) : stream[i]? = some (buf (slot sgxMaxBuf i)) := by
  have hat := h (i - firstByte base stream) (by rw [List.length_drop]; omega)
  rwa [List.getElem?_drop, Nat.add_sub_cancel' hi] at hat

theorem MessageKept.append {base : ℕ} {buf : Fin sgxMaxBuf → Byte} {stream : List Byte}
    (h : MessageKept base buf stream) (hbase : base ≤ stream.length) {bs : List Byte}
    (hbs : bs.length ≤ sgxMaxBuf) (hfits : FitsRing base (stream ++ bs)) :
    MessageKept base (putAll buf stream.length bs) (stream ++ bs) := by
  have hle := firstByte_le hbase
  have hroom : (stream.drop (firstByte base stream)).length + bs.length ≤ sgxMaxBuf := by
    rw [FitsRing, List.length_append] at hfits
    rw [List.length_drop]
    rcases firstByte_append hbase bs with hsame | ⟨hend, -⟩ <;> omega
  have hput := Holds.putAll h bs hroom
  rw [List.length_drop, Nat.add_sub_cancel' hle, ← List.drop_append_of_le_length hle] at hput
  have hfirst : firstByte base stream ≤ firstByte base (stream ++ bs) := by
    rcases firstByte_append hbase bs with hsame | ⟨-, hle'⟩ <;> omega
  have hdrop := hput.drop (firstByte base (stream ++ bs) - firstByte base stream)
  rwa [List.drop_drop, Nat.add_sub_cancel' hfirst] at hdrop

variable {σ μ δ : Type} {P : Parser σ} {A : Scanner Byte σ ScanExit μ δ}

structure ScanInv (V : ScannedBy P A) (s₀ : σ) (start request : SgxHttpRequest)
    (stream : List Byte) : Prop where
  ring : RingInv request stream
  base_le : start.pos ≤ request.pos
  fits : FitsRing start.pos stream
  kept : MessageKept start.pos request.buf stream
  scanned : ∃ s r, request.state = P.code s ∧ request = V.render start.pos
      (moved start request.buf request.pos request.last request.state) r ∧
    A.run 0 ((stream.drop start.pos).take (request.pos - start.pos)) s₀
      (Record.empty (V.register start)) = (.inl s, request.pos - start.pos, r)

theorem ScanInv.start (V : ScannedBy P A) {s₀ : σ} {start : SgxHttpRequest} {stream : List Byte}
    (h : RingReachable start stream) (hstate : start.state = P.code s₀) :
    ScanInv V s₀ start start stream := by
  have hring := h.inv
  have hlast := hring.last_eq
  have hroom := hring.room
  refine ⟨hring, le_refl _, ?_, ?_, s₀, Record.empty (V.register start), hstate, ?_, ?_⟩
  · rw [FitsRing, firstByte]
    omega
  · have hdrop := hring.holds.drop (lead (stream.drop start.pos))
    rwa [List.drop_drop] at hdrop
  · exact (V.render_empty start.pos start).symm
  · rw [Nat.sub_self, List.take_zero]
    rfl

theorem ScanInv.read {V : ScannedBy P A} {s₀ : σ} {start request : SgxHttpRequest}
    {stream : List Byte} (h : ScanInv V s₀ start request stream) {bs : List Byte}
    (hlen : bs.length ≤ remainSize request) (hlast : request.last + bs.length < sizeMod)
    (hfits : FitsRing start.pos (stream ++ bs)) :
    ScanInv V s₀ start (sgxRequestRunRound request (.bytes bs)).1 (stream ++ bs) := by
  have hring := h.ring.read hlen hlast
  have hpos := h.ring.pos_le
  have hroom := h.ring.room
  have hlength := h.ring.last_eq
  have hbase := h.base_le
  have hbs := hlen
  rw [remainSize_eq hpos hroom] at hbs
  rw [readRound_request hpos hroom hlen hlast] at hring ⊢
  obtain ⟨s, r, hstate, hrender, hrun⟩ := h.scanned
  refine ⟨hring, hbase, hfits, ?_, s, r, hstate, ?_, ?_⟩
  · have hkept := h.kept.append (by omega) (by omega) hfits
    rwa [← hlength] at hkept
  · conv_lhs => rw [hrender]
    exact V.render_append start.pos _ r bs
  · rw [List.drop_append_of_le_length (by omega),
      List.take_append_of_le_length (by rw [List.length_drop]; simp only [append]; omega)]
    exact hrun

def ReadyInMessage (V : ScannedBy P A) (s₀ : σ) : Prop :=
  ∀ (base k : ℕ) (buf : Fin sgxMaxBuf → Byte) (stream : List Byte) (register : δ) (s : σ)
    (r : Record μ δ), A.run 0 ((stream.drop base).take k) s₀ (Record.empty register) = (.inl s, k, r) →
    MessageKept base buf stream → FitsRing base stream → stream.length < base + k + sgxMaxBuf →
    V.Ready base buf stream.length s k r

theorem ScanInv.parse_eq {V : ScannedBy P A} {s₀ : σ} {start request : SgxHttpRequest}
    {stream : List Byte} (h : ScanInv V s₀ start request stream) (hready : ReadyInMessage V s₀) :
    P.parse request = V.result start.pos
      (moved start request.buf request.pos request.last request.state)
      (A.run 0 (stream.drop start.pos) s₀ (Record.empty (V.register start))) := by
  obtain ⟨s, r, hstate, hrender, hrun⟩ := h.scanned
  have hlast := h.ring.last_eq
  have hroom := h.ring.room
  have hpos : request.pos = start.pos + (request.pos - start.pos) := by
    have := h.base_le
    omega
  have hr := hready start.pos (request.pos - start.pos) request.buf stream (V.register start) s r
    hrun h.kept h.fits (by omega)
  rw [← hlast] at hr
  have hparse := V.parse_eq start.pos (request.pos - start.pos)
    (moved start request.buf request.pos request.last request.state) s r hpos h.ring.pos_le hstate hr
  have hunread : unread (moved start request.buf request.pos request.last request.state) =
      stream.drop request.pos := by
    have hwindow := h.ring.holds.window_eq
    rwa [List.length_drop, ← hlast] at hwindow
  have hsplit : stream.drop start.pos = (stream.drop start.pos).take (request.pos - start.pos) ++
      stream.drop request.pos := by
    conv_lhs => rw [← List.take_append_drop (request.pos - start.pos) (stream.drop start.pos)]
    rw [List.drop_drop, ← hpos]
  rw [← hrender, hunread] at hparse
  rw [hparse, hsplit, A.run_append, hrun]
  rfl

theorem ScanInv.again {V : ScannedBy P A} {s₀ : σ} {start request : SgxHttpRequest}
    {stream : List Byte} (h : ScanInv V s₀ start request stream) (hready : ReadyInMessage V s₀)
    (hanswer : (P.parse request).1 = sgxAgain) :
    ScanInv V s₀ start (P.parse request).2 stream := by
  have hparse := h.parse_eq hready
  have hlast := h.ring.last_eq
  have hle := h.ring.pos_le
  have hbase := h.base_le
  rcases hrun : A.run 0 (stream.drop start.pos) s₀ (Record.empty (V.register start)) with
    ⟨s | x, k, r⟩
  · have hk := A.run_inl hrun
    rw [List.length_drop] at hk
    have hend : start.pos + k = request.last := by omega
    rw [hrun, V.result_inl, hend] at hparse
    have hafter : (P.parse request).2 =
        V.render start.pos (moved start request.buf request.last request.last (P.code s)) r := by
      rw [hparse]
      rfl
    generalize (P.parse request).2 = request' at hafter ⊢
    have hbuf : request'.buf = request.buf := by rw [hafter, V.render_buf]; rfl
    have hpos : request'.pos = request.last := by rw [hafter, V.render_pos]; rfl
    have hlast' : request'.last = request.last := by rw [hafter, V.render_last]; rfl
    have hstate : request'.state = P.code s := by rw [hafter, V.render_state]; rfl
    refine ⟨h.ring.parse hbuf hlast' (by omega) (by omega), by omega, h.fits, ?_, s, r, hstate, ?_, ?_⟩
    · rw [hbuf]
      exact h.kept
    · rw [hbuf, hpos, hlast', hstate]
      exact hafter
    · rw [hpos, show request.last - start.pos = k by omega,
        List.take_of_length_le (by rw [List.length_drop]; omega)]
      exact hrun
  · rw [hparse, hrun, V.result_inr_code] at hanswer
    exact absurd hanswer x.code_ne_again

theorem ParseRun.inv {V : ScannedBy P A} {s₀ : σ} (hcode : P.code s₀ = 0)
    (hready : ReadyInMessage V s₀) {start request : SgxHttpRequest} {stream : List Byte}
    (h : ParseRun P.parse (FitsRing start.pos) start request stream) :
    ScanInv V s₀ start request stream := by
  induction h with
  | start h hstate => exact ScanInv.start V h (hstate.trans hcode.symm)
  | read _ bs hlen hlast hallowed ih => exact ih.read hlen hlast hallowed
  | again _ hanswer ih => exact ih.again hready hanswer

theorem ParseRun.done {V : ScannedBy P A} {s₀ : σ} (hcode : P.code s₀ = 0)
    (hready : ReadyInMessage V s₀) {start request : SgxHttpRequest} {stream : List Byte}
    (h : ParseRun P.parse (FitsRing start.pos) start request stream)
    (hok : (P.parse request).1 = sgxOk) :
    ∃ n r, A.run 0 (stream.drop start.pos) s₀ (Record.empty (V.register start)) =
        (.inr .done, n, r) ∧
      (P.parse request).2 = P.done (V.render start.pos
        (moved start request.buf request.pos request.last request.state) r) (start.pos + n) ∧
      start.pos + n < stream.length ∧ FitsRing start.pos stream ∧
      MessageKept start.pos request.buf stream := by
  have hinv := h.inv hcode hready
  have hparse := hinv.parse_eq hready
  rcases hrun : A.run 0 (stream.drop start.pos) s₀ (Record.empty (V.register start)) with
    ⟨s | x, n, r⟩
  · rw [hparse, hrun] at hok
    cases hok
  · rw [hrun] at hparse
    rw [hparse] at hok
    obtain rfl := V.result_inr_done (.inl hok)
    have hn := (A.run_inr hrun).2
    rw [List.length_drop] at hn
    exact ⟨n, r, rfl, by rw [hparse]; rfl, by omega, hinv.fits, hinv.kept⟩

theorem SliceMarked.intact {base n : ℕ} {stream : List Byte} {buf : Fin sgxMaxBuf → Byte}
    {start stop : Option ℕ} (h : SliceMarked (lead (stream.drop base)) n start stop)
    (hn : base + n ≤ stream.length) (hfits : FitsRing base stream)
    (hkept : MessageKept base buf stream) (old old' : Ptr) :
    SliceIntact base stream buf (ptrFrom base old start) (ptrFrom base old' stop) := by
  obtain ⟨i, j, rfl, rfl, hlo, hij, hlt⟩ := h
  have hfirst : firstByte base stream = base + lead (stream.drop base) := rfl
  rw [FitsRing] at hfits
  refine ⟨base + i, base + j, by omega, by omega, by omega, rfl, rfl, fun k hk hkj => ?_⟩
  exact hkept.at (by omega) (by omega)

theorem line_ready : ReadyInMessage lineScanned .swStart := by
  intro base k buf stream register s r hrun hkept hfits hroom
  obtain ⟨r₀, hmarked, hlead⟩ := line_start_marked ((stream.drop base).take k) register
  have hk := lineScanner.run_inl hrun
  rw [hlead] at hrun
  have hend := lineScanner.run_invariant (LineMarked _) lineMarked_next hmarked hrun
  rw [List.take_append_drop, lead_take] at hend
  obtain ⟨-, hend⟩ := hend
  cases s with
  | swStart => exact ⟨hend.1, by omega⟩
  | swMethod =>
    obtain ⟨hmethod, -, i, hi, hlo, hlen, hdrop⟩ := hend
    have hfirst : firstByte base stream = base + lead (stream.drop base) := rfl
    rw [FitsRing] at hfits
    refine ⟨hmethod, i, hi, by omega, ?_, by omega⟩
    intro d hd
    rw [← hdrop, List.getElem?_drop, List.getElem?_take_of_lt (by omega), List.getElem?_drop,
      Nat.add_assoc]
    have hlength : k ≤ stream.length - base := by
      rw [hk, Nat.zero_add, List.length_take, List.length_drop]
      omega
    exact hkept.at (by omega) (by omega)
  | _ => trivial

theorem body_ready : ReadyInMessage bodyScanned .swStart := fun _ _ _ _ _ _ _ _ _ _ _ => trivial

theorem slices_stay_valid {start request : SgxHttpRequest} {stream : List Byte} :
    (ParseRun sgxHttpParseRequestLine (FitsRing start.pos) start request stream →
      (sgxHttpParseRequestLine request).1 = sgxOk →
      let answer := (sgxHttpParseRequestLine request).2
      SliceIntact start.pos stream answer.buf answer.requestStart answer.methodEnd ∧
        SliceIntact start.pos stream answer.buf answer.uriStart answer.uriEnd) ∧
    (ParseRun sgxHttpParseRequestBody (FitsRing start.pos) start request stream →
      (sgxHttpParseRequestBody request).1 = sgxOk →
      let answer := (sgxHttpParseRequestBody request).2
      ∃ added, answer.list = added ++ start.list ∧ ∀ head ∈ added,
        SliceIntact start.pos stream answer.buf head.keyStart head.keyEnd ∧
          SliceIntact start.pos stream answer.buf head.valueStart head.valueEnd) := by
  constructor
  · intro h hok answer
    obtain ⟨n, r, hrun, hanswer, hn, hfits, hkept⟩ := h.done rfl line_ready hok
    obtain ⟨r₀, hmarked, hlead⟩ := line_start_marked (stream.drop start.pos)
      (lineScanned.register start)
    rw [hlead] at hrun
    obtain ⟨⟨i, hi, he, hlo, hlt⟩, huri⟩ := line_done_marked hmarked hrun
    have hmethod : SliceMarked (lead (stream.drop start.pos)) (n + 1) (r.cursor .requestStart)
        (r.cursor .methodEnd) := ⟨i, _, hi, he, hlo, Nat.le_add_right _ _, hlt⟩
    have hanswer' : answer = _ := hanswer
    rw [hanswer']
    exact ⟨hmethod.intact hn hfits hkept start.requestStart start.methodEnd,
      SliceMarked.intact huri hn hfits hkept start.uriStart start.uriEnd⟩
  · intro h hok answer
    obtain ⟨n, r, hrun, hanswer, hn, hfits, hkept⟩ := h.done rfl body_ready hok
    obtain ⟨hmarked, hlead⟩ := body_start_marked (stream.drop start.pos)
    have hentries := body_entries_marked hmarked (hlead ▸ hrun)
    rw [← List.length_append, List.take_append_drop, List.length_drop] at hentries
    have hanswer' : answer = _ := hanswer
    rw [hanswer']
    refine ⟨r.entries.map (renderEntry start.pos start), rfl, fun head hhead => ?_⟩
    obtain ⟨cursor, hcursor, rfl⟩ := List.mem_map.mp hhead
    obtain ⟨hkey, hvalue⟩ := hentries cursor hcursor
    exact ⟨SliceMarked.intact hkey (by omega) hfits hkept _ _,
      SliceMarked.intact hvalue (by omega) hfits hkept _ _⟩

theorem slices_stay_valid_in_two_reads :
    let start := (sgxInitRequest zeroRequest 5 4 ⟨none, 80, 4⟩).2
    let stream := "GE".toList.map chr ++ "T / HTTP/1.1\n".toList.map chr
    let request := (sgxRequestRunRound (sgxHttpParseRequestLine
      (sgxRequestRunRound start (.bytes ("GE".toList.map chr))).1).2
        (.bytes ("T / HTTP/1.1\n".toList.map chr))).1
    SliceIntact start.pos stream (sgxHttpParseRequestLine request).2.buf
      (sgxHttpParseRequestLine request).2.requestStart
      (sgxHttpParseRequestLine request).2.methodEnd := by
  intro start stream request
  have hstart : ParseRun sgxHttpParseRequestLine (FitsRing start.pos) start start [] :=
    .start (.init zeroRequest 5 4 ⟨none, 80, 4⟩) rfl
  have hread := hstart.read ("GE".toList.map chr) (by decide) (by decide)
    (show 2 ≤ firstByte start.pos ("GE".toList.map chr) + sgxMaxBuf by decide)
  have hagain := hread.again (by decide)
  have hrun := hagain.read ("T / HTTP/1.1\n".toList.map chr) (by decide) (by decide)
    (show 15 ≤ firstByte start.pos stream + sgxMaxBuf by decide)
  exact (slices_stay_valid.1 hrun (by decide)).1

def longUri (n : ℕ) : List Byte := "GET /".toList.map chr ++ List.replicate n (chr 'a')

def longUriRecord : Record LineCursor LineRegister :=
  (lineScanner.run 0 ("GET /".toList.map chr) .swStart (Record.empty ⟨0, 0, []⟩)).2.2

theorem run_uri (n pos : ℕ) (rest : List Byte) (r : Record LineCursor LineRegister) :
    lineScanner.run pos (List.replicate n (chr 'a') ++ rest) .swAfterSlashInUri r =
      lineScanner.run (pos + n) rest .swAfterSlashInUri r := by
  rw [lineScanner.run_idle, List.length_replicate]
  · intro b hb
    rw [List.eq_of_mem_replicate hb]
    decide
  · intro b hb pos r
    rw [List.eq_of_mem_replicate hb]
    apply lineScanner.note_eq_self
    · rintro (_ | _ | _ | _ | _) <;> decide
    · rfl
    · exact fun _ => rfl

theorem run_longUri (n : ℕ) : lineScanner.run 0 (longUri n) .swStart (Record.empty ⟨0, 0, []⟩) =
    (.inl .swAfterSlashInUri, 5 + n, longUriRecord) := by
  have hhead : lineScanner.run 0 ("GET /".toList.map chr) .swStart (Record.empty ⟨0, 0, []⟩) =
      (.inl .swAfterSlashInUri, 5, longUriRecord) := rfl
  have htail := run_uri n 5 [] longUriRecord
  rw [List.append_nil] at htail
  unfold longUri
  rw [lineScanner.run_append, hhead]
  exact htail

theorem longUri_length (n : ℕ) : (longUri n).length = 5 + n := by
  unfold longUri
  rw [List.length_append, List.length_replicate]
  rfl

theorem append_in_uri (start : SgxHttpRequest) (buf : Fin sgxMaxBuf → Byte) (k : ℕ)
    (bs : List Byte) : append (renderLine 0 (moved start buf k k 3) longUriRecord) bs =
      renderLine 0 (moved start (putAll buf k bs) k (k + bs.length) 3) longUriRecord := rfl

theorem call_in_uri (start : SgxHttpRequest) (buf : Fin sgxMaxBuf → Byte) (k : ℕ)
    {bs : List Byte} (hlen : bs.length ≤ sgxMaxBuf) :
    sgxHttpParseRequestLine (append (renderLine 0 (moved start buf k k 3) longUriRecord) bs) =
      lineScanned.result 0 (moved start (putAll buf k bs) k (k + bs.length) 3)
        (lineScanner.run k bs .swAfterSlashInUri longUriRecord) := by
  have hparse := lineScanned.parse_eq 0 k (moved start (putAll buf k bs) k (k + bs.length) 3)
    .swAfterSlashInUri longUriRecord (Nat.zero_add k).symm (Nat.le_add_right k _) rfl trivial
  have hwindow : unread (moved start (putAll buf k bs) k (k + bs.length) 3) = bs := by
    simp only [unread, moved, Nat.add_sub_cancel_left]
    exact window_putAll buf k hlen
  rw [hwindow] at hparse
  rw [append_in_uri]
  exact hparse

theorem call_one_more (start : SgxHttpRequest) (buf : Fin sgxMaxBuf → Byte) (k : ℕ) :
    sgxHttpParseRequestLine
        (append (renderLine 0 (moved start buf k k 3) longUriRecord) [chr 'a']) =
      (sgxAgain, renderLine 0 (moved start (putAll buf k [chr 'a']) (k + 1) (k + 1) 3)
        longUriRecord) := by
  have hone : [chr 'a'].length ≤ sgxMaxBuf := by decide
  have hrun : lineScanner.run k [chr 'a'] .swAfterSlashInUri longUriRecord =
      (.inl .swAfterSlashInUri, k + 1, longUriRecord) := run_uri 1 k [] longUriRecord
  rw [call_in_uri start buf k hone, hrun, lineScanned.result_inl, Nat.zero_add]
  rfl

theorem remainSize_moved (start : SgxHttpRequest) (buf : Fin sgxMaxBuf → Byte) (k : ℕ) :
    remainSize (renderLine 0 (moved start buf k k 3) longUriRecord) =
      min (sgxMaxBuf - 1) (sgxMaxBuf - k % sgxMaxBuf) := by
  have hpos : (renderLine 0 (moved start buf k k 3) longUriRecord).pos = k := rfl
  have hlast : (renderLine 0 (moved start buf k k 3) longUriRecord).last = k := rfl
  rw [remainSize_eq (le_refl _) (Nat.lt_add_of_pos_right (by decide)), hpos, hlast, Nat.sub_self,
    Nat.sub_zero]

theorem read_moved (start : SgxHttpRequest) (buf : Fin sgxMaxBuf → Byte) (k : ℕ) {bs : List Byte}
    (hlen : bs.length ≤ min (sgxMaxBuf - 1) (sgxMaxBuf - k % sgxMaxBuf))
    (hlast : k + bs.length < sizeMod) :
    (sgxRequestRunRound (renderLine 0 (moved start buf k k 3) longUriRecord) (.bytes bs)).1 =
      append (renderLine 0 (moved start buf k k 3) longUriRecord) bs :=
  readRound_request (le_refl _) (Nat.lt_add_of_pos_right (by decide))
    (by rw [remainSize_moved]; exact hlen) hlast

theorem run_one_more {start : SgxHttpRequest} {buf : Fin sgxMaxBuf → Byte} {k : ℕ}
    {stream : List Byte} (h : ParseRun sgxHttpParseRequestLine (fun _ => True) start
      (renderLine 0 (moved start buf k k 3) longUriRecord) stream)
    (hlast : k + 1 < sizeMod) : ParseRun sgxHttpParseRequestLine (fun _ => True) start
      (renderLine 0 (moved start (putAll buf k [chr 'a']) (k + 1) (k + 1) 3) longUriRecord)
      (stream ++ [chr 'a']) := by
  have hmod := Nat.mod_lt k (show 0 < sgxMaxBuf by decide)
  have hlen : [chr 'a'].length ≤ min (sgxMaxBuf - 1) (sgxMaxBuf - k % sgxMaxBuf) := by
    simp only [List.length_singleton, sgxMaxBuf] at hmod ⊢
    omega
  have hread := h.read [chr 'a'] (by rw [remainSize_moved]; exact hlen) hlast trivial
  rw [read_moved start buf k hlen hlast] at hread
  have hcall := call_one_more start buf k
  have hagain := hread.again (by rw [hcall])
  rwa [hcall] at hagain

theorem last_call (start : SgxHttpRequest) (buf : Fin sgxMaxBuf → Byte) (k : ℕ) :
    let tail := " HTTP/1.1\n".toList.map chr
    let answer := sgxHttpParseRequestLine
      (append (renderLine 0 (moved start buf k k 3) longUriRecord) tail)
    answer.1 = sgxOk ∧ answer.2.requestStart = ptrAt 0 ∧ answer.2.methodEnd = ptrAt 3 ∧
      answer.2.buf = putAll buf k tail := by
  intro tail answer
  have hanswer : answer = lineScanned.result 0 (moved start (putAll buf k tail) k
      (k + tail.length) 3) (lineScanner.run k tail .swAfterSlashInUri longUriRecord) :=
    call_in_uri start buf k (by decide)
  rw [hanswer]
  exact ⟨rfl, rfl, rfl, rfl⟩

theorem first_call_long_uri (n : ℕ) (hn : 5 + n ≤ sgxMaxBuf) :
    let start := (sgxInitRequest zeroRequest 5 4 ⟨none, 80, 4⟩).2
    sgxHttpParseRequestLine (append start (longUri n)) = (sgxAgain, renderLine 0
      (moved start (putAll start.buf 0 (longUri n)) (5 + n) (5 + n) 3) longUriRecord) := by
  intro start
  have hlen : (longUri n).length ≤ sgxMaxBuf := by rw [longUri_length]; exact hn
  have hlast : (append start (longUri n)).last = 5 + n := by
    rw [append, longUri_length]
    exact Nat.zero_add _
  have hready : LineReady 0 (append start (longUri n)).buf (append start (longUri n)).last .swStart 0
      (Record.empty ⟨0, 0, []⟩) := ⟨rfl, by omega⟩
  have hparse := lineScanned.parse_start (append start (longUri n)) .swStart
    (Nat.zero_le _) rfl hready
  rw [unread_append rfl hlen] at hparse
  have hrun := run_longUri n
  have hanswer := hparse.trans (congrArg _ hrun)
  have hpos : (append start (longUri n)).pos + (5 + n) = 5 + n := Nat.zero_add _
  rw [lineScanned.result_inl, hlast, hpos] at hanswer
  exact hanswer

theorem long_uri_overwrites_the_method :
    let start := (sgxInitRequest zeroRequest 5 4 ⟨none, 80, 4⟩).2
    let stream := longUri 8118 ++ [chr 'a'] ++ " HTTP/1.1\n".toList.map chr
    ∃ request, ParseRun sgxHttpParseRequestLine (fun _ => True) start request stream ∧
      (sgxHttpParseRequestLine request).1 = sgxOk ∧
      ¬ SliceIntact start.pos stream (sgxHttpParseRequestLine request).2.buf
        (sgxHttpParseRequestLine request).2.requestStart
        (sgxHttpParseRequestLine request).2.methodEnd := by
  intro start stream
  have hstart : ParseRun sgxHttpParseRequestLine (fun _ => True) start start [] :=
    .start (.init zeroRequest 5 4 ⟨none, 80, 4⟩) rfl
  have hlen : (longUri 8118).length = 8123 := longUri_length 8118
  have hfirst := hstart.read (longUri 8118) (by rw [hlen]; decide) (by rw [hlen]; decide) trivial
  rw [readRound_request (by decide) (by decide) (by rw [hlen]; decide) (by rw [hlen]; decide)]
    at hfirst
  have hcall := first_call_long_uri 8118 (by decide)
  have hagain := hfirst.again (congrArg Prod.fst hcall)
  rw [hcall] at hagain
  generalize putAll start.buf 0 (longUri 8118) = buf at hagain
  have hone := run_one_more hagain (show 8123 + 1 < sizeMod by decide)
  generalize putAll buf 8123 [chr 'a'] = buf' at hone
  have hread := hone.read (" HTTP/1.1\n".toList.map chr) (by rw [remainSize_moved]; decide)
    (show 8123 + 1 + 10 < sizeMod by decide) trivial
  rw [read_moved start buf' _ (by decide) (show 8123 + 1 + 10 < sizeMod by decide)] at hread
  obtain ⟨hok, hrequest, hmethod, hbuf⟩ := last_call start buf' (8123 + 1)
  refine ⟨_, hread, hok, ?_⟩
  rw [hrequest, hmethod, hbuf]
  rintro ⟨i, j, -, hij, hj, hstart, hstop, hbytes⟩
  have hfirst : firstByte start.pos stream = 0 := rfl
  rw [hfirst, Nat.zero_add] at hj
  have hwhole (k : ℕ) (hk : k < sgxMaxBuf) : 0 ≤ k ∧ k < 0 + sgxMaxBuf :=
    ⟨Nat.zero_le k, by rwa [Nat.zero_add]⟩
  obtain rfl : 0 = i :=
    slot_injOn (hwhole 0 (by decide)) (hwhole i (by omega)) (slot_eq_of_ptrAt hstart)
  obtain rfl : 3 = j := slot_injOn (hwhole 3 (by decide)) (hwhole j hj) (slot_eq_of_ptrAt hstop)
  have hbyte := hbytes 0 (le_refl 0) (by decide)
  have hstream : stream[0]? = some (chr 'G') := rfl
  have hstored : putAll buf' (8123 + 1) (" HTTP/1.1\n".toList.map chr) (slot sgxMaxBuf 0) =
      chr ' ' := rfl
  rw [hstream, hstored] at hbyte
  exact absurd hbyte (by decide)

end Sginx.Http
