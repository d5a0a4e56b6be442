import Sginx.BodyScanner
import Sginx.LineScanner

namespace Sginx.Http

open Sginx.Library.RingBuffer Sginx.Library.Scanning

def SliceMarked (lo n : ℕ) (first last : Option ℕ) : Prop :=
  ∃ i j, first = some i ∧ last = some j ∧ lo ≤ i ∧ i ≤ j ∧ j < n

theorem SliceMarked.mono {lo n n' : ℕ} {first last : Option ℕ} (h : SliceMarked lo n first last)
    (hn : n ≤ n') : SliceMarked lo n' first last := by
  obtain ⟨i, j, hi, hj, hlo, hij, hlt⟩ := h
  exact ⟨i, j, hi, hj, hlo, hij, hlt.trans_le hn⟩

def KeyMarked (lo n : ℕ) (cursor : BodyCursor → Option ℕ) : Prop :=
  SliceMarked lo n (cursor .keyStart) (cursor .keyEnd)

def ValueMarked (lo n : ℕ) (cursor : BodyCursor → Option ℕ) : Prop :=
  SliceMarked lo n (cursor .valueStart) (cursor .valueEnd)

def HeadMarked (lo n : ℕ) (cursor : BodyCursor → Option ℕ) : BodyState → Prop
  | .swKey => ∃ i, cursor .keyStart = some i ∧ lo ≤ i ∧ i < n
  | .swSpacesBeforeColon => KeyMarked lo n cursor
  | .swSpacesAfterColon => KeyMarked lo n cursor
  | .swValue => KeyMarked lo n cursor ∧ ∃ i, cursor .valueStart = some i ∧ lo ≤ i ∧ i < n
  | .swCr => KeyMarked lo n cursor ∧ ValueMarked lo n cursor
  | _ => True

def EntriesMarked (lo n : ℕ) (r : Record BodyCursor Unit) : Prop :=
  ∀ cursor ∈ r.entries, KeyMarked lo n cursor ∧ ValueMarked lo n cursor

theorem EntriesMarked.mono {lo n n' : ℕ} {r : Record BodyCursor Unit} (h : EntriesMarked lo n r)
    (hn : n ≤ n') : EntriesMarked lo n' r :=
  fun cursor hc => ⟨(h cursor hc).1.mono hn, (h cursor hc).2.mono hn⟩

theorem SliceMarked.of_le {lo n i : ℕ} {first last : Option ℕ} (hfirst : first = some i)
    (hlo : lo ≤ i) (hi : i ≤ n) (hlast : last = some n) : SliceMarked lo (n + 1) first last :=
  ⟨i, n, hfirst, hlast, hlo, hi, Nat.lt_succ_self n⟩

theorem note_cursor_body (s : BodyState) (c : Byte) (n : ℕ) (r : Record BodyCursor Unit)
    (m : BodyCursor) : (bodyScanner.note s c n r).cursor m =
      if bodyMarks s c m then some n else r.cursor m := rfl

theorem headMarked_next {lo n : ℕ} (hlo : lo ≤ n) {s s' : BodyState} {c : Byte}
    {r : Record BodyCursor Unit} (hnext : bodyNext s c = .inl s')
    (h : HeadMarked lo n r.cursor s) :
    HeadMarked lo (n + 1) (bodyScanner.note s c n r).cursor s' := by
  have hcursor := note_cursor_body s c n r
  generalize (bodyScanner.note s c n r).cursor = cursor at hcursor ⊢
  cases s with
  | swStart =>
    simp only [bodyNext] at hnext
    split_ifs at hnext with hc <;> obtain rfl := Sum.inl.inj hnext
    · trivial
    · rw [not_or] at hc
      exact ⟨n, by simp [hcursor, bodyMarks, hc], hlo, Nat.lt_succ_self n⟩
  | swKey =>
    obtain ⟨i, hi, hloi, hin⟩ := h
    have hstart : cursor .keyStart = some i := by simp [hcursor, bodyMarks, hi]
    simp only [bodyNext] at hnext
    split_ifs at hnext with hspace hcolon <;> obtain rfl := Sum.inl.inj hnext
    · exact SliceMarked.of_le hstart hloi hin.le (by simp [hcursor, bodyMarks, hspace])
    · exact SliceMarked.of_le hstart hloi hin.le (by simp [hcursor, bodyMarks, hcolon])
    · exact ⟨i, hstart, hloi, hin.trans (Nat.lt_succ_self n)⟩
  | swSpacesBeforeColon =>
    have hkey : KeyMarked lo (n + 1) cursor := by
      simpa [KeyMarked, hcursor, bodyMarks] using h.mono (Nat.le_succ n)
    simp only [bodyNext] at hnext
    split_ifs at hnext <;> obtain rfl := Sum.inl.inj hnext <;> exact hkey
  | swSpacesAfterColon =>
    have hkey : KeyMarked lo (n + 1) cursor := by
      simpa [KeyMarked, hcursor, bodyMarks] using h.mono (Nat.le_succ n)
    simp only [bodyNext] at hnext
    split_ifs at hnext with hspace <;> obtain rfl := Sum.inl.inj hnext
    · exact hkey
    · exact ⟨hkey, n, by simp [hcursor, bodyMarks, hspace], hlo, Nat.lt_succ_self n⟩
  | swValue =>
    obtain ⟨hk, i, hi, hloi, hin⟩ := h
    have hkey : KeyMarked lo (n + 1) cursor := by
      simpa [KeyMarked, hcursor, bodyMarks] using hk.mono (Nat.le_succ n)
    have hstart : cursor .valueStart = some i := by simp [hcursor, bodyMarks, hi]
    simp only [bodyNext] at hnext
    split_ifs at hnext with hcr hlf <;> obtain rfl := Sum.inl.inj hnext
    · exact ⟨hkey, SliceMarked.of_le hstart hloi hin.le (by simp [hcursor, bodyMarks, hcr])⟩
    · trivial
    · exact ⟨hkey, i, hstart, hloi, hin.trans (Nat.lt_succ_self n)⟩
  | swCr =>
    simp only [bodyNext] at hnext
    split_ifs at hnext
    obtain rfl := Sum.inl.inj hnext
    trivial
  | swCrlf =>
    simp only [bodyNext] at hnext
    split_ifs at hnext with hcr <;> obtain rfl := Sum.inl.inj hnext
    · trivial
    · exact ⟨n, by simp [hcursor, bodyMarks, hcr], hlo, Nat.lt_succ_self n⟩
  | swCrlfcr =>
    simp only [bodyNext] at hnext
    split_ifs at hnext

theorem entriesMarked_note {lo n : ℕ} {s : BodyState} {c : Byte} {r : Record BodyCursor Unit}
    (h : EntriesMarked lo n r) (hhead : HeadMarked lo n r.cursor s) :
    EntriesMarked lo (n + 1) (bodyScanner.note s c n r) := by
  have hold := h.mono (Nat.le_succ n)
  by_cases hemit : bodyEmits s c
  · cases s with
    | swCr =>
      have hsame : (bodyScanner.note .swCr c n r).entries = r.cursor :: r.entries := by
        simp [Scanner.note, bodyScanner, hemit, bodyMarks]
      intro cursor hc
      rw [hsame] at hc
      rcases List.mem_cons.mp hc with rfl | hc
      · exact ⟨hhead.1.mono (Nat.le_succ n), hhead.2.mono (Nat.le_succ n)⟩
      · exact hold cursor hc
    | _ => simp [bodyEmits] at hemit
  · have hsame : (bodyScanner.note s c n r).entries = r.entries := by
      simp [Scanner.note, bodyScanner, hemit]
    intro cursor hc
    rw [hsame] at hc
    exact hold cursor hc

def BodyMarked (lo : ℕ) (s : BodyState) (pre : List Byte) (r : Record BodyCursor Unit) : Prop :=
  lo ≤ pre.length ∧ HeadMarked lo pre.length r.cursor s ∧ EntriesMarked lo pre.length r

theorem bodyMarked_next {lo : ℕ} (s : BodyState) (pre : List Byte) (c : Byte) (s' : BodyState)
    (r : Record BodyCursor Unit) (hnext : bodyScanner.next s c = .inl s')
    (h : BodyMarked lo s pre r) :
    BodyMarked lo s' (pre ++ [c]) (bodyScanner.note s c pre.length r) := by
  obtain ⟨hlo, hhead, hentries⟩ := h
  rw [BodyMarked, List.length_append, List.length_singleton]
  exact ⟨hlo.trans (Nat.le_succ _), headMarked_next hlo hnext hhead,
    entriesMarked_note hentries hhead⟩

theorem body_entries_marked {lo : ℕ} {pre xs : List Byte} {s : BodyState}
    {r r' : Record BodyCursor Unit} {out : BodyState ⊕ ScanExit} {n : ℕ}
    (h : BodyMarked lo s pre r)
    (hrun : bodyScanner.run pre.length xs s r = (out, n, r')) :
    EntriesMarked lo (pre.length + xs.length) r' := by
  cases out with
  | inl s' =>
    have hend := bodyScanner.run_invariant (BodyMarked lo) bodyMarked_next h hrun
    rw [BodyMarked, List.length_append] at hend
    exact hend.2.2
  | inr x =>
    have hend := bodyScanner.run_exit_invariant (BodyMarked lo)
      (fun _ n r => EntriesMarked lo (n + 1) r) bodyMarked_next
      (fun s pre b x r _ hI => entriesMarked_note hI.2.2 hI.2.1) h hrun
    exact hend.mono (bodyScanner.run_inr hrun).2

def MethodMarked (lo n : ℕ) (r : Record LineCursor LineRegister) : Prop :=
  ∃ i, r.cursor .requestStart = some i ∧ r.cursor .methodEnd = some (i + r.register.token.length) ∧
    lo ≤ i ∧ i + r.register.token.length < n

def UriMarked (lo n : ℕ) (r : Record LineCursor LineRegister) : Prop :=
  SliceMarked lo n (r.cursor .uriStart) (r.cursor .uriEnd)

theorem MethodMarked.mono {lo n n' : ℕ} {r : Record LineCursor LineRegister}
    (h : MethodMarked lo n r) (hn : n ≤ n') : MethodMarked lo n' r := by
  obtain ⟨i, hi, he, hlo, hlt⟩ := h
  exact ⟨i, hi, he, hlo, hlt.trans_le hn⟩

def LineState.late : LineState → Bool
  | .swStart => false
  | .swMethod => false
  | .swSpacesBeforeUri => false
  | .swAfterSlashInUri => false
  | _ => true

def LineMarked (lo : ℕ) (s : LineState) (pre : List Byte) (r : Record LineCursor LineRegister) :
    Prop :=
  lo ≤ pre.length ∧ match s with
  | .swStart => r.cursor .methodEnd = none ∧ r.cursor .uriEnd = none
  | .swMethod => r.cursor .methodEnd = none ∧ r.cursor .uriEnd = none ∧
      ∃ i, r.cursor .requestStart = some i ∧ lo ≤ i ∧
        i + r.register.token.length = pre.length ∧ pre.drop i = r.register.token
  | .swSpacesBeforeUri => MethodMarked lo pre.length r ∧ r.cursor .uriEnd = none
  | .swAfterSlashInUri => MethodMarked lo pre.length r ∧ r.cursor .uriEnd = none ∧
      ∃ i, r.cursor .uriStart = some i ∧ lo ≤ i ∧ i < pre.length
  | _ => MethodMarked lo pre.length r ∧ UriMarked lo pre.length r

theorem lineMarked_late {lo : ℕ} {s : LineState} (hs : s.late) {pre : List Byte}
    {r : Record LineCursor LineRegister} : LineMarked lo s pre r ↔
      lo ≤ pre.length ∧ MethodMarked lo pre.length r ∧ UriMarked lo pre.length r := by
  cases s <;> first | exact Iff.rfl | exact absurd hs Bool.false_ne_true

theorem late_next {s s' : LineState} (hs : s.late) {c : Byte} (hnext : lineNext s c = .inl s') :
    s'.late := by
  cases s <;> first
    | exact absurd hs Bool.false_ne_true
    | simp only [lineNext] at hnext
      split_ifs at hnext <;> obtain rfl := Sum.inl.inj hnext <;> rfl

theorem note_cursor_line (s : LineState) (c : Byte) (n : ℕ) (r : Record LineCursor LineRegister)
    (m : LineCursor) : (lineScanner.note s c n r).cursor m =
      if lineMarks s c m then some n else r.cursor m := rfl

theorem note_token_line (s : LineState) (c : Byte) (n : ℕ) (r : Record LineCursor LineRegister) :
    (lineScanner.note s c n r).register = lineFold s c r.register := rfl

theorem MethodMarked.note {lo n : ℕ} {s : LineState} (hstart : s ≠ .swStart)
    (hword : s ≠ .swMethod) (c : Byte) {r : Record LineCursor LineRegister}
    (h : MethodMarked lo n r) : MethodMarked lo (n + 1) (lineScanner.note s c n r) := by
  have hcursor (m : LineCursor) (hm : m = .requestStart ∨ m = .methodEnd) :
      (lineScanner.note s c n r).cursor m = r.cursor m := by
    rw [note_cursor_line]
    rcases hm with rfl | rfl <;> cases s <;> first
      | rfl
      | exact absurd rfl hstart
      | exact absurd rfl hword
  have htoken : (lineScanner.note s c n r).register.token = r.register.token := by
    rw [note_token_line]
    cases s <;> first
      | rfl
      | exact absurd rfl hstart
      | exact absurd rfl hword
      | (simp only [lineFold]; split_ifs <;> rfl)
  unfold MethodMarked
  rw [hcursor _ (.inl rfl), hcursor _ (.inr rfl), htoken]
  exact h.mono (Nat.le_succ n)

theorem UriMarked.note {lo n : ℕ} {s : LineState} (hs : s.late) (c : Byte)
    {r : Record LineCursor LineRegister} (h : UriMarked lo n r) :
    UriMarked lo (n + 1) (lineScanner.note s c n r) := by
  have hcursor (m : LineCursor) (hm : m = .uriStart ∨ m = .uriEnd) :
      (lineScanner.note s c n r).cursor m = r.cursor m := by
    rw [note_cursor_line]
    rcases hm with rfl | rfl <;> cases s <;> first | rfl | exact absurd hs Bool.false_ne_true
  unfold UriMarked
  rw [hcursor _ (.inl rfl), hcursor _ (.inr rfl)]
  exact h.mono (Nat.le_succ n)

theorem late_note {lo n : ℕ} {s : LineState} (hs : s.late) (c : Byte)
    {r : Record LineCursor LineRegister} (hmethod : MethodMarked lo n r) (huri : UriMarked lo n r) :
    MethodMarked lo (n + 1) (lineScanner.note s c n r) ∧
      UriMarked lo (n + 1) (lineScanner.note s c n r) := by
  refine ⟨hmethod.note ?_ ?_ c, huri.note hs c⟩
  · rintro rfl
    exact absurd hs Bool.false_ne_true
  · rintro rfl
    exact absurd hs Bool.false_ne_true

theorem lineMarked_next {lo : ℕ} (s : LineState) (pre : List Byte) (c : Byte) (s' : LineState)
    (r : Record LineCursor LineRegister) (hnext : lineScanner.next s c = .inl s')
    (h : LineMarked lo s pre r) :
    LineMarked lo s' (pre ++ [c]) (lineScanner.note s c pre.length r) := by
  have hlen : (pre ++ [c]).length = pre.length + 1 := by simp
  by_cases hs : s.late
  · obtain ⟨hlo, hmethod, huri⟩ := (lineMarked_late hs).mp h
    rw [lineMarked_late (late_next hs hnext), hlen]
    exact ⟨hlo.trans (Nat.le_succ _), late_note hs c hmethod huri⟩
  have hcursor := note_cursor_line s c pre.length r
  have hregister := note_token_line s c pre.length r
  obtain ⟨hlo, h⟩ := h
  refine ⟨by omega, ?_⟩
  replace hnext : lineNext s c = .inl s' := hnext
  cases s with
  | swStart =>
    obtain ⟨hend, huri⟩ := h
    have hend' : (lineScanner.note .swStart c pre.length r).cursor .methodEnd = none := by
      simp [hcursor, lineMarks, hend]
    have huri' : (lineScanner.note .swStart c pre.length r).cursor .uriEnd = none := by
      simp [hcursor, lineMarks, huri]
    simp only [lineNext] at hnext
    split_ifs at hnext <;> obtain rfl := Sum.inl.inj hnext
    · exact ⟨hend', huri'⟩
    · refine ⟨hend', huri', pre.length, by simp [hcursor, lineMarks], hlo, ?_, ?_⟩
      · simp [hregister, lineFold]
      · simp [hregister, lineFold]
  | swMethod =>
    obtain ⟨hend, huri, i, hi, hloi, hin, hdrop⟩ := h
    have hstart : (lineScanner.note .swMethod c pre.length r).cursor .requestStart = some i := by
      simp [hcursor, lineMarks, hi]
    have huri' : (lineScanner.note .swMethod c pre.length r).cursor .uriEnd = none := by
      simp [hcursor, lineMarks, huri]
    simp only [lineNext] at hnext
    split_ifs at hnext with hspace <;> obtain rfl := Sum.inl.inj hnext
    · have htoken : (lineScanner.note .swMethod c pre.length r).register = r.register := by
        rw [hregister]
        simp [lineFold, hspace]
      refine ⟨⟨i, hstart, ?_, hloi, ?_⟩, huri'⟩
      · rw [htoken, hin, hcursor]
        simp [lineMarks, hspace]
      · rw [htoken]
        omega
    · have htoken : (lineScanner.note .swMethod c pre.length r).register.token =
          r.register.token ++ [c] := by
        simp [hregister, lineFold, hspace]
      refine ⟨by simp [hcursor, lineMarks, hspace, hend], huri', i, hstart, hloi, ?_, ?_⟩
      · rw [htoken, List.length_append, List.length_singleton]
        omega
      · rw [htoken, List.drop_append_of_le_length (by omega), hdrop]
  | swSpacesBeforeUri =>
    obtain ⟨hmethod, huri⟩ := h
    have hmethod' := hmethod.note (show LineState.swSpacesBeforeUri ≠ .swStart by decide)
      (by decide) c
    rw [← hlen] at hmethod'
    have huri' : (lineScanner.note .swSpacesBeforeUri c pre.length r).cursor .uriEnd = none := by
      simp [hcursor, lineMarks, huri]
    simp only [lineNext] at hnext
    split_ifs at hnext with hslash <;> obtain rfl := Sum.inl.inj hnext
    · exact ⟨hmethod', huri', pre.length, by rw [hcursor]; simp [lineMarks, hslash], hlo, by omega⟩
    · exact ⟨hmethod', huri'⟩
  | swAfterSlashInUri =>
    obtain ⟨hmethod, huri, i, hi, hloi, hin⟩ := h
    have hmethod' := hmethod.note (show LineState.swAfterSlashInUri ≠ .swStart by decide)
      (by decide) c
    rw [← hlen] at hmethod'
    have hstart : (lineScanner.note .swAfterSlashInUri c pre.length r).cursor .uriStart = some i := by
      simp [hcursor, lineMarks, hi]
    simp only [lineNext] at hnext
    split_ifs at hnext with hspace <;> obtain rfl := Sum.inl.inj hnext
    · refine ⟨hmethod', ?_⟩
      rw [hlen]
      exact SliceMarked.of_le hstart hloi hin.le (by rw [hcursor]; simp [lineMarks, hspace])
    · exact ⟨hmethod', by simp [hcursor, lineMarks, hspace, huri], i, hstart, hloi, by omega⟩
  | _ => exact absurd rfl hs

def LineSlices (lo n : ℕ) (r : Record LineCursor LineRegister) : Prop :=
  (r.cursor .methodEnd = none ∨ MethodMarked lo n r) ∧
    (r.cursor .uriEnd = none ∨ UriMarked lo n r)

theorem LineSlices.mono {lo n n' : ℕ} {r : Record LineCursor LineRegister}
    (h : LineSlices lo n r) (hn : n ≤ n') : LineSlices lo n' r :=
  ⟨h.1.imp_right fun hm => hm.mono hn, h.2.imp_right fun hu => SliceMarked.mono hu hn⟩

theorem LineMarked.slices {lo : ℕ} {s : LineState} {pre : List Byte}
    {r : Record LineCursor LineRegister} (h : LineMarked lo s pre r) :
    LineSlices lo pre.length r := by
  obtain ⟨-, h⟩ := h
  cases s with
  | swStart => exact ⟨.inl h.1, .inl h.2⟩
  | swMethod => exact ⟨.inl h.1, .inl h.2.1⟩
  | swSpacesBeforeUri => exact ⟨.inr h.1, .inl h.2⟩
  | swAfterSlashInUri => exact ⟨.inr h.1, .inl h.2.1⟩
  | _ => exact ⟨.inr h.1, .inr h.2⟩

theorem done_late {s : LineState} {c : Byte} (h : lineNext s c = .inr .done) : s.late := by
  cases s <;> first
    | rfl
    | (simp only [lineNext] at h; split_ifs at h <;> cases h)

theorem lineSlices_exit {lo : ℕ} (s : LineState) (pre : List Byte) (c : Byte) (x : ScanExit)
    (r : Record LineCursor LineRegister) (hnext : lineNext s c = .inr x)
    (h : LineMarked lo s pre r) :
    LineSlices lo (pre.length + 1) (lineScanner.note s c pre.length r) := by
  by_cases hs : s.late
  · obtain ⟨-, hmethod, huri⟩ := (lineMarked_late hs).mp h
    have hlate := late_note hs c hmethod huri
    exact ⟨.inr hlate.1, .inr hlate.2⟩
  have hcursor := note_cursor_line s c pre.length r
  have hslices := h.slices.mono (Nat.le_succ pre.length)
  obtain ⟨-, h⟩ := h
  cases s with
  | swStart => exact ⟨.inl (by simp [hcursor, lineMarks, h.1]), .inl (by simp [hcursor, lineMarks, h.2])⟩
  | swMethod =>
    simp only [lineNext] at hnext
    split_ifs at hnext with hspace
    exact ⟨.inl (by simp [hcursor, lineMarks, hspace, h.1]),
      .inl (by simp [hcursor, lineMarks, h.2.1])⟩
  | swSpacesBeforeUri =>
    have hregister := note_token_line .swSpacesBeforeUri c pre.length r
    refine ⟨.inr ?_, .inl (by simp [hcursor, lineMarks, h.2])⟩
    simpa [MethodMarked, hcursor, hregister, lineMarks, lineFold] using
      h.1.mono (Nat.le_succ pre.length)
  | swAfterSlashInUri =>
    simp only [lineNext] at hnext
    split_ifs at hnext
  | _ => exact absurd rfl hs

theorem line_slices_marked {lo : ℕ} {pre xs : List Byte} {s : LineState}
    {r r' : Record LineCursor LineRegister} {out : LineState ⊕ ScanExit} {n : ℕ}
    (h : LineMarked lo s pre r) (hrun : lineScanner.run pre.length xs s r = (out, n, r')) :
    LineSlices lo (pre.length + xs.length) r' := by
  cases out with
  | inl s' =>
    have hend := (lineScanner.run_invariant (LineMarked lo) lineMarked_next h hrun).slices
    rwa [List.length_append] at hend
  | inr x =>
    have hend := lineScanner.run_exit_invariant (LineMarked lo)
      (fun _ n r => LineSlices lo (n + 1) r) lineMarked_next lineSlices_exit h hrun
    exact hend.mono (lineScanner.run_inr hrun).2

theorem line_done_marked {lo : ℕ} {pre xs : List Byte} {s : LineState}
    {r r' : Record LineCursor LineRegister} {n : ℕ} (h : LineMarked lo s pre r)
    (hrun : lineScanner.run pre.length xs s r = (.inr .done, n, r')) :
    MethodMarked lo (n + 1) r' ∧ UriMarked lo (n + 1) r' := by
  refine lineScanner.run_exit_invariant (LineMarked lo)
    (fun x n r => x = .done → MethodMarked lo (n + 1) r ∧ UriMarked lo (n + 1) r)
    lineMarked_next ?_ h hrun rfl
  rintro s pre c x r hnext hI rfl
  have hs := done_late hnext
  obtain ⟨-, hmethod, huri⟩ := (lineMarked_late hs).mp hI
  exact late_note hs c hmethod huri

end Sginx.Http
