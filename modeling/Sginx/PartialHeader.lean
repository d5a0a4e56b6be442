import Sginx.HeaderEntries

namespace Sginx.Http

open Sginx.Library.Scanning

structure Opening (ends : List Byte) (lines : List SectionLine) : Prop where
  ends_byte : ∀ c ∈ ends, c = cr ∨ c = lf
  head_ne : ∀ line ∈ lines.head?, line.key.head? ≠ some lf

def openingBytes (ends : List Byte) (lines : List SectionLine) : List Byte :=
  ends ++ (lines.map SectionLine.bytes).flatten

def openingEntries (ends : List Byte) (lines : List SectionLine) :
    List (BodyCursor → Option ℕ) :=
  (((lineStarts ends.length lines).filter saved).map lineCursor).reverse

def KeyOpen (lines : List SectionLine) (key : List Byte) : Prop :=
  ∃ c tail, key = c :: tail ∧ c ≠ cr ∧ (lines = [] → c ≠ lf) ∧
    ∀ b ∈ tail, b ≠ chr ' ' ∧ b ≠ chr ':'

def ValueOpen (value : List Byte) : Prop :=
  ∃ c tail, value = c :: tail ∧ c ≠ chr ' ' ∧ ∀ b ∈ tail, valueByte b

def colonPart (n m : ℕ) : List Byte :=
  List.replicate n (chr ' ') ++ chr ':' :: List.replicate m (chr ' ')

def PartialLine (lines : List SectionLine) (w : List Byte) : BodyState → Prop
  | .swStart => lines = [] ∧ w = []
  | .swKey => KeyOpen lines w
  | .swSpacesBeforeColon => ∃ key n, KeyOpen lines key ∧ w = key ++ List.replicate n (chr ' ')
  | .swSpacesAfterColon => ∃ key n m, KeyOpen lines key ∧ w = key ++ colonPart n m
  | .swValue => ∃ key n m value, KeyOpen lines key ∧ ValueOpen value ∧
      w = key ++ (colonPart n m ++ value)
  | .swCr => ∃ key n m value, KeyOpen lines key ∧ ValueOpen value ∧
      w = key ++ (colonPart n m ++ (value ++ [cr]))
  | .swCrlf => lines ≠ [] ∧ w = []
  | .swCrlfcr => lines ≠ [] ∧ w = [cr]

theorem run_opening {ends : List Byte} {lines : List SectionLine} (h : Opening ends lines)
    (hne : lines ≠ []) (rest : List Byte) : ∃ cursor,
      bodyScanner.run 0 (openingBytes ends lines ++ rest) .swStart (Record.empty ()) =
        bodyScanner.run (openingBytes ends lines).length rest .swCrlf
          ⟨cursor, openingEntries ends lines, ()⟩ := by
  obtain ⟨cursor, hlines⟩ := run_sectionLines lines (.inl rfl) hne (fun _ => h.head_ne)
    (0 + ends.length) rest (Record.empty ())
  refine ⟨cursor, ?_⟩
  have hnil : (Record.empty () : Record BodyCursor Unit).entries = [] := rfl
  rw [openingBytes, List.append_assoc, run_ends h.ends_byte, hlines, hnil, List.append_nil,
    List.length_append, Nat.zero_add]
  rfl

theorem KeyOpen.snoc {lines : List SectionLine} {key : List Byte} (h : KeyOpen lines key) {b : Byte}
    (hspace : b ≠ chr ' ') (hcolon : b ≠ chr ':') : KeyOpen lines (key ++ [b]) := by
  obtain ⟨c, tail, rfl, hcr, hlf, htail⟩ := h
  refine ⟨c, tail ++ [b], rfl, hcr, hlf, ?_⟩
  rw [List.forall_mem_append, List.forall_mem_singleton]
  exact ⟨htail, hspace, hcolon⟩

theorem ValueOpen.snoc {value : List Byte} (h : ValueOpen value) {b : Byte} (hb : valueByte b) :
    ValueOpen (value ++ [b]) := by
  obtain ⟨c, tail, rfl, hspace, htail⟩ := h
  refine ⟨c, tail ++ [b], rfl, hspace, ?_⟩
  rw [List.forall_mem_append, List.forall_mem_singleton]
  exact ⟨htail, hb⟩

theorem colonPart_snoc (n m : ℕ) : colonPart n m ++ [chr ' '] = colonPart n (m + 1) := by
  rw [colonPart, colonPart, List.append_assoc, List.cons_append, ← List.replicate_succ']

theorem line_of_parts {lines : List SectionLine} {key value : List Byte} (hkey : KeyOpen lines key)
    (hvalue : ValueOpen value) (n m : ℕ) (crlf : Bool) : ∃ line : SectionLine,
      key ++ (colonPart n m ++ (value ++ lineStop crlf)) = line.bytes ∧
        (lines = [] → line.key.head? ≠ some lf) := by
  obtain ⟨c, tail, rfl, hcr, hlf, htail⟩ := hkey
  refine ⟨⟨⟨c :: tail, n, m, value⟩, crlf, ⟨c, tail, rfl, hcr, htail⟩, hvalue⟩, ?_, ?_⟩
  · simp only [SectionLine.bytes, colonPart, List.append_assoc, List.cons_append]
  · exact fun hfirst hhead => hlf hfirst (Option.some.inj hhead)

theorem partialLine_next {lines : List SectionLine} {w : List Byte} {s s' : BodyState} {b : Byte}
    (h : PartialLine lines w s) (hn : bodyNext s b = .inl s') :
    s = .swStart ∧ s' = .swStart ∧ (b = cr ∨ b = lf) ∨
      PartialLine lines (w ++ [b]) s' ∧ bodyEmits s b = false ∨
      s' = .swCrlf ∧ ∃ line : SectionLine, w ++ [b] = line.bytes ∧
        (lines = [] → line.key.head? ≠ some lf) := by
  cases s with
  | swStart =>
    obtain ⟨rfl, rfl⟩ := h
    by_cases hend : b = cr ∨ b = lf
    · rw [bodyNext, if_pos hend] at hn
      obtain rfl := Sum.inl.inj hn
      exact .inl ⟨rfl, rfl, hend⟩
    · rw [bodyNext, if_neg hend] at hn
      obtain rfl := Sum.inl.inj hn
      rw [not_or] at hend
      exact .inr (.inl ⟨⟨b, [], rfl, hend.1, fun _ => hend.2, List.forall_mem_nil _⟩, rfl⟩)
  | swKey =>
    right; left
    by_cases hspace : b = chr ' '
    · rw [bodyNext, if_pos hspace] at hn
      obtain rfl := Sum.inl.inj hn
      rw [hspace]
      exact ⟨⟨w, 1, h, rfl⟩, rfl⟩
    by_cases hcolon : b = chr ':'
    · rw [bodyNext, if_neg hspace, if_pos hcolon] at hn
      obtain rfl := Sum.inl.inj hn
      rw [hcolon]
      exact ⟨⟨w, 0, 0, h, rfl⟩, rfl⟩
    · rw [bodyNext, if_neg hspace, if_neg hcolon] at hn
      obtain rfl := Sum.inl.inj hn
      exact ⟨KeyOpen.snoc h hspace hcolon, rfl⟩
  | swSpacesBeforeColon =>
    right; left
    obtain ⟨key, n, hkey, rfl⟩ := h
    by_cases hspace : b = chr ' '
    · rw [bodyNext, if_pos hspace] at hn
      obtain rfl := Sum.inl.inj hn
      rw [hspace, List.append_assoc, ← List.replicate_succ']
      exact ⟨⟨key, n + 1, hkey, rfl⟩, rfl⟩
    by_cases hcolon : b = chr ':'
    · rw [bodyNext, if_neg hspace, if_pos hcolon] at hn
      obtain rfl := Sum.inl.inj hn
      rw [hcolon, List.append_assoc]
      exact ⟨⟨key, n, 0, hkey, rfl⟩, rfl⟩
    · rw [bodyNext, if_neg hspace, if_neg hcolon] at hn
      cases hn
  | swSpacesAfterColon =>
    right; left
    obtain ⟨key, n, m, hkey, rfl⟩ := h
    by_cases hspace : b = chr ' '
    · rw [bodyNext, if_pos hspace] at hn
      obtain rfl := Sum.inl.inj hn
      rw [hspace, List.append_assoc, colonPart_snoc]
      exact ⟨⟨key, n, m + 1, hkey, rfl⟩, rfl⟩
    · rw [bodyNext, if_neg hspace] at hn
      obtain rfl := Sum.inl.inj hn
      rw [List.append_assoc]
      exact ⟨⟨key, n, m, [b], hkey, ⟨b, [], rfl, hspace, List.forall_mem_nil _⟩, rfl⟩, rfl⟩
  | swValue =>
    obtain ⟨key, n, m, value, hkey, hvalue, rfl⟩ := h
    rw [List.append_assoc, List.append_assoc]
    by_cases hcr : b = cr
    · rw [bodyNext, if_pos hcr] at hn
      obtain rfl := Sum.inl.inj hn
      rw [hcr]
      exact .inr (.inl ⟨⟨key, n, m, value, hkey, hvalue, rfl⟩, rfl⟩)
    by_cases hlf : b = lf
    · rw [bodyNext, if_neg hcr, if_pos hlf] at hn
      obtain rfl := Sum.inl.inj hn
      rw [hlf]
      exact .inr (.inr ⟨rfl, line_of_parts hkey hvalue n m false⟩)
    · rw [bodyNext, if_neg hcr, if_neg hlf] at hn
      obtain rfl := Sum.inl.inj hn
      exact .inr (.inl ⟨⟨key, n, m, value ++ [b], hkey, hvalue.snoc ⟨hcr, hlf⟩, rfl⟩, rfl⟩)
  | swCr =>
    obtain ⟨key, n, m, value, hkey, hvalue, rfl⟩ := h
    by_cases hlf : b = lf
    · rw [bodyNext, if_pos hlf] at hn
      obtain rfl := Sum.inl.inj hn
      rw [hlf, List.append_assoc, List.append_assoc, List.append_assoc]
      exact .inr (.inr ⟨rfl, line_of_parts hkey hvalue n m true⟩)
    · rw [bodyNext, if_neg hlf] at hn
      cases hn
  | swCrlf =>
    right; left
    obtain ⟨hne, rfl⟩ := h
    by_cases hcr : b = cr
    · rw [bodyNext, if_pos hcr] at hn
      obtain rfl := Sum.inl.inj hn
      rw [hcr]
      exact ⟨⟨hne, rfl⟩, rfl⟩
    · rw [bodyNext, if_neg hcr] at hn
      obtain rfl := Sum.inl.inj hn
      exact ⟨⟨b, [], rfl, hcr, fun hnil => absurd hnil hne, List.forall_mem_nil _⟩, rfl⟩
  | swCrlfcr =>
    by_cases hlf : b = lf
    · rw [bodyNext, if_pos hlf] at hn
      cases hn
    · rw [bodyNext, if_neg hlf] at hn
      cases hn

theorem emits_exit {s : BodyState} {b : Byte} {x : ScanExit} (h : bodyNext s b = .inr x) :
    bodyEmits s b = false := by
  cases s with
  | swCr =>
    by_cases hlf : b = lf
    · rw [bodyNext, if_pos hlf] at h
      cases h
    · simp [bodyEmits, hlf]
  | _ => rfl

def Reading (s : BodyState) (pre : List Byte) (r : Record BodyCursor Unit) : Prop :=
  bodyScanner.run 0 pre .swStart (Record.empty ()) = (.inl s, pre.length, r) ∧
    ∃ ends lines w, Opening ends lines ∧ PartialLine lines w s ∧
      pre = openingBytes ends lines ++ w ∧ r.entries = openingEntries ends lines

theorem note_entries {s : BodyState} {b : Byte} (h : bodyEmits s b = false) (pos : ℕ)
    (r : Record BodyCursor Unit) : (bodyScanner.note s b pos r).entries = r.entries := by
  simp [Scanner.note, bodyScanner, h]

theorem Opening.snoc {ends : List Byte} {lines : List SectionLine} (h : Opening ends lines)
    {line : SectionLine} (hhead : lines = [] → line.key.head? ≠ some lf) :
    Opening ends (lines ++ [line]) := by
  refine ⟨h.ends_byte, ?_⟩
  cases lines with
  | nil =>
    rintro first ⟨⟩
    exact hhead rfl
  | cons first rest => exact h.head_ne

theorem reading_next {s s' : BodyState} {pre : List Byte} {b : Byte} {r : Record BodyCursor Unit}
    (hn : bodyNext s b = .inl s') (h : Reading s pre r) :
    Reading s' (pre ++ [b]) (bodyScanner.note s b pre.length r) := by
  obtain ⟨hrun, ends, lines, w, hopening, hpartial, rfl, hentries⟩ := h
  have hrun' : bodyScanner.run 0 ((openingBytes ends lines ++ w) ++ [b]) .swStart (Record.empty ()) =
      (.inl s', ((openingBytes ends lines ++ w) ++ [b]).length,
        bodyScanner.note s b (openingBytes ends lines ++ w).length r) := by
    have hlen : ((openingBytes ends lines ++ w) ++ [b]).length =
        (openingBytes ends lines ++ w).length + 1 := List.length_append
    rw [bodyScanner.run_append, hrun, Scanner.resume, bodyScanner.run_cons_inl hn, hlen]
    rfl
  refine ⟨hrun', ?_⟩
  rcases partialLine_next hpartial hn with ⟨rfl, rfl, hb⟩ | ⟨hline, hemits⟩ | ⟨rfl, line, hline, hhead⟩
  · obtain ⟨rfl, rfl⟩ := hpartial
    refine ⟨ends ++ [b], [], [], ⟨?_, hopening.head_ne⟩, ⟨rfl, rfl⟩, ?_, ?_⟩
    · rw [List.forall_mem_append, List.forall_mem_singleton]
      exact ⟨hopening.ends_byte, hb⟩
    · simp [openingBytes]
    · rw [note_entries rfl, hentries]
      rfl
  · refine ⟨ends, lines, w ++ [b], hopening, hline, List.append_assoc _ _ _, ?_⟩
    rw [note_entries hemits, hentries]
  · have hnext := hopening.snoc hhead
    have hne : lines ++ [line] ≠ [] := List.append_ne_nil_of_right_ne_nil _ (List.cons_ne_nil _ _)
    have hbytes : (openingBytes ends lines ++ w) ++ [b] = openingBytes ends (lines ++ [line]) := by
      rw [List.append_assoc, hline]
      simp [openingBytes]
    refine ⟨ends, lines ++ [line], [], hnext, ⟨hne, rfl⟩, ?_, ?_⟩
    · rw [hbytes, List.append_nil]
    -- what the lines leave in the record is known from a run over them
    · obtain ⟨cursor, hlines⟩ := run_opening hnext hne []
      rw [List.append_nil, ← hbytes, hrun'] at hlines
      have hrecord := congrArg (fun answer => answer.2.2.entries) hlines
      exact hrecord

theorem reading_of_run {bytes : List Byte} {s : BodyState} {n : ℕ} {r : Record BodyCursor Unit}
    (h : bodyScanner.run 0 bytes .swStart (Record.empty ()) = (.inl s, n, r)) :
    Reading s bytes r := by
  have hstart : Reading .swStart [] (Record.empty ()) :=
    ⟨rfl, [], [], [], ⟨List.forall_mem_nil _, fun line hline => absurd hline (by simp)⟩,
      ⟨rfl, rfl⟩, rfl, rfl⟩
  exact bodyScanner.run_invariant Reading (fun s pre b s' r hn => reading_next hn) hstart h

theorem run_entries {bytes : List Byte} {out : BodyState ⊕ ScanExit} {n : ℕ}
    {r : Record BodyCursor Unit}
    (h : bodyScanner.run 0 bytes .swStart (Record.empty ()) = (out, n, r)) :
    ∃ ends lines rest, Opening ends lines ∧ bytes = openingBytes ends lines ++ rest ∧
      r.entries = openingEntries ends lines := by
  cases out with
  | inl s =>
    obtain ⟨-, ends, lines, w, hopening, -, hbytes, hentries⟩ := reading_of_run h
    exact ⟨ends, lines, w, hopening, hbytes, hentries⟩
  | inr x =>
    obtain ⟨pre, b, rest, s, r₀, rfl, hrun, hexit, rfl⟩ := bodyScanner.run_inr_split h
    obtain ⟨-, ends, lines, w, hopening, -, rfl, hentries⟩ := reading_of_run hrun
    refine ⟨ends, lines, w ++ b :: rest, hopening, List.append_assoc _ _ _, ?_⟩
    rw [note_entries (emits_exit hexit), hentries]

end Sginx.Http
