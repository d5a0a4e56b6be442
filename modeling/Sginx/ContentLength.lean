import Sginx.HeaderPieces

namespace Sginx.Mini

open Sginx.Http (Byte cr lf chr)
open Sginx.Library.CString
open Sginx.Library.Decimal

structure HeaderLine where
  name : List Byte
  spaces : List Byte
  value : List Byte
  colon_notMem : chr ':' ∉ name
  isspace : ∀ c ∈ spaces, isspace c
  cr_notMem : cr ∉ name ++ spaces ++ value
  lf_notMem : lf ∉ name ++ spaces ++ value

namespace HeaderLine

variable {line : HeaderLine}

def text (line : HeaderLine) : List Byte :=
  line.name ++ [chr ':'] ++ (line.spaces ++ line.value)

def IsContentLength (line : HeaderLine) : Prop :=
  (line.name ++ [chr ':']).map tolower = contentLength.map tolower

structure HasNumber (line : HeaderLine) : Prop where
  ne_nil : line.value ≠ []
  isdigit : ∀ c ∈ line.value, isdigit c
  max : decimal line.value < 2 ^ 31

theorem notMem_text {d : Byte} (hd : d ∉ line.name ++ line.spaces ++ line.value)
    (hcolon : d ≠ chr ':') : d ∉ line.text := by
  simp only [text, List.mem_append, List.mem_singleton, not_or] at hd ⊢
  exact ⟨⟨hd.1.1, hcolon⟩, hd.1.2, hd.2⟩

theorem cr_notMem_text (line : HeaderLine) : cr ∉ line.text :=
  notMem_text line.cr_notMem (by decide)

theorem lf_notMem_text (line : HeaderLine) : lf ∉ line.text :=
  notMem_text line.lf_notMem (by decide)

theorem IsContentLength.length_eq (h : line.IsContentLength) :
    (line.name ++ [chr ':']).length = 15 := by
  have hlen := congrArg List.length h
  rw [List.length_map, List.length_map] at hlen
  exact hlen

theorem takeWhile_colon {cs ds : List Byte} (h : chr ':' ∉ cs) :
    (cs ++ chr ':' :: ds).takeWhile (· ≠ chr ':') = cs := by
  rw [List.takeWhile_append_of_pos]
  · rw [List.takeWhile_cons_of_neg (by decide), List.append_nil]
  · intro c hc
    rw [decide_eq_true_eq]
    exact fun heq => h (heq ▸ hc)

theorem headed_text_iff : Headed line.text ↔ line.IsContentLength := by
  constructor
  · intro h
    have hcolon : chr ':' ∉ line.name.map tolower := by
      intro hmem
      obtain ⟨c, hc, heq⟩ := List.mem_map.mp hmem
      rw [tolower_eq_of_lt (by decide) heq] at hc
      exact line.colon_notMem hc
    have htext : line.text.map tolower =
        line.name.map tolower ++ chr ':' :: (line.spaces ++ line.value).map tolower := by
      rw [text, List.map_append, List.map_append, List.append_assoc]
      rfl
    have hname : ∃ name, contentLength.map tolower = name ++ [chr ':'] ∧ chr ':' ∉ name :=
      ⟨(contentLength.take 14).map tolower, by decide, by decide⟩
    obtain ⟨name, hname, hnot⟩ := hname
    have hsplit : line.text.map tolower = name ++ chr ':' :: (line.text.drop 15).map tolower := by
      calc line.text.map tolower
          = (line.text.take 15 ++ line.text.drop 15).map tolower := by rw [List.take_append_drop]
        _ = name ++ [chr ':'] ++ (line.text.drop 15).map tolower := by
          rw [List.map_append, h, hname]
        _ = name ++ chr ':' :: (line.text.drop 15).map tolower := List.append_assoc _ _ _
    have heq : line.name.map tolower = name := by
      rw [← takeWhile_colon hcolon, ← htext, hsplit, takeWhile_colon hnot]
    rw [IsContentLength, List.map_append, heq, hname]
    rfl
  · intro h
    rw [Headed, text, ← h.length_eq, List.take_left]
    exact h

theorem headed_first_iff : Headed (line.text.take 1023) ↔ line.IsContentLength := by
  rw [← headed_text_iff, Headed, Headed, List.take_take]
  rfl

theorem lineNumbers_of_not (h : ¬ line.IsContentLength) :
    lineNumbers [] line.text = none :: strays line.text := by
  rw [lineNumbers_eq, pieceNumber, if_neg (fun hhead => h (headed_first_iff.mp hhead))]

theorem not_headed_of_lt {piece : List Byte} (h : ∀ c ∈ piece, c < 65) : ¬ Headed piece := by
  intro hhead
  cases piece with
  | nil => exact absurd hhead.length_le (by decide)
  | cons c piece =>
    have hfirst := congrArg List.head? hhead
    have hc : tolower c = 99 := Option.some.inj hfirst
    have hlt := h c List.mem_cons_self
    rw [tolower_of_lt hlt] at hc
    rw [hc] at hlt
    exact absurd hlt (by decide)

theorem mem_of_mem_pieces {text piece : List Byte} (h : piece ∈ pieces text) {c : Byte}
    (hc : c ∈ piece) : c ∈ text := by
  obtain ⟨j, -, rfl⟩ := List.mem_map.mp h
  exact List.mem_of_mem_drop (List.mem_of_mem_take hc)

theorem zipWith_not_headed {pieces : List (List Byte)} (h : ∀ piece ∈ pieces, ¬ Headed piece)
    (befores : List (List Byte)) :
    (List.zipWith pieceNumber befores pieces).reduceOption = [] := by
  induction pieces generalizing befores with
  | nil => rw [List.zipWith_nil_right, List.reduceOption_nil]
  | cons piece pieces ih =>
    rw [List.forall_mem_cons] at h
    cases befores with
    | nil => rfl
    | cons before befores =>
      rw [List.zipWith_cons_cons, pieceNumber, if_neg h.1, List.reduceOption_cons_of_none]
      exact ih h.2 befores

theorem lt_of_mem_number (hnumber : line.HasNumber) {c : Byte} (h : c ∈ line.spaces ++ line.value) :
    c < 65 := by
  rcases List.mem_append.mp h with hc | hc
  · exact lt_of_isspace (line.isspace c hc)
  · exact lt_of_isdigit (hnumber.isdigit c hc)

theorem strays_contentLength (h : line.IsContentLength) (hnumber : line.HasNumber) :
    (strays line.text).reduceOption = [] := by
  have hdrop : line.text.drop 15 = line.spaces ++ line.value := by
    rw [text, ← h.length_eq, List.drop_left]
  apply zipWith_not_headed
  intro piece hpiece
  apply not_headed_of_lt
  intro c hc
  apply lt_of_mem_number hnumber
  rw [← hdrop]
  rcases Nat.lt_or_ge line.text.length 1023 with hlt | hge
  · rw [pieces_of_lt hlt] at hpiece
    exact absurd hpiece List.not_mem_nil
  · rw [pieces_of_le hge] at hpiece
    have hmem := mem_of_mem_pieces hpiece hc
    exact List.mem_of_mem_drop (i := 1008) (by rwa [List.drop_drop])

def FirstPieceTaken (line : HeaderLine) : Prop :=
  decimal line.value = 0 ∨ line.text.length ≤ 1023 ∧
    (line.spaces ≠ [] ∨ line.value.head? = some (chr '0'))

def firstNumber (line : HeaderLine) : ℤ := atoi (((line.spaces ++ line.value).drop 1).take 1007)

theorem lineNumbers_contentLength (h : line.IsContentLength) (hnumber : line.HasNumber) :
    (lineNumbers [] line.text).reduceOption = [line.firstNumber] := by
  have hne := List.length_pos_iff.mpr hnumber.ne_nil
  have hlen : line.text.length = 15 + (line.spaces ++ line.value).length := by
    rw [text, List.length_append, h.length_eq]
  have hlong : (line.text.take 1023).length ≠ 15 := by
    rw [List.length_take, hlen, List.length_append]
    omega
  have hdrop : (line.text.take 1023).drop 16 = ((line.spaces ++ line.value).drop 1).take 1007 := by
    have hsixteen : line.text.drop 16 = (line.spaces ++ line.value).drop 1 := by
      rw [text, ← List.drop_drop (i := 1), ← h.length_eq, List.drop_left]
    rw [List.drop_take, hsixteen]
  rw [lineNumbers_eq, pieceNumber, if_pos (headed_first_iff.mpr h), if_neg hlong, hdrop,
    List.reduceOption_cons_of_some, strays_contentLength h hnumber]
  rfl

theorem firstNumber_eq_iff (h : line.IsContentLength) (hnumber : line.HasNumber) :
    line.firstNumber = decimal line.value ↔ line.FirstPieceTaken := by
  have hlen : line.text.length = 15 + (line.spaces.length + line.value.length) := by
    rw [text, List.length_append, h.length_eq, List.length_append]
  have hmax := hnumber.max
  rw [firstNumber, FirstPieceTaken]
  cases hspaces : line.spaces with
  | nil =>
    cases hvalue : line.value with
    | nil => exact absurd hvalue hnumber.ne_nil
    | cons c digits =>
      have hdigits := hnumber.isdigit
      rw [hvalue] at hdigits hmax
      rw [List.forall_mem_cons] at hdigits
      have htake : decimal (digits.take 1007) < 2 ^ 31 := by
        have hle := decimal_take_le digits 1007
        have hcons := decimal_cons c digits
        omega
      have hnone : ∀ d ∈ ([] : List Byte), Library.Decimal.isspace d := List.forall_mem_nil _
      have hatoi := atoi_digits hnone
        (fun d hd => hdigits.2 d (List.mem_of_mem_take hd)) htake
      have hlength : line.text.length ≤ 1023 ↔ digits.length ≤ 1007 := by
        rw [hlen, hspaces, hvalue, List.length_nil, List.length_cons]
        omega
      rw [List.nil_append] at hatoi
      rw [List.nil_append, List.drop_succ_cons, List.drop_zero, hatoi, Nat.cast_inj,
        decimal_tail_take_eq_iff, digit_eq_zero_iff hdigits.1, hlength]
      simp [chr]
  | cons w blanks =>
    have hblanks := line.isspace
    rw [hspaces, List.forall_mem_cons] at hblanks
    have htake : decimal (line.value.take (1007 - blanks.length)) < 2 ^ 31 :=
      lt_of_le_of_lt (decimal_take_le _ _) hmax
    have hspace : ∀ d ∈ blanks.take 1007, Library.Decimal.isspace d :=
      fun d hd => hblanks.2 d (List.mem_of_mem_take hd)
    have hatoi := atoi_digits hspace
      (fun d hd => hnumber.isdigit d (List.mem_of_mem_take hd)) htake
    have hpos := List.length_pos_iff.mpr hnumber.ne_nil
    have hlength : line.text.length ≤ 1023 ↔ line.value.length ≤ 1007 - blanks.length := by
      rw [hlen, hspaces, List.length_cons]
      omega
    rw [List.cons_append, List.drop_succ_cons, List.drop_zero, List.take_append, hatoi, Nat.cast_inj,
      decimal_take_eq_iff, hlength]
    simp

end HeaderLine

theorem linesRead_append (xs ys : List (List Byte)) : linesRead (xs ++ ys) =
    if ∃ line ∈ xs, line.length % 1023 = 0 then linesRead xs else xs ++ linesRead ys := by
  induction xs with
  | nil => simp
  | cons line xs ih =>
    rw [List.cons_append, linesRead, linesRead, ih]
    by_cases hline : line.length % 1023 = 0
    · rw [if_pos hline, if_pos hline, if_pos ⟨line, List.mem_cons_self, hline⟩]
    · rw [if_neg hline, if_neg hline]
      simp only [List.exists_mem_cons_iff, hline, false_or]
      split_ifs
      · rfl
      · rfl

theorem linesRead_of_all {lines : List (List Byte)} (h : ¬ ∃ line ∈ lines, line.length % 1023 = 0) :
    linesRead lines = lines := by
  have happend := linesRead_append lines []
  rw [if_neg h, List.append_nil, linesRead, List.append_nil] at happend
  exact happend

theorem linesRead_subset (lines : List (List Byte)) : linesRead lines ⊆ lines := by
  induction lines with
  | nil => exact List.Subset.refl _
  | cons line lines ih =>
    rw [linesRead]
    split_ifs
    · exact List.cons_subset_cons line (List.nil_subset lines)
    · exact List.cons_subset_cons line ih

def strayNumbers (lines : List HeaderLine) : List ℤ :=
  ((linesRead (lines.map HeaderLine.text)).flatMap strays).reduceOption

theorem flatMap_lineNumbers {lines : List HeaderLine} (h : ∀ line ∈ lines, ¬ line.IsContentLength) :
    ((linesRead (lines.map HeaderLine.text)).flatMap (lineNumbers [])).reduceOption =
      strayNumbers lines := by
  have hread : ∀ text ∈ linesRead (lines.map HeaderLine.text),
      lineNumbers [] text = none :: strays text := by
    intro text htext
    obtain ⟨line, hline, rfl⟩ := List.mem_map.mp (linesRead_subset _ htext)
    exact HeaderLine.lineNumbers_of_not (h line hline)
  rw [strayNumbers]
  generalize linesRead (lines.map HeaderLine.text) = texts at hread
  induction texts with
  | nil => rfl
  | cons text texts ih =>
    rw [List.forall_mem_cons] at hread
    rw [List.flatMap_cons, List.flatMap_cons, List.reduceOption_append, List.reduceOption_append,
      hread.1, List.reduceOption_cons_of_none, ih hread.2]

def LengthTaken (before : List HeaderLine) (line : HeaderLine) (after : List HeaderLine) : Prop :=
  if ∃ line ∈ before, line.text.length % 1023 = 0 then
    (strayNumbers before).getLast? = some (decimal line.value : ℤ)
  else
    let behind := if line.text.length % 1023 = 0 then [] else after
    (strayNumbers behind).getLast? = some (decimal line.value : ℤ) ∨
      strayNumbers behind = [] ∧ line.FirstPieceTaken

theorem getD_getLast?_eq_iff (numbers : List ℤ) (n d : ℤ) :
    numbers.getLast?.getD d = n ↔ numbers.getLast? = some n ∨ numbers = [] ∧ d = n := by
  cases hlast : numbers.getLast? with
  | none => simp [List.getLast?_eq_none_iff.mp hlast]
  | some m =>
    have hne : numbers ≠ [] := by
      rintro rfl
      cases hlast
    simp [hne]

theorem keepLast_lines_iff {before after : List HeaderLine} {line : HeaderLine}
    (hline : line.IsContentLength) (hnumber : line.HasNumber)
    (hbefore : ∀ line ∈ before, ¬ line.IsContentLength)
    (hafter : ∀ line ∈ after, ¬ line.IsContentLength) :
    keepLast (-1) ((linesRead ((before ++ line :: after).map HeaderLine.text)).flatMap
      (lineNumbers [])) = decimal line.value ↔ LengthTaken before line after := by
  have hstop : (∃ text ∈ before.map HeaderLine.text, text.length % 1023 = 0) ↔
      ∃ line ∈ before, line.text.length % 1023 = 0 := by
    simp
  rw [LengthTaken, keepLast_eq, List.map_append, linesRead_append]
  by_cases hearly : ∃ line ∈ before, line.text.length % 1023 = 0
  · have hnot : (-1 : ℤ) ≠ decimal line.value := by omega
    rw [if_pos (hstop.mpr hearly), if_pos hearly, flatMap_lineNumbers hbefore,
      getD_getLast?_eq_iff, or_iff_left (fun h => hnot h.2)]
  · have hall : before.map HeaderLine.text = linesRead (before.map HeaderLine.text) :=
      (linesRead_of_all (fun h => hearly (hstop.mp h))).symm
    have htail : linesRead ((line :: after).map HeaderLine.text) = line.text ::
        linesRead ((if line.text.length % 1023 = 0 then [] else after).map HeaderLine.text) := by
      rw [List.map_cons, linesRead]
      split_ifs
      · rfl
      · rfl
    have hbehind : ∀ line' ∈ (if line.text.length % 1023 = 0 then [] else after),
        ¬ line'.IsContentLength := by
      split_ifs
      · exact List.forall_mem_nil _
      · exact hafter
    rw [if_neg (fun h => hearly (hstop.mp h)), if_neg hearly, htail, List.flatMap_append,
      List.flatMap_cons, List.reduceOption_append, List.reduceOption_append,
      HeaderLine.lineNumbers_contentLength hline hnumber, flatMap_lineNumbers hbehind]
    dsimp only
    rw [← HeaderLine.firstNumber_eq_iff hline hnumber, ← getD_getLast?_eq_iff]
    simp [List.getLast?_append, List.getLast?_cons]

theorem content_length_iff {before after : List HeaderLine} {line : HeaderLine}
    (hline : line.IsContentLength) (hnumber : line.HasNumber)
    (hbefore : ∀ line ∈ before, ¬ line.IsContentLength)
    (hafter : ∀ line ∈ after, ¬ line.IsContentLength) (rest : Stream) (buf : CharBuf) :
    (∃ fd' buf', postHeaders
      (sent (headerText ((before ++ line :: after).map HeaderLine.text)) ++ rest) buf =
        some (fd', buf', (decimal line.value : ℤ))) ↔ LengthTaken before line after := by
  have hcr : ∀ text ∈ (before ++ line :: after).map HeaderLine.text, cr ∉ text :=
    List.forall_mem_map.mpr fun line _ => line.cr_notMem_text
  have hlf : ∀ text ∈ (before ++ line :: after).map HeaderLine.text, lf ∉ text :=
    List.forall_mem_map.mpr fun line _ => line.lf_notMem_text
  have hlen : ∀ text ∈ (before ++ line :: after).map HeaderLine.text,
      Headed text → text.length ≠ 15 := by
    intro text htext hhead
    obtain ⟨other, hother, rfl⟩ := List.mem_map.mp htext
    have hcontent := HeaderLine.headed_text_iff.mp hhead
    rcases List.mem_append.mp hother with hmem | hmem
    · exact absurd hcontent (hbefore other hmem)
    · rcases List.mem_cons.mp hmem with rfl | hmem
      · have hpos := List.length_pos_iff.mpr hnumber.ne_nil
        rw [HeaderLine.text, List.length_append, hcontent.length_eq, List.length_append]
        omega
      · exact absurd hcontent (hafter other hmem)
  obtain ⟨fd', buf', hdrain⟩ := postHeader_lines hcr hlf hlen rest buf (-1)
  rw [← keepLast_lines_iff hline hnumber hbefore hafter, postHeaders, hdrain]
  constructor
  · rintro ⟨fd'', buf'', heq⟩
    exact congrArg (fun answer => answer.2.2) (Option.some.inj heq)
  · intro heq
    exact ⟨fd', buf', by rw [heq]⟩

theorem content_length_iff_one_blank :
    let line : HeaderLine := ⟨"Content-Length".toList.map chr, " ".toList.map chr,
      "5".toList.map chr, by decide, List.all_eq_true.mp (by decide), by decide, by decide⟩
    line.IsContentLength ∧ line.HasNumber ∧
      ((∃ fd' buf', postHeaders
        (sent (headerText (([] ++ line :: []).map HeaderLine.text)) ++ []) (fun _ => 0) =
          some (fd', buf', (decimal line.value : ℤ))) ↔ LengthTaken [] line []) := by
  intro line
  have hline : line.IsContentLength := by
    rw [HeaderLine.IsContentLength]
    decide
  have hnumber : line.HasNumber :=
    ⟨List.cons_ne_nil _ _, List.all_eq_true.mp (by decide), by decide⟩
  exact ⟨hline, hnumber, content_length_iff hline hnumber (List.forall_mem_nil _)
    (List.forall_mem_nil _) [] (fun _ => 0)⟩

theorem number_behind_the_colon_is_cut :
    let line : HeaderLine := ⟨"Content-Length".toList.map chr, [], "5".toList.map chr, by decide,
      List.forall_mem_nil _, by decide, by decide⟩
    line.IsContentLength ∧ line.HasNumber ∧ decimal line.value = 5 ∧
      ¬ ∃ fd' buf', postHeaders (sent (headerText [line.text])) (fun _ => 0) =
        some (fd', buf', 5) := by
  intro line
  have hline : line.IsContentLength := by
    rw [HeaderLine.IsContentLength]
    decide
  have hnumber : line.HasNumber :=
    ⟨List.cons_ne_nil _ _, List.all_eq_true.mp (by decide), by decide⟩
  have hzero : (postHeaders (sent (headerText ["Content-Length:5".toList.map chr]))
      (fun _ => 0)).map (fun answer => answer.2.2) = some 0 := rfl
  refine ⟨hline, hnumber, by decide, ?_⟩
  rintro ⟨fd', buf', h⟩
  have htext : line.text = "Content-Length:5".toList.map chr := by decide
  rw [← htext, h] at hzero
  have hfive : (5 : ℤ) = 0 := Option.some.inj hzero
  exact absurd hfive (by decide)

end Sginx.Mini
