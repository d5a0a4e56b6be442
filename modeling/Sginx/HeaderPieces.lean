import Mathlib.Data.List.ReduceOption
import Sginx.HeaderDrain
import Sginx.RequestCgi

namespace Sginx.Mini

open Sginx.Http (Byte cr lf chr)
open Sginx.Library.CString
open Sginx.Library.Decimal

/-- The pieces of a line. The last one is empty where the others fill it. -/
def pieces (text : List Byte) : List (List Byte) :=
  (List.range (text.length / 1023 + 1)).map fun j => (text.drop (1023 * j)).take 1023

theorem pieces_of_lt {text : List Byte} (h : text.length < 1023) : pieces text = [text] := by
  rw [pieces, Nat.div_eq_of_lt h, List.range_one, List.map_singleton, Nat.mul_zero, List.drop_zero,
    List.take_of_length_le h.le]

theorem pieces_of_le {text : List Byte} (h : 1023 ≤ text.length) :
    pieces text = text.take 1023 :: pieces (text.drop 1023) := by
  have hdiv : text.length / 1023 = (text.drop 1023).length / 1023 + 1 := by
    rw [List.length_drop]
    omega
  rw [pieces, pieces, hdiv, List.range_succ_eq_map, List.map_cons, List.map_map]
  congr 1
  apply List.map_congr_left
  intro j _
  rw [List.drop_drop, Function.comp_apply]
  congr 2
  omega

theorem pieces_eq (text : List Byte) : ∃ later, pieces text = text.take 1023 :: later := by
  rcases Nat.lt_or_ge text.length 1023 with hlt | hge
  · exact ⟨[], by rw [pieces_of_lt hlt, List.take_of_length_le hlt.le]⟩
  · exact ⟨_, pieces_of_le hge⟩

def Headed (piece : List Byte) : Prop :=
  (piece.take 15).map tolower = contentLength.map tolower

instance (piece : List Byte) : Decidable (Headed piece) :=
  inferInstanceAs (Decidable (_ = _))

theorem Headed.length_le {piece : List Byte} (h : Headed piece) : 15 ≤ piece.length := by
  have hlen := congrArg List.length h
  rw [List.length_map, List.length_take, List.length_map] at hlen
  have hfifteen : contentLength.length = 15 := by decide
  omega

def pieceNumber (before piece : List Byte) : Option ℤ :=
  if Headed piece then
    some (atoi (if piece.length = 15 then before.drop 16 else piece.drop 16))
  else none

def strays (text : List Byte) : List (Option ℤ) :=
  List.zipWith pieceNumber (pieces text) (pieces text).tail

def keepLast (contlen : ℤ) (numbers : List (Option ℤ)) : ℤ :=
  numbers.foldl (fun contlen number => number.getD contlen) contlen

theorem keepLast_eq (contlen : ℤ) (numbers : List (Option ℤ)) :
    keepLast contlen numbers = numbers.reduceOption.getLast?.getD contlen := by
  induction numbers generalizing contlen with
  | nil => rfl
  | cons number numbers ih =>
    rw [keepLast, List.foldl_cons, ← keepLast, ih]
    cases number with
    | none => rw [List.reduceOption_cons_of_none, Option.getD_none]
    | some n =>
      rw [List.reduceOption_cons_of_some, Option.getD_some, List.getLast?_cons, Option.getD_some]

theorem strcasecmp_contentLength {buf : CharBuf} (hnul : buf 15 = 0) :
    strcasecmp buf contentLength = 0 ↔
      (cells buf 0 15).map tolower = contentLength.map tolower := by
  have hlen : contentLength.length = 15 := by decide
  have hcell : ∀ i < 15, ((cells buf 0 15).map tolower)[i]? = some (tolower (buf i)) := by
    intro i hi
    simp [cells, hi]
  have hname : ∀ i < 15, (contentLength.map tolower)[i]? =
      some (tolower (literal contentLength i)) := by
    intro i hi
    rw [List.getElem?_map, literal, List.getElem?_eq_getElem (by omega)]
    rfl
  rw [strcasecmp_eq_zero_iff (by decide), hlen]
  constructor
  · intro h
    apply List.ext_getElem?
    intro i
    by_cases hi : i < 15
    · rw [hcell i hi, hname i hi, h i (by omega) (by omega)]
    · rw [List.getElem?_eq_none, List.getElem?_eq_none]
      · rw [List.length_map, hlen]
        omega
      · simp only [cells, List.length_map, List.length_range']
        omega
  · intro h i hlt hle
    by_cases hi : i < 15
    · have hat := hcell i hi
      rw [h, hname i hi] at hat
      exact (Option.some.inj hat).symm
    · obtain rfl : i = 15 := by omega
      rw [hnul]
      rfl

def pieceCut (piece : List Byte) (buf : CharBuf) : CharBuf :=
  Function.update (pieceRead piece buf) 15 0

theorem pieceCut_at {piece : List Byte} {buf : CharBuf} {j : ℕ} (h : j ≠ 15) :
    pieceCut piece buf j = pieceRead piece buf j := Function.update_of_ne h _ _

theorem strcasecmp_pieceCut (piece : List Byte) (buf : CharBuf) :
    strcasecmp (pieceCut piece buf) contentLength = 0 ↔ Headed piece := by
  have hnul : pieceCut piece buf 15 = 0 := Function.update_self _ _ _
  rw [strcasecmp_contentLength hnul, Headed]
  have hread : cells (pieceCut piece buf) 0 15 = cells (pieceRead piece buf) 0 15 :=
    cells_congr fun j _ hj => pieceCut_at (by omega)
  rw [hread]
  by_cases hlong : 15 ≤ piece.length
  · rw [cells_pieceRead buf (by omega), List.drop_zero]
  · refine iff_of_false ?_ (fun h => hlong (Headed.length_le h))
    -- the `NUL` behind a shorter piece is no byte of the name
    intro h
    have hlen : contentLength.length = 15 := by decide
    have hcell : ((cells (pieceRead piece buf) 0 15).map tolower)[piece.length]? =
        some (tolower 0) := by
      rw [← pieceRead_nul piece buf]
      simp [cells, Nat.lt_of_not_le hlong]
    rw [h, List.getElem?_map, List.getElem?_eq_getElem (by omega), Option.map_some] at hcell
    have hzero := tolower_zero _ (Option.some.inj hcell)
    have hmem : contentLength[piece.length] ∈ contentLength := List.getElem_mem _
    rw [hzero] at hmem
    exact absurd hmem (by decide)

def Holds (buf : CharBuf) (piece : List Byte) : Prop :=
  ∃ later, cells buf 16 1008 = piece.drop 16 ++ 0 :: later

theorem Holds.atoi_eq {buf : CharBuf} {piece : List Byte} (h : Holds buf piece) :
    atoi (cells buf 16 1008) = atoi (piece.drop 16) := by
  obtain ⟨later, hcells⟩ := h
  rw [hcells, atoi_nul]

theorem pieceCut_holds {piece : List Byte} (buf : CharBuf) (hlo : 16 ≤ piece.length)
    (hhi : piece.length ≤ 1023) : Holds (pieceCut piece buf) piece := by
  have hread : cells (pieceCut piece buf) 16 1008 = cells (pieceRead piece buf) 16 1008 :=
    cells_congr fun j hj _ => pieceCut_at (by omega)
  have hsplit : 1008 = (piece.length - 16) + (1 + (1023 - piece.length)) := by omega
  have hnul : cells (pieceRead piece buf) piece.length 1 = [0] :=
    congrArg (fun c => [c]) (pieceRead_nul piece buf)
  have hend : 16 + (piece.length - 16) = piece.length := by omega
  refine ⟨cells (pieceRead piece buf) (piece.length + 1) (1023 - piece.length), ?_⟩
  rw [hread, hsplit, ← cells_append, hend, ← cells_append, hnul, cells_pieceRead buf (by omega),
    List.take_of_length_le (List.length_drop.le)]
  rfl

theorem pieceCut_keeps {piece : List Byte} {buf : CharBuf} (h : piece.length = 15)
    {before : List Byte} (hbefore : Holds buf before) : Holds (pieceCut piece buf) before := by
  have hread : cells (pieceCut piece buf) 16 1008 = cells buf 16 1008 := by
    apply cells_congr
    intro j hj _
    rw [pieceCut_at (by omega), pieceRead_above buf (by omega)]
  rw [Holds, hread]
  exact hbefore

theorem postHeader_piece {piece : List Byte} {buf : CharBuf} {before : List Byte}
    (hlen : piece.length ≤ 1023)
    (hbefore : Headed piece → piece.length = 15 → Holds buf before) (contlen : ℤ) :
    postHeader (pieceRead piece buf) contlen =
      (pieceCut piece buf, (pieceNumber before piece).getD contlen) := by
  have hif : postHeader (pieceRead piece buf) contlen =
      if strcasecmp (pieceCut piece buf) contentLength = 0 then
        (pieceCut piece buf, atoi (cells (pieceCut piece buf) 16 1008))
      else (pieceCut piece buf, contlen) := rfl
  rw [hif, pieceNumber]
  by_cases hheaded : Headed piece
  · rw [if_pos ((strcasecmp_pieceCut piece buf).mpr hheaded), if_pos hheaded, Option.getD_some]
    have hlo := hheaded.length_le
    split_ifs with hfifteen
    · rw [(pieceCut_keeps hfifteen (hbefore hheaded hfifteen)).atoi_eq]
    · rw [(pieceCut_holds buf (by omega) hlen).atoi_eq]
  · rw [if_neg (fun h => hheaded ((strcasecmp_pieceCut piece buf).mp h)), if_neg hheaded,
      Option.getD_none]

def lineNumbers (before text : List Byte) : List (Option ℤ) :=
  List.zipWith pieceNumber (before :: pieces text) (pieces text)

theorem lineNumbers_eq (text : List Byte) :
    lineNumbers [] text = pieceNumber [] (text.take 1023) :: strays text := by
  obtain ⟨later, hpieces⟩ := pieces_eq text
  rw [lineNumbers, strays, hpieces]
  rfl

theorem lineNumbers_of_le (before : List Byte) {text : List Byte} (h : 1023 ≤ text.length) :
    lineNumbers before text = pieceNumber before (text.take 1023) ::
      lineNumbers (text.take 1023) (text.drop 1023) := by
  rw [lineNumbers, pieces_of_le h]
  rfl

theorem lineNumbers_of_lt (before : List Byte) {text : List Byte} (h : text.length < 1023) :
    lineNumbers before text = [pieceNumber before text] := by
  rw [lineNumbers, pieces_of_lt h]
  rfl

theorem keepLast_cons (contlen : ℤ) (number : Option ℤ) (numbers : List (Option ℤ)) :
    keepLast contlen (number :: numbers) = keepLast (number.getD contlen) numbers := rfl

theorem keepLast_append (contlen : ℤ) (xs ys : List (Option ℤ)) :
    keepLast contlen (xs ++ ys) = keepLast (keepLast contlen xs) ys := List.foldl_append

theorem pieceNumber_nil (before : List Byte) : pieceNumber before [] = none :=
  if_neg (fun h => absurd h.length_le (by decide))

theorem postHeader_long {cs : List Byte} (hcr : cr ∉ cs) (hlf : lf ∉ cs) (hlen : 1023 ≤ cs.length)
    (before : List Byte) (fd : Stream) (buf : CharBuf) (contlen : ℤ) :
    drain postHeader (sent cs ++ fd) buf contlen =
      drain postHeader (sent (cs.drop 1023) ++ fd) (pieceCut (cs.take 1023) buf)
        ((pieceNumber before (cs.take 1023)).getD contlen) := by
  have htake : (cs.take 1023).length = 1023 := by
    rw [List.length_take]
    omega
  have hbefore : Headed (cs.take 1023) → (cs.take 1023).length = 15 → Holds buf before := by
    intro _ h
    omega
  rw [drain_piece postHeader hcr hlf hlen, postHeader_piece htake.le hbefore]

theorem postHeader_short {cs : List Byte} (hne : cs ≠ []) (hcr : cr ∉ cs) (hlf : lf ∉ cs)
    (hlen : cs.length < 1023) {before : List Byte} {buf : CharBuf}
    (hbefore : Headed cs → cs.length = 15 → Holds buf before) (fd : Stream) (contlen : ℤ) :
    drain postHeader (sent cs ++ (sent crlf ++ fd)) buf contlen =
      drain postHeader fd (pieceCut cs buf) ((pieceNumber before cs).getD contlen) := by
  rw [drain_short postHeader hne hcr hlf hlen, postHeader_piece hlen.le hbefore]

theorem postHeader_line {cs : List Byte} (hcr : cr ∉ cs) (hlf : lf ∉ cs) {before : List Byte}
    {buf : CharBuf} (hbefore : Headed cs → cs.length = 15 → Holds buf before) (fd : Stream)
    (contlen : ℤ) : ∃ buf', drain postHeader (sent cs ++ (sent crlf ++ fd)) buf contlen =
      if cs.length % 1023 = 0 then some (fd, buf', keepLast contlen (lineNumbers before cs))
      else drain postHeader fd buf' (keepLast contlen (lineNumbers before cs)) := by
  induction hn : cs.length using Nat.strong_induction_on generalizing cs before buf contlen with
  | _ n ih =>
    subst hn
    by_cases hlong : 1023 ≤ cs.length
    · have htake : (cs.take 1023).length = 1023 := by
        rw [List.length_take]
        omega
      have hmod : (cs.drop 1023).length % 1023 = cs.length % 1023 := by
        rw [List.length_drop]
        omega
      have hholds := pieceCut_holds buf (by omega) htake.le
      rw [postHeader_long hcr hlf hlong before, lineNumbers_of_le before hlong, keepLast_cons,
        ← hmod]
      apply ih
      · rw [List.length_drop]
        omega
      · exact fun h => hcr (List.mem_of_mem_drop h)
      · exact fun h => hlf (List.mem_of_mem_drop h)
      · exact fun _ _ => hholds
      · rfl
    · by_cases hne : cs = []
      · subst hne
        obtain ⟨buf', h'⟩ := drain_empty postHeader fd buf contlen
        refine ⟨buf', h'.trans ?_⟩
        rw [lineNumbers_of_lt before (by decide), pieceNumber_nil]
        rfl
      · have hpos := List.length_pos_iff.mpr hne
        have hmod : cs.length % 1023 ≠ 0 := by omega
        refine ⟨pieceCut cs buf, ?_⟩
        rw [if_neg hmod, lineNumbers_of_lt before (by omega), keepLast_cons]
        exact postHeader_short hne hcr hlf (by omega) hbefore fd contlen

def linesRead : List (List Byte) → List (List Byte)
  | [] => []
  | line :: lines => if line.length % 1023 = 0 then [line] else line :: linesRead lines

theorem postHeader_lines {lines : List (List Byte)} (hcr : ∀ line ∈ lines, cr ∉ line)
    (hlf : ∀ line ∈ lines, lf ∉ line) (hlen : ∀ line ∈ lines, Headed line → line.length ≠ 15)
    (rest : Stream) (buf : CharBuf) (contlen : ℤ) :
    ∃ fd' buf', drain postHeader (sent (headerText lines) ++ rest) buf contlen =
      some (fd', buf', keepLast contlen ((linesRead lines).flatMap (lineNumbers []))) := by
  induction lines generalizing buf contlen with
  | nil =>
    obtain ⟨buf', h'⟩ := drain_empty postHeader rest buf contlen
    exact ⟨rest, buf', h'⟩
  | cons line lines ih =>
    rw [List.forall_mem_cons] at hcr hlf hlen
    have htext : sent (headerText (line :: lines)) ++ rest =
        sent line ++ (sent crlf ++ (sent (headerText lines) ++ rest)) := by
      simp [headerText, sent]
    have hbefore : Headed line → line.length = 15 → Holds buf [] := by
      intro hheaded heq
      exact absurd heq (hlen.1 hheaded)
    obtain ⟨buf', h'⟩ :=
      postHeader_line hcr.1 hlf.1 hbefore (sent (headerText lines) ++ rest) contlen
    rw [htext, h', linesRead]
    split_ifs with hmod
    · exact ⟨_, buf', by rw [List.flatMap_singleton]⟩
    · rw [List.flatMap_cons, keepLast_append]
      exact ih hcr.2 hlf.2 hlen.2 buf' _

end Sginx.Mini
