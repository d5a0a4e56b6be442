import Sginx.ServedPath

namespace Sginx.Mini

open Sginx.Http (Byte cr lf chr)
open Sginx.Library.CString (strcasecmp)
open Sginx.Library.DotPath

def typeWord (line : List Byte) : List Byte := (methodWord line).takeWhile (· ≠ 0)

/-- A `POST` leaves `sgx_query` without a value. -/
def queryText (line : List Byte) : Option (List Byte) :=
  if Named line post then none else some ((pathWord line).drop ((target line).length + 1))

def AsksProgram (line : List Byte) : Prop := Named line post ∨ chr '?' ∈ pathWord line

instance (line : List Byte) : Decidable (AsksProgram line) :=
  inferInstanceAs (Decidable (_ ∨ _))

instance (line : List Byte) : Decidable (Accepted line) := inferInstanceAs (Decidable (_ ∨ _))

def dispatch (stat : List Byte → Option ℕ) (line : List Byte) : List AcceptEvent :=
  if ¬ Accepted line then [.rsp501, .close]
  else
    let name := dot :: target line
    match stat name with
    | none => [.stat name, .rsp404, .close]
    | some mode =>
      if AsksProgram line ∨ executable mode then
        [.stat name, .requestCgi name (typeWord line) (queryText line), .close]
      else [.stat name, .sendFile name, .close]

theorem queryLoop_mark_iff {room : ℕ} {path : CharBuf} {i : ℕ}
    (h : (cString path i room).length < room) :
    path (queryLoop room path i) = chr '?' ↔ chr '?' ∈ cString path i room := by
  induction room generalizing i with
  | zero => exact absurd h (Nat.not_lt_zero _)
  | succ room ih =>
    rw [cString_succ] at h ⊢
    rw [queryLoop]
    by_cases h0 : path i = 0
    · simp only [h0, ne_eq, not_true, false_and, if_false, List.not_mem_nil, iff_false]
      decide
    · rw [if_pos h0] at h ⊢
      by_cases hmark : path i = chr '?'
      · simp [hmark]
      · rw [if_pos ⟨h0, hmark⟩, List.mem_cons, or_iff_right (Ne.symm hmark)]
        apply ih
        exact Nat.lt_of_succ_lt_succ h

theorem cString_drop (buf : CharBuf) {i room k : ℕ} (h : k ≤ (cString buf i room).length) :
    cString buf (i + k) (room - k) = (cString buf i room).drop k := by
  induction k generalizing i room with
  | zero => simp
  | succ k ih =>
    cases room with
    | zero => exact absurd h (Nat.not_succ_le_zero k)
    | succ room =>
      rw [cString_succ] at h ⊢
      by_cases h0 : buf i ≠ 0
      · rw [if_pos h0] at h ⊢
        have hrest := ih (Nat.le_of_succ_le_succ h)
        rw [List.drop_succ_cons, ← hrest, Nat.succ_sub_succ]
        congr 1
        omega
      · rw [if_neg h0] at h
        exact absurd h (Nat.not_succ_le_zero k)

section cut

variable {piece : List Byte} (path : CharBuf) (iscgi : ℤ)

theorem cutQuery_iscgi (h : piece.length < 512) : (cutQuery (pieceRead piece path) iscgi).2.1 =
    if chr '?' ∈ piece.takeWhile (· ≠ 0) then 0 else iscgi := by
  have htext := cString_pieceRead path h
  have hmark := @queryLoop_mark_iff 512 (pieceRead piece path) 0
  rw [htext] at hmark
  replace hmark := hmark ((List.takeWhile_prefix _).length_le.trans_lt h)
  rw [cutQuery]
  by_cases hcgi : iscgi ≠ 0
  · rw [if_pos hcgi]
    by_cases hin : chr '?' ∈ piece.takeWhile (· ≠ 0)
    · simp only [hmark.mpr hin, hin, if_true]
    · simp only [mt hmark.mp hin, hin, if_false]
  · rw [if_neg hcgi, not_not.mp hcgi, ite_self]

theorem cutQuery_query (h : piece.length < 512) : (cutQuery (pieceRead piece path) iscgi).2.2 =
    if iscgi ≠ 0 then
      some ((piece.takeWhile (· ≠ 0)).drop
        (((piece.takeWhile (· ≠ 0)).takeWhile (· ≠ chr '?')).length + 1))
    else none := by
  have htext := cString_pieceRead path h
  have hmark := @queryLoop_mark_iff 512 (pieceRead piece path) 0
  have hdrop {k : ℕ} := @cString_drop (pieceRead piece path) 0 512 k
  have hquery := queryLoop_eq 512 (pieceRead piece path) 0
  rw [htext] at hmark hdrop hquery
  rw [Nat.zero_add] at hquery
  replace hmark := hmark ((List.takeWhile_prefix _).length_le.trans_lt h)
  generalize piece.takeWhile (· ≠ 0) = text at hmark hdrop hquery ⊢
  have hle : (text.takeWhile (· ≠ chr '?')).length ≤ text.length :=
    (List.takeWhile_prefix _).length_le
  rw [cutQuery]
  by_cases hcgi : iscgi ≠ 0
  swap
  · rw [if_neg hcgi, if_neg hcgi]
  rw [if_pos hcgi, if_pos hcgi]
  by_cases hin : chr '?' ∈ text
  · simp only [hmark.mpr hin, if_true, Option.some.injEq]
    rw [hquery]
    have hlt : (text.takeWhile (· ≠ chr '?')).length < text.length := by
      apply lt_of_le_of_ne hle
      intro heq
      have hall := List.takeWhile_eq_self_iff.mp ((List.takeWhile_prefix _).eq_of_length heq)
      exact absurd (hall _ hin) (by decide)
    have hsame := hdrop (Nat.succ_le_of_lt hlt)
    rw [Nat.zero_add] at hsame
    rw [← hsame, cString, cString, Nat.succ_eq_add_one,
      show 512 - ((text.takeWhile (· ≠ chr '?')).length + 1) =
        511 - (text.takeWhile (· ≠ chr '?')).length by omega]
    congr 1
    apply cells_congr
    intro j hj _
    exact Function.update_of_ne (by omega) _ _
  · simp only [mt hmark.mp hin, if_false, Option.some.injEq]
    rw [hquery, List.takeWhile_eq_self_iff.mpr fun c hc => by
      simpa using fun (h : c = chr '?') => hin (h ▸ hc)]
    have hsame := hdrop (le_refl text.length)
    rw [Nat.zero_add] at hsame
    rw [hsame, List.drop_length, List.drop_eq_nil_of_le (Nat.le_succ _)]

end cut

theorem pathText_in_line {line : List Byte} (hlen : line.length ≤ 1023) (buf : CharBuf)
    (h : 31 ≤ line.length ∨ ∃ c ∈ line, shIsspace c = true) :
    (chr '.' :: pathText (pieceRead line buf)).takeWhile (· ≠ 0) = chr '.' :: pathWord line := by
  obtain ⟨-, -, hrt, hdrop⟩ := extracted_in_line hlen buf h
  have htext := scanned_text buf 510 hrt
  rw [hdrop] at htext
  rw [List.takeWhile_cons_of_pos (by decide), pathText, htext]
  rfl

theorem asksProgram_iff {line : List Byte} {iscgi : ℤ} (hpost : iscgi = 0 ↔ Named line post) :
    (if chr '?' ∈ chr '.' :: pathWord line then 0 else iscgi) = 0 ↔ AsksProgram line := by
  have hdot : chr '?' ≠ chr '.' := by decide
  rw [AsksProgram, ← hpost]
  split_ifs with hmark
  · exact iff_of_true rfl (.inr ((List.mem_cons.mp hmark).resolve_left hdot))
  · exact (or_iff_left fun h => hmark (List.mem_cons_of_mem _ h)).symm

theorem queryText_eq {line : List Byte} {iscgi : ℤ} (hpost : iscgi = 0 ↔ Named line post) :
    (if iscgi ≠ 0 then
      some ((chr '.' :: pathWord line).drop
        (((chr '.' :: pathWord line).takeWhile (· ≠ chr '?')).length + 1))
    else none) = queryText line := by
  rw [queryText, target]
  by_cases hnamed : Named line post
  · rw [if_neg (not_not.mpr (hpost.mpr hnamed)), if_pos hnamed]
  · rw [if_pos (fun h0 => hnamed (hpost.mp h0)), if_neg hnamed, if_neg hnamed,
      List.takeWhile_cons_of_pos (by decide), List.length_cons, List.drop_succ_cons]

theorem accept_line (stat : List Byte → Option ℕ) {line : List Byte} (hlen : line.length ≤ 1023)
    {fd after : Stream} {buf : CharBuf}
    (hline : sgxGetFdLine fd buf intBuf = (line.length, pieceRead line buf, after))
    (type path : CharBuf)
    (h : Accepted line → 31 ≤ line.length ∨ ∃ c ∈ line, shIsspace c = true) :
    sgxRequestAccept stat fd buf type path = some (dispatch stat line) := by
  by_cases haccepted : Accepted line
  swap
  · rw [dispatch, if_pos haccepted,
      accept_refuses stat hline (.inr ((isRefused_iff _ buf type).mpr haccepted))]
  replace h := h haccepted
  have hne : line.length ≠ 0 := by
    intro h0
    rw [List.length_eq_zero_iff.mp h0] at h
    simp at h
  obtain ⟨hshort, hblanks, -, -⟩ := extracted_in_line hlen buf h
  have htaken := congrArg Prod.snd (extractRequest_taken (pieceRead line buf) type path
    (fun hrefused => (isRefused_iff _ _ _).mp hrefused haccepted) hblanks)
  have hserved := cutQuery_served line buf type path
  rw [servedText_in_line hlen buf h] at hserved
  have hpiece : (chr '.' :: pathText (pieceRead line buf)).length < 512 :=
    Nat.succ_lt_succ (((List.takeWhile_prefix _).length_le.trans_eq (length_cells _ _ _)).trans_lt
      (by decide))
  have hiscgi := cutQuery_iscgi path
    (strcasecmp (pieceRead (typeText (pieceRead line buf)) type) post) hpiece
  have hquery := cutQuery_query path
    (strcasecmp (pieceRead (typeText (pieceRead line buf)) type) post) hpiece
  have hpost := type_is_iff line buf type (show 0 ∉ post by decide)
  have htype : cString (pieceRead (typeText (pieceRead line buf)) type) 0 32 =
      typeWord line := by
    rw [cString_pieceRead type (Nat.lt_succ_of_le hshort), typeText, scanned_methodWord buf h]
    rfl
  rw [← typeText] at hpost
  rw [pathText_in_line hlen buf h] at hiscgi hquery
  generalize strcasecmp (pieceRead (typeText (pieceRead line buf)) type) post = iscgi at *
  rcases hcut : cutQuery (pieceRead (chr '.' :: pathText (pieceRead line buf)) path) iscgi
    with ⟨cut, cgi, query⟩
  rw [hcut] at hserved hiscgi hquery
  dsimp only at hserved hiscgi hquery
  rw [sgxRequestAccept, hline]
  dsimp only
  rw [if_neg hne, htaken]
  dsimp only
  rw [hcut]
  dsimp only
  rw [hserved, dispatch, if_neg (not_not.mpr haccepted)]
  dsimp only
  cases stat (dot :: target line) with
  | none =>
    obtain ⟨skipped, hskip⟩ := Option.isSome_iff_exists.mp
      (drain_returns (fun buf s => (buf, s)) after (pieceRead line buf) ())
    exact congrArg (Option.map _) hskip
  | some mode =>
    rw [queryText_eq hpost] at hquery
    have hasks := asksProgram_iff hpost
    rw [← hiscgi] at hasks
    dsimp only
    rw [htype, hquery]
    by_cases hexec : executable mode
    · simp [hexec]
    · by_cases hcgi : cgi = 0
      · simp [hexec, hcgi, hasks.mp hcgi]
      · simp [hexec, hcgi, mt hasks.mpr hcgi]

theorem accept_dispatches (stat : List Byte → Option ℕ) (fd : Stream) (buf type path : CharBuf)
    (h : Accepted (received fd) →
      31 ≤ (received fd).length ∨ ∃ c ∈ received fd, shIsspace c = true) :
    sgxRequestAccept stat fd buf type path = some (dispatch stat (received fd)) := by
  obtain ⟨hlen, after, hline⟩ := getFdLine_received fd
  exact accept_line stat hlen (hline buf) type path h

def getWithQuery : Stream := sent ("get /a?b=c HTTP/1.1".toList.map chr ++ [cr, lf])

theorem accept_dispatches_query :
    sgxRequestAccept (fun _ => some 420) getWithQuery (fun _ => 0) (fun _ => 0) (fun _ => 0) =
      some (dispatch (fun _ => some 420) (received getWithQuery)) ∧
    dispatch (fun _ => some 420) (received getWithQuery) =
      [.stat ("./a".toList.map chr),
        .requestCgi ("./a".toList.map chr) ("get".toList.map chr) (some ("b=c".toList.map chr)),
        .close] := by
  constructor
  · exact accept_dispatches (fun _ => some 420) getWithQuery (fun _ => 0) (fun _ => 0) (fun _ => 0)
      (fun _ => .inr ⟨chr ' ', by decide +kernel, by decide⟩)
  · decide +kernel

end Sginx.Mini
