import Sginx.RequestAccept

namespace Sginx.Mini

open Sginx.Http (Byte cr lf chr)
open Sginx.Library.CString

def scanned (p : Byte → Bool) (buf : CharBuf) (rt room : ℕ) : List Byte :=
  (cells buf rt room).takeWhile p

theorem scanned_succ (p : Byte → Bool) (buf : CharBuf) (rt room : ℕ) :
    scanned p buf rt (room + 1) =
      if p (buf rt) then buf rt :: scanned p buf (rt + 1) room else [] := by
  rw [scanned, cells, List.range'_succ, List.map_cons, List.takeWhile_cons]
  rfl

def isWord (c : Byte) : Bool := !shIsspace c

theorem typeLoop_eq (room : ℕ) (buf type : CharBuf) (lt rt : ℕ) :
    (typeLoop room buf type lt rt).2 =
      (store type lt (scanned isWord buf rt room), lt + (scanned isWord buf rt room).length,
        rt + (scanned isWord buf rt room).length) := by
  induction room generalizing type lt rt with
  | zero => rfl
  | succ room ih =>
    rw [typeLoop, scanned_succ, isWord]
    by_cases hc : shIsspace (buf rt) = true
    · simp [hc, store]
    · simp only [hc, Bool.false_eq_true, if_false, Bool.not_false, if_true, ih, store,
        List.length_cons, Prod.mk.injEq, true_and]
      omega

theorem pathLoop_eq_typeLoop (room : ℕ) (buf path : CharBuf) (lt rt : ℕ) :
    (pathLoop room buf path lt rt).2 = (typeLoop room buf path lt rt).2 := by
  induction room generalizing path lt rt with
  | zero => rfl
  | succ room ih =>
    rw [pathLoop, typeLoop]
    split_ifs
    · rfl
    · exact ih _ _ _

theorem shIsspace_zero : shIsspace 0 = false := by decide

theorem ne_zero_of_shIsspace {c : Byte} (h : shIsspace c = true) : c ≠ 0 := by
  rintro rfl
  rw [shIsspace_zero] at h
  cases h

theorem skipBlanks_eq (room : ℕ) (buf : CharBuf) (rt : ℕ) :
    (skipBlanks room buf rt).2 =
      if (scanned shIsspace buf rt room).length < room then
        some (rt + (scanned shIsspace buf rt room).length)
      else none := by
  induction room generalizing rt with
  | zero => rfl
  | succ room ih =>
    rw [skipBlanks, scanned_succ]
    by_cases hc : shIsspace (buf rt) = true
    · simp only [ne_zero_of_shIsspace hc, hc, ne_eq, not_false_eq_true, and_self, if_true, ih,
        List.length_cons, Nat.add_lt_add_iff_right]
      congr 2
      omega
    · simp [hc]

def Access.Within (r : ℕ) : Access → Prop
  | .buf index => index ≤ r
  | .type index => index < 32
  | .path index => index < 512

theorem Access.within_buf {index r : ℕ} : (Access.buf index).Within r ↔ index ≤ r := Iff.rfl

theorem Access.within_type {index r : ℕ} : (Access.type index).Within r ↔ index < 32 := Iff.rfl

theorem Access.within_path {index r : ℕ} : (Access.path index).Within r ↔ index < 512 := Iff.rfl

theorem typeLoop_within (room : ℕ) (buf type : CharBuf) {lt : ℕ} (rt r : ℕ) (h : lt + room < 32) :
    (∀ a ∈ (typeLoop room buf type lt rt).1, a.Within r) ↔
      rt + (scanned isWord buf rt room).length ≤ r := by
  induction room generalizing type lt rt with
  | zero => simp [typeLoop, Access.Within, scanned, cells]
  | succ room ih =>
    rw [typeLoop, scanned_succ, isWord]
    by_cases hc : shIsspace (buf rt) = true
    · simp [hc, Access.Within]
    · simp only [hc, Bool.false_eq_true, if_false, Bool.not_false, if_true]
      rw [List.forall_mem_cons, List.forall_mem_cons, ih _ (rt + 1) (by omega), Access.within_buf,
        Access.within_type, List.length_cons]
      omega

theorem pathLoop_within (room : ℕ) (buf path : CharBuf) {lt : ℕ} (rt r : ℕ)
    (h : lt + room < 512) :
    (∀ a ∈ (pathLoop room buf path lt rt).1, a.Within r) ↔
      room = 0 ∨ rt + min (scanned isWord buf rt room).length (room - 1) ≤ r := by
  induction room generalizing path lt rt with
  | zero => simp [pathLoop]
  | succ room ih =>
    rw [pathLoop, scanned_succ, isWord]
    by_cases hc : shIsspace (buf rt) = true
    · simp [hc, Access.Within]
    · simp only [hc, Bool.false_eq_true, if_false, Bool.not_false, if_true]
      rw [List.forall_mem_cons, List.forall_mem_cons, ih _ (rt + 1) (by omega), Access.within_buf,
        Access.within_path, List.length_cons]
      omega

theorem skipBlanks_within (room : ℕ) (buf : CharBuf) (rt r : ℕ) :
    (∀ a ∈ (skipBlanks room buf rt).1, a.Within r) ↔
      room = 0 ∨ rt + min (scanned shIsspace buf rt room).length (room - 1) ≤ r := by
  induction room generalizing rt with
  | zero => simp [skipBlanks]
  | succ room ih =>
    rw [skipBlanks, scanned_succ]
    by_cases hc : shIsspace (buf rt) = true
    · simp only [ne_zero_of_shIsspace hc, hc, ne_eq, not_false_eq_true, and_self, if_true]
      rw [List.forall_mem_cons, ih, Access.within_buf, List.length_cons]
      omega
    · simp [hc, Access.Within]

theorem lineBreak_stored (fd : Stream) : ∃ stored after, stored.length ≤ 1 ∧
    ∀ buf tail, lineBreak fd buf tail = (store buf tail stored, tail + stored.length, after) := by
  unfold lineBreak
  rcases hp : peek fd with ⟨next, fd'⟩
  cases next with
  | none => exact ⟨[lf], fd', le_refl 1, fun _ _ => rfl⟩
  | some c =>
    dsimp only
    split_ifs
    · exact ⟨[], (read fd').2, Nat.zero_le 1, fun _ _ => rfl⟩
    · exact ⟨[lf], fd', le_refl 1, fun _ _ => rfl⟩

theorem getFdLineLoop_stored (room : ℕ) (fd : Stream) :
    ∃ stored after, stored.length ≤ room ∧ ∀ buf tail, getFdLineLoop room fd buf tail =
      (store buf tail stored, tail + stored.length, after) := by
  induction room generalizing fd with
  | zero => exact ⟨[], fd, le_refl 0, fun _ _ => rfl⟩
  | succ room ih =>
    cases fd with
    | nil => exact ⟨[], [], Nat.zero_le _, fun _ _ => rfl⟩
    | cons answer fd =>
      cases answer with
      | none => exact ⟨[], fd, Nat.zero_le _, fun _ _ => rfl⟩
      | some c =>
        by_cases hc : c = cr
        · obtain ⟨stored, after, hlen, hbreak⟩ := lineBreak_stored fd
          refine ⟨stored, after, by omega, fun buf tail => ?_⟩
          rw [getFdLineLoop_cons, if_pos hc, hbreak]
        · obtain ⟨stored, after, hlen, hloop⟩ := ih fd
          refine ⟨c :: stored, after, Nat.succ_le_succ hlen, fun buf tail => ?_⟩
          rw [getFdLineLoop_cons, if_neg hc, hloop, List.length_cons, store, Nat.add_right_comm,
            Nat.add_assoc]

def received (fd : Stream) : List Byte :=
  cells (sgxGetFdLine fd (fun _ => 0) intBuf).2.1 0 (sgxGetFdLine fd (fun _ => 0) intBuf).1

theorem getFdLine_received (fd : Stream) : (received fd).length ≤ 1023 ∧ ∃ after, ∀ buf,
    sgxGetFdLine fd buf intBuf = ((received fd).length, pieceRead (received fd) buf, after) := by
  obtain ⟨stored, after, hlen, hloop⟩ := getFdLineLoop_stored 1023 fd
  have hline (buf : CharBuf) :
      sgxGetFdLine fd buf intBuf = (stored.length, pieceRead stored buf, after) := by
    have hroom : (intBuf - 1).toNat = 1023 := rfl
    rw [sgxGetFdLine, hroom, hloop, Nat.zero_add]
    rfl
  have hreceived : received fd = stored := by
    rw [received, hline, cells_pieceRead _ (by omega), List.drop_zero, List.take_length]
  rw [hreceived]
  exact ⟨hlen, after, hline⟩

theorem cells_line {line : List Byte} (buf : CharBuf) {rt room : ℕ} (h : rt ≤ line.length)
    (hroom : line.length < rt + room) : ∃ later,
      cells (pieceRead line buf) rt room = line.drop rt ++ 0 :: later := by
  obtain ⟨later, hcells⟩ := cells_pieceRead_nul buf hroom
  have hsplit := cells_append (pieceRead line buf) 0 rt room
  rw [Nat.zero_add, hcells] at hsplit
  refine ⟨later, ?_⟩
  have hdrop := congrArg (List.drop rt) hsplit
  rwa [List.drop_left' (length_cells _ _ _), List.drop_append_of_le_length h] at hdrop

theorem word_ends {text : List Byte} {c : Byte} (hc : c ∈ text) (hspace : shIsspace c = true) :
    (text.takeWhile isWord).length ≠ text.length := by
  intro heq
  have hall := (List.takeWhile_prefix isWord).eq_of_length heq
  have hword := List.takeWhile_eq_self_iff.mp hall c hc
  rw [isWord, hspace] at hword
  cases hword

theorem scanned_word_le_iff {line : List Byte} (buf : CharBuf) {rt : ℕ} (room : ℕ)
    (h : rt ≤ line.length) : rt + (scanned isWord (pieceRead line buf) rt room).length ≤ line.length ↔
      room ≤ (line.drop rt).length ∨ ∃ c ∈ line.drop rt, shIsspace c = true := by
  have hlen : (line.drop rt).length = line.length - rt := List.length_drop
  by_cases hroom : line.length < rt + room
  · obtain ⟨later, hcells⟩ := cells_line buf h hroom
    rw [scanned, hcells, List.takeWhile_append]
    have hshort : ¬ room ≤ (line.drop rt).length := by omega
    rw [or_iff_right hshort]
    constructor
    · intro hle
      by_contra hnone
      push Not at hnone
      have hall : (line.drop rt).takeWhile isWord = line.drop rt :=
        List.takeWhile_eq_self_iff.mpr fun c hc => by simp [isWord, hnone c hc]
      rw [hall, if_pos rfl, List.takeWhile_cons_of_pos (by decide), List.length_append,
        List.length_cons] at hle
      omega
    · rintro ⟨c, hc, hspace⟩
      have hne := word_ends hc hspace
      have hle := (List.takeWhile_prefix (l := line.drop rt) isWord).length_le
      rw [if_neg hne]
      omega
  · have hle : (scanned isWord (pieceRead line buf) rt room).length ≤ room :=
      (List.takeWhile_prefix _).length_le.trans_eq (length_cells _ _ _)
    exact iff_of_true (by omega) (.inl (by omega))

theorem scanned_text {line : List Byte} (buf : CharBuf) {rt : ℕ} (room : ℕ)
    (h : rt ≤ line.length) : (scanned isWord (pieceRead line buf) rt room).takeWhile (· ≠ 0) =
      (((line.drop rt).take room).takeWhile isWord).takeWhile (· ≠ 0) := by
  by_cases hroom : line.length < rt + room
  · obtain ⟨later, hcells⟩ := cells_line buf h hroom
    have hshort : (line.drop rt).length ≤ room := by
      rw [List.length_drop]
      omega
    rw [scanned, hcells, List.take_of_length_le hshort, List.takeWhile_takeWhile,
      List.takeWhile_takeWhile, takeWhile_stop (by simp)]
  · rw [scanned, cells_pieceRead buf (by omega)]

theorem scanned_blanks {line : List Byte} (buf : CharBuf) {rt room : ℕ} (h : rt ≤ line.length)
    (hroom : line.length < rt + room) :
    scanned shIsspace (pieceRead line buf) rt room = (line.drop rt).takeWhile shIsspace := by
  obtain ⟨later, hcells⟩ := cells_line buf h hroom
  rw [scanned, hcells, takeWhile_stop shIsspace_zero]

def methodWord (line : List Byte) : List Byte := (line.take 31).takeWhile isWord

def afterMethod (line : List Byte) : List Byte :=
  (line.drop (methodWord line).length).dropWhile shIsspace

def Named (line name : List Byte) : Prop :=
  ((methodWord line).takeWhile (· ≠ 0)).map tolower = name.map tolower

def Accepted (line : List Byte) : Prop := Named line post ∨ Named line get

structure LineSuffices (line : List Byte) : Prop where
  type : 31 ≤ line.length ∨ ∃ c ∈ line, shIsspace c = true
  path : Accepted line →
    509 ≤ (afterMethod line).length ∨ ∃ c ∈ afterMethod line, shIsspace c = true

theorem scanned_methodWord {line : List Byte} (buf : CharBuf)
    (h : 31 ≤ line.length ∨ ∃ c ∈ line, shIsspace c = true) :
    scanned isWord (pieceRead line buf) 0 31 = methodWord line := by
  by_cases hlong : 31 ≤ line.length
  · rw [scanned, cells_pieceRead buf (by omega), List.drop_zero]
    rfl
  · obtain ⟨c, hc, hspace⟩ := h.resolve_left hlong
    obtain ⟨later, hcells⟩ := cells_line buf (Nat.zero_le line.length) (show _ < 0 + 31 by omega)
    rw [scanned, hcells, List.drop_zero, List.takeWhile_append, if_neg (word_ends hc hspace),
      methodWord, List.take_of_length_le (by omega)]

theorem pieceRead_literal {piece : List Byte} (buf : CharBuf) {i : ℕ} (h : i ≤ piece.length) :
    pieceRead piece buf i = literal piece i := by
  rcases Nat.lt_or_eq_of_le h with hlt | rfl
  · rw [pieceRead_at buf hlt, literal, List.getElem?_eq_getElem hlt, Option.getD_some]
  · rw [pieceRead_nul, literal, List.getElem?_eq_none (le_refl _), Option.getD_none]

theorem type_is_iff (line : List Byte) (buf type : CharBuf) {name : List Byte} (hname : 0 ∉ name) :
    strcasecmp (pieceRead (scanned isWord (pieceRead line buf) 0 31) type) name = 0 ↔
      Named line name := by
  rw [strcasecmp_text (fun i hi => pieceRead_literal type hi) hname,
    scanned_text buf 31 (Nat.zero_le _)]
  rfl

section extract

variable (buf type path : CharBuf)

def typeText : List Byte := scanned isWord buf 0 31

def IsRefused : Prop :=
  strcasecmp (pieceRead (typeText buf) type) post ≠ 0 ∧
    strcasecmp (pieceRead (typeText buf) type) get ≠ 0

def blanks : List Byte :=
  scanned shIsspace buf (typeText buf).length (1024 - (typeText buf).length)

def pathText : List Byte := scanned isWord buf ((typeText buf).length + (blanks buf).length) 510

theorem typeLoop_log : ∃ log, typeLoop 31 buf type 0 0 =
    (log, store type 0 (typeText buf), (typeText buf).length, (typeText buf).length) := by
  have hloop := typeLoop_eq 31 buf type 0 0
  rw [Nat.zero_add] at hloop
  exact ⟨_, Prod.ext rfl hloop⟩

theorem typeLoop_log_subset :
    (typeLoop 31 buf type 0 0).1 ⊆ (extractRequest buf type path).1 := by
  obtain ⟨log, hloop⟩ := typeLoop_log buf type
  rw [extractRequest, hloop]
  dsimp only
  split_ifs
  · exact List.subset_append_left _ _
  · split
    · exact List.subset_append_left _ _
    · exact List.subset_append_left _ _

theorem extractRequest_refused (h : IsRefused buf type) : extractRequest buf type path =
    ((typeLoop 31 buf type 0 0).1 ++ [.type (typeText buf).length], .refused) := by
  obtain ⟨log, hloop⟩ := typeLoop_log buf type
  rw [extractRequest, hloop]
  exact if_pos h

theorem extractRequest_taken (h : ¬ IsRefused buf type)
    (hblanks : (blanks buf).length < 1024 - (typeText buf).length) :
    extractRequest buf type path =
      ((typeLoop 31 buf type 0 0).1 ++ .type (typeText buf).length ::
        ((skipBlanks (1024 - (typeText buf).length) buf (typeText buf).length).1 ++ .path 0 ::
          ((pathLoop 510 buf (Function.update path 0 (chr '.')) 1
            ((typeText buf).length + (blanks buf).length)).1 ++ [.path (1 + (pathText buf).length)])),
        .taken (pieceRead (typeText buf) type) (pieceRead (chr '.' :: pathText buf) path)
          (strcasecmp (pieceRead (typeText buf) type) post)) := by
  obtain ⟨log, hloop⟩ := typeLoop_log buf type
  have hskip := skipBlanks_eq (1024 - (typeText buf).length) buf (typeText buf).length
  have hpath := pathLoop_eq_typeLoop 510 buf (Function.update path 0 (chr '.')) 1
    ((typeText buf).length + (blanks buf).length)
  rw [← blanks, if_pos hblanks] at hskip
  rw [typeLoop_eq, ← pathText] at hpath
  rw [extractRequest, hloop]
  dsimp only
  refine (if_neg h).trans ?_
  rcases hs : skipBlanks (1024 - (typeText buf).length) buf (typeText buf).length with ⟨log₂, next⟩
  rw [hs] at hskip
  obtain rfl : next = some _ := hskip
  rcases hp : pathLoop 510 buf (Function.update path 0 (chr '.')) 1
    ((typeText buf).length + (blanks buf).length) with ⟨log₃, path', lt', rt'⟩
  rw [hp] at hpath
  obtain ⟨rfl, rfl, rfl⟩ : path' = _ ∧ lt' = _ ∧ rt' = _ := by simpa using hpath
  dsimp only
  rw [hp, Nat.add_comm 1]
  rfl

end extract

theorem isRefused_iff (line : List Byte) (buf type : CharBuf) :
    IsRefused (pieceRead line buf) type ↔ ¬ Accepted line := by
  rw [IsRefused, typeText, Accepted, not_or]
  exact and_congr (not_congr (type_is_iff line buf type (by decide)))
    (not_congr (type_is_iff line buf type (by decide)))

theorem typeText_length_iff (line : List Byte) (buf : CharBuf) :
    (typeText (pieceRead line buf)).length ≤ line.length ↔
      31 ≤ line.length ∨ ∃ c ∈ line, shIsspace c = true := by
  have h := scanned_word_le_iff buf 31 (Nat.zero_le line.length)
  rwa [Nat.zero_add, List.drop_zero] at h

theorem extracted_in_line {line : List Byte} (hlen : line.length ≤ 1023) (buf : CharBuf)
    (h : 31 ≤ line.length ∨ ∃ c ∈ line, shIsspace c = true) :
    let buf' := pieceRead line buf
    let rt := (typeText buf').length + (blanks buf').length
    (typeText buf').length ≤ 31 ∧ (blanks buf').length < 1024 - (typeText buf').length ∧
      rt ≤ line.length ∧ line.drop rt = afterMethod line := by
  intro buf' rt
  have hword : typeText buf' = methodWord line := scanned_methodWord buf h
  have hle : (typeText buf').length ≤ line.length := (typeText_length_iff line buf).mpr h
  have hmax : (typeText buf').length ≤ 31 :=
    (List.takeWhile_prefix _).length_le.trans_eq (length_cells _ _ _)
  have hblanks : blanks buf' = (line.drop (typeText buf').length).takeWhile shIsspace :=
    scanned_blanks buf hle (by omega)
  have hdrop : (line.drop (typeText buf').length).length = line.length - (typeText buf').length :=
    List.length_drop
  have hshort := (List.takeWhile_prefix (l := line.drop (typeText buf').length) shIsspace).length_le
  rw [← hblanks] at hshort
  refine ⟨hmax, by omega, by omega, ?_⟩
  have hsplit := List.takeWhile_append_dropWhile (p := shIsspace)
    (l := line.drop (typeText buf').length)
  rw [← hblanks] at hsplit
  have hrest : (line.drop (typeText buf').length).drop (blanks buf').length =
      (line.drop (typeText buf').length).dropWhile shIsspace := by
    conv_lhs => rw [← hsplit]
    exact List.drop_left
  rw [← List.drop_drop, hrest, hword]
  rfl

theorem accept_reads_the_line_iff (fd : Stream) (buf type path : CharBuf) :
    (∀ a ∈ (extractRequest (sgxGetFdLine fd buf intBuf).2.1 type path).1,
      a.Within (sgxGetFdLine fd buf intBuf).1) ↔ LineSuffices (received fd) := by
  obtain ⟨hlen, after, hline⟩ := getFdLine_received fd
  rw [hline buf]
  generalize received fd = line at hlen ⊢
  dsimp only
  have htype := typeLoop_within 31 (pieceRead line buf) type 0 line.length
    (show 0 + 31 < 32 by decide)
  rw [Nat.zero_add, ← typeText, typeText_length_iff] at htype
  by_cases h : 31 ≤ line.length ∨ ∃ c ∈ line, shIsspace c = true
  swap
  · refine iff_of_false ?_ (fun hsuffices => h hsuffices.type)
    intro hwithin
    exact h (htype.mp fun a ha => hwithin a (typeLoop_log_subset _ _ path ha))
  obtain ⟨hmax, hblanks, hrt, hdrop⟩ := extracted_in_line hlen buf h
  by_cases haccepted : Accepted line
  swap
  · rw [extractRequest_refused _ _ path ((isRefused_iff line buf type).mpr haccepted)]
    refine iff_of_true ?_ ⟨h, fun h' => absurd h' haccepted⟩
    rw [List.forall_mem_append, List.forall_mem_singleton, Access.within_type]
    exact ⟨htype.mpr h, by omega⟩
  have htaken := extractRequest_taken (pieceRead line buf) type path
    (fun hrefused => (isRefused_iff line buf type).mp hrefused haccepted) hblanks
  have hpath := scanned_word_le_iff buf 510 hrt
  rw [← pathText, hdrop] at hpath
  have hpathmax : (pathText (pieceRead line buf)).length ≤ 510 :=
    (List.takeWhile_prefix _).length_le.trans_eq (length_cells _ _ _)
  have hafter : (afterMethod line).length = line.length -
      ((typeText (pieceRead line buf)).length + (blanks (pieceRead line buf)).length) := by
    rw [← hdrop, List.length_drop]
  rw [htaken]
  dsimp only
  rw [List.forall_mem_append, List.forall_mem_cons, List.forall_mem_append, List.forall_mem_cons,
    List.forall_mem_append, List.forall_mem_singleton, htype, Access.within_type,
    Access.within_path, Access.within_path, skipBlanks_within, ← blanks,
    pathLoop_within 510 _ _ _ _ (show 1 + 510 < 512 by decide), ← pathText]
  constructor
  · rintro ⟨-, -, -, -, hreads, -⟩
    refine ⟨h, fun _ => ?_⟩
    by_cases hlong : 509 ≤ (afterMethod line).length
    · exact .inl hlong
    · refine .inr ((hpath.mp (by omega)).resolve_left (by omega))
  · intro hsuffices
    refine ⟨h, by omega, .inr (by omega), by omega, .inr ?_, by omega⟩
    rcases hsuffices.path haccepted with hlong | hspace
    · omega
    · have := hpath.mpr (.inr hspace)
      omega

def bareGet : Stream := sent ("GET".toList.map chr ++ [cr, lf])

theorem accept_reads_behind_the_line :
    let line := sgxGetFdLine bareGet (fun _ => 0) intBuf
    let log := (extractRequest line.2.1 (fun _ => 0) (fun _ => 0)).1
    line.1 = 3 ∧ .buf 4 ∈ log ∧ ¬ ∀ a ∈ log, a.Within line.1 := by
  intro line log
  have hread : .buf 4 ∈ (typeLoop 31 line.2.1 (fun _ => 0) 0 0).1 := by decide
  have hlog : .buf 4 ∈ log := typeLoop_log_subset _ _ _ hread
  refine ⟨rfl, hlog, ?_⟩
  intro hwithin
  have hle : 4 ≤ 3 := hwithin _ hlog
  exact absurd hle (by decide)

end Sginx.Mini
