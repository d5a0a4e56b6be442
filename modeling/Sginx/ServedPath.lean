import Sginx.Library.DotPath
import Sginx.RequestReads

namespace Sginx.Mini

open Sginx.Http (Byte cr lf chr)
open Sginx.Library.CString (strcasecmp)
open Sginx.Library.DotPath

def passed (events : List AcceptEvent) : List (List Byte) :=
  events.filterMap fun
    | .stat path => some path
    | .sendFile path => some path
    | .requestCgi path _ _ => some path
    | _ => none

instance (line name : List Byte) : Decidable (Named line name) :=
  inferInstanceAs (Decidable (_ = _))

def pathWord (line : List Byte) : List Byte :=
  (((afterMethod line).take 510).takeWhile isWord).takeWhile (· ≠ 0)

/-- A `POST` keeps a question mark and what is behind it. -/
def target (line : List Byte) : List Byte :=
  if Named line post then pathWord line else (pathWord line).takeWhile (· ≠ chr '?')

structure PathStays (line : List Byte) : Prop where
  inLine : 31 ≤ line.length ∨ ∃ c ∈ line, shIsspace c = true
  start : target line = [] ∨ (target line).head? = some slash
  below : NeverAbove 0 (components (target line))

theorem cString_succ (buf : CharBuf) (i room : ℕ) :
    cString buf i (room + 1) = if buf i ≠ 0 then buf i :: cString buf (i + 1) room else [] := by
  simpa [cString, scanned] using scanned_succ (· ≠ 0) buf i room

theorem queryLoop_eq (room : ℕ) (path : CharBuf) (query : ℕ) : queryLoop room path query =
    query + ((cString path query room).takeWhile (· ≠ chr '?')).length := by
  induction room generalizing query with
  | zero => rfl
  | succ room ih =>
    rw [queryLoop, cString_succ]
    by_cases h0 : path query = 0
    · simp [h0]
    · by_cases hmark : path query = chr '?'
      · simp [hmark, h0.imp hmark.trans]
      · simp only [h0, hmark, ne_eq, not_false_eq_true, and_self, if_true, ih, decide_true,
          List.takeWhile_cons_of_pos, List.length_cons]
        omega

theorem queryLoop_stops (room : ℕ) {path : CharBuf} {query : ℕ}
    (h : path (queryLoop room path query) ≠ chr '?') :
    (cString path query room).takeWhile (· ≠ chr '?') = cString path query room := by
  induction room generalizing query with
  | zero => rfl
  | succ room ih =>
    rw [queryLoop] at h
    rw [cString_succ]
    by_cases h0 : path query = 0
    · simp [h0]
    · by_cases hmark : path query = chr '?'
      · rw [if_neg (fun hgo => hgo.2 hmark)] at h
        exact absurd hmark h
      · rw [if_pos ⟨h0, hmark⟩] at h
        rw [if_pos h0, List.takeWhile_cons_of_pos (by simpa using hmark), ih h]

theorem cString_cut (buf : CharBuf) {query room : ℕ} (h : query < room) :
    cString (Function.update buf query 0) 0 room = (cString buf 0 room).take query := by
  have hbelow : cells (Function.update buf query 0) 0 query = cells buf 0 query :=
    cells_congr fun j _ hj => Function.update_of_ne (by omega) _ _
  have hsplit := cells_append (Function.update buf query 0) 0 query (room - query)
  have hrest := cells_append (Function.update buf query 0) query 1 (room - query - 1)
  have hnul : cells (Function.update buf query 0) query 1 = [0] := by
    rw [cells, List.range'_one, List.map_singleton, Function.update_self]
  rw [Nat.zero_add, Nat.add_sub_of_le h.le, hbelow] at hsplit
  rw [Nat.add_sub_of_le (by omega), hnul] at hrest
  rw [cString, ← hsplit, ← hrest, List.singleton_append, Library.CString.takeWhile_nul, cString,
    List.take_takeWhile, cells_take buf h.le]

theorem cutQuery_path {piece : List Byte} (path : CharBuf) (iscgi : ℤ) (h : piece.length < 512) :
    cString (cutQuery (pieceRead piece path) iscgi).1 0 512 =
      if iscgi ≠ 0 then (piece.takeWhile (· ≠ 0)).takeWhile (· ≠ chr '?')
      else piece.takeWhile (· ≠ 0) := by
  have htext := cString_pieceRead path h
  rw [cutQuery]
  by_cases hcgi : iscgi ≠ 0
  swap
  · rw [if_neg hcgi, if_neg hcgi, htext]
  have hpre : (piece.takeWhile (· ≠ 0)).takeWhile (· ≠ chr '?') <+: piece.takeWhile (· ≠ 0) :=
    List.takeWhile_prefix _
  have hshort : (piece.takeWhile (· ≠ 0)).length ≤ piece.length :=
    (List.takeWhile_prefix _).length_le
  have hquery : queryLoop 512 (pieceRead piece path) 0 =
      ((piece.takeWhile (· ≠ 0)).takeWhile (· ≠ chr '?')).length := by
    rw [queryLoop_eq, Nat.zero_add, htext]
  rw [if_pos hcgi, if_pos hcgi]
  by_cases hmark : pieceRead piece path (queryLoop 512 (pieceRead piece path) 0) = chr '?'
  · have hcut := cString_cut (pieceRead piece path)
      (lt_of_le_of_lt (hpre.length_le.trans hshort) h)
    rw [htext, ← hquery] at hcut
    simp only [hmark, if_true]
    rw [hcut, hquery]
    exact (List.prefix_iff_eq_take.mp hpre).symm
  · have hstops := queryLoop_stops 512 hmark
    simp only [hmark, if_false]
    rw [← hstops, htext]

theorem accept_passes (stat : List Byte → Option ℕ) {fd after : Stream} {n : ℕ}
    {buf buf' type path type' path' : CharBuf} {iscgi : ℤ}
    (hline : sgxGetFdLine fd buf intBuf = (n, buf', after)) (h0 : n ≠ 0)
    (htaken : (extractRequest buf' type path).2 = .taken type' path' iscgi) :
    ∃ events, sgxRequestAccept stat fd buf type path = some events ∧
      ∀ p, p ∈ passed events ↔ p = cString (cutQuery path' iscgi).1 0 512 := by
  rw [sgxRequestAccept, hline]
  dsimp only
  rw [if_neg h0, htaken]
  dsimp only
  rcases cutQuery path' iscgi with ⟨cut, cgi, query⟩
  dsimp only
  cases stat (cString cut 0 512) with
  | none =>
    obtain ⟨skipped, hskip⟩ := Option.isSome_iff_exists.mp
      (drain_returns (fun buf s => (buf, s)) after buf' ())
    refine ⟨[.stat (cString cut 0 512), .rsp404, .close], ?_, ?_⟩
    · exact congrArg (Option.map _) hskip
    · simp [passed]
  | some mode =>
    dsimp only
    split_ifs
    · exact ⟨_, rfl, by simp [passed]⟩
    · exact ⟨_, rfl, by simp [passed]⟩
    · exact ⟨_, rfl, by simp [passed]⟩
    · exact ⟨_, rfl, by simp [passed]⟩

theorem accept_refuses (stat : List Byte → Option ℕ) {fd after : Stream} {n : ℕ}
    {buf buf' type path : CharBuf} (hline : sgxGetFdLine fd buf intBuf = (n, buf', after))
    (h : n = 0 ∨ IsRefused buf' type) :
    sgxRequestAccept stat fd buf type path = some [.rsp501, .close] := by
  rw [sgxRequestAccept, hline]
  dsimp only
  split_ifs with h0
  · rfl
  · rw [extractRequest_refused _ _ path (h.resolve_left h0)]

def servedText (line : List Byte) (buf : CharBuf) : List Byte :=
  let text := (pathText (pieceRead line buf)).takeWhile (· ≠ 0)
  if Named line post then text else text.takeWhile (· ≠ chr '?')

theorem cutQuery_served (line : List Byte) (buf type path : CharBuf) :
    cString (cutQuery (pieceRead (chr '.' :: pathText (pieceRead line buf)) path)
      (strcasecmp (pieceRead (typeText (pieceRead line buf)) type) post)).1 0 512 =
        dot :: servedText line buf := by
  have hshort : (pathText (pieceRead line buf)).length ≤ 510 :=
    (List.takeWhile_prefix _).length_le.trans_eq (length_cells _ _ _)
  have hpost := type_is_iff line buf type (show 0 ∉ post by decide)
  rw [← typeText] at hpost
  rw [cutQuery_path path _ (by rw [List.length_cons]; omega), servedText]
  by_cases hnamed : Named line post
  · rw [if_neg (not_not.mpr (hpost.mpr hnamed)), if_pos hnamed,
      List.takeWhile_cons_of_pos (by decide)]
    rfl
  · rw [if_pos (fun h => hnamed (hpost.mp h)), if_neg hnamed,
      List.takeWhile_cons_of_pos (by decide), List.takeWhile_cons_of_pos (by decide)]
    rfl

theorem servedText_in_line {line : List Byte} (hlen : line.length ≤ 1023) (buf : CharBuf)
    (h : 31 ≤ line.length ∨ ∃ c ∈ line, shIsspace c = true) : servedText line buf = target line := by
  obtain ⟨-, -, hrt, hdrop⟩ := extracted_in_line hlen buf h
  have htext := scanned_text buf 510 hrt
  rw [hdrop] at htext
  rw [servedText, target, pathText, htext]
  rfl

theorem extracted_behind_line {line : List Byte} (hlen : line.length < 31)
    (hword : ∀ c ∈ line, shIsspace c ≠ true) :
    let buf' := pieceRead line fun _ => dot
    (blanks buf').length < 1024 - (typeText buf').length ∧
      (servedText line fun _ => dot).head? = some dot := by
  intro buf'
  have hbehind {j : ℕ} (hj : line.length < j) : buf' j = dot := pieceRead_above _ hj
  have htype : typeText buf' = cells buf' 0 31 := by
    apply List.takeWhile_eq_self_iff.mpr
    intro c hc
    obtain ⟨j, -, rfl⟩ := List.mem_map.mp hc
    rcases Nat.lt_trichotomy j line.length with hlt | rfl | hgt
    · have hat : buf' j = _ := pieceRead_at _ hlt
      rw [hat, isWord, Bool.eq_false_of_not_eq_true (hword _ (List.getElem_mem hlt))]
      rfl
    · rw [show buf' line.length = 0 from pieceRead_nul line _]
      rfl
    · rw [hbehind hgt]
      rfl
  have htypelen : (typeText buf').length = 31 := by rw [htype, length_cells]
  have hblanks : blanks buf' = [] := by
    rw [blanks, htypelen, scanned_succ, hbehind (by omega)]
    rfl
  have hpath : pathText buf' = dot :: scanned isWord buf' 32 509 := by
    rw [pathText, htypelen, hblanks, List.length_nil, scanned_succ, hbehind (by omega)]
    rfl
  refine ⟨by rw [hblanks, htypelen]; decide, ?_⟩
  rw [servedText, hpath, List.takeWhile_cons_of_pos (by decide)]
  split_ifs
  · rfl
  · rw [List.takeWhile_cons_of_pos (by decide)]
    rfl

theorem accept_serves (stat : List Byte → Option ℕ) {fd : Stream} {buf : CharBuf}
    (type path : CharBuf) (haccepted : Accepted (received fd))
    (hblanks : (blanks (pieceRead (received fd) buf)).length <
      1024 - (typeText (pieceRead (received fd) buf)).length) :
    ∃ events, sgxRequestAccept stat fd buf type path = some events ∧
      ∀ p, p ∈ passed events ↔ p = dot :: servedText (received fd) buf := by
  obtain ⟨-, after, hline⟩ := getFdLine_received fd
  have hne : (received fd).length ≠ 0 := by
    intro h0
    rw [List.length_eq_zero_iff.mp h0] at haccepted
    rcases haccepted with h | h
    · exact absurd h (by decide)
    · exact absurd h (by decide)
  have htaken := extractRequest_taken (pieceRead (received fd) buf) type path
    (fun hrefused => (isRefused_iff _ _ _).mp hrefused haccepted) hblanks
  obtain ⟨events, hevents, hpassed⟩ :=
    accept_passes stat (hline buf) hne (congrArg Prod.snd htaken)
  rw [cutQuery_served] at hpassed
  exact ⟨events, hevents, hpassed⟩

theorem served_paths_stay_iff (stat : List Byte → Option ℕ) (fd : Stream) :
    (∀ buf type path events, sgxRequestAccept stat fd buf type path = some events →
      ∀ p ∈ passed events, Confined p) ↔ (Accepted (received fd) → PathStays (received fd)) := by
  obtain ⟨hlen, after, hline⟩ := getFdLine_received fd
  constructor
  · intro hconfined haccepted
    have hends : 31 ≤ (received fd).length ∨ ∃ c ∈ received fd, shIsspace c = true := by
      by_contra h
      push Not at h
      obtain ⟨hblanks, hhead⟩ := extracted_behind_line h.1 h.2
      obtain ⟨events, hevents, hpassed⟩ :=
        accept_serves stat (fun _ => 0) (fun _ => 0) haccepted hblanks
      have hstart := ((confined_dot_iff _).mp (hconfined _ _ _ _ hevents _ ((hpassed _).mpr rfl))).1
      rcases hstart with hnil | hslash
      · rw [hnil] at hhead
        cases hhead
      · rw [hslash] at hhead
        exact absurd hhead (by decide)
    obtain ⟨-, hblanks, -, -⟩ := extracted_in_line hlen (fun _ => 0) hends
    obtain ⟨events, hevents, hpassed⟩ :=
      accept_serves stat (fun _ => 0) (fun _ => 0) haccepted hblanks
    have hpath := hconfined _ _ _ _ hevents _ ((hpassed _).mpr rfl)
    rw [servedText_in_line hlen _ hends, confined_dot_iff] at hpath
    exact ⟨hends, hpath.1, hpath.2⟩
  · intro hstays buf type path events hevents p hp
    by_cases haccepted : Accepted (received fd)
    swap
    · rw [accept_refuses stat (hline buf) (.inr ((isRefused_iff _ buf type).mpr haccepted))] at hevents
      obtain rfl := Option.some.inj hevents
      simp [passed] at hp
    obtain ⟨hends, hstart, hbelow⟩ := hstays haccepted
    obtain ⟨-, hblanks, -, -⟩ := extracted_in_line hlen buf hends
    obtain ⟨events', hevents', hpassed⟩ := accept_serves stat type path haccepted hblanks
    obtain rfl := Option.some.inj (hevents.symm.trans hevents')
    rw [(hpassed p).mp hp, servedText_in_line hlen _ hends, confined_dot_iff]
    exact ⟨hstart, hbelow⟩

def getPasswd : Stream := sent ("GET /../etc/passwd HTTP/1.1".toList.map chr ++ [cr, lf])

theorem served_path_leaves : ∃ events,
    sgxRequestAccept (fun _ => some 420) getPasswd (fun _ => 0) (fun _ => 0) (fun _ => 0) =
      some events ∧
      .sendFile ("./../etc/passwd".toList.map chr) ∈ events ∧
      ¬ ∀ p ∈ passed events, Confined p := by
  refine ⟨[.stat ("./../etc/passwd".toList.map chr), .sendFile ("./../etc/passwd".toList.map chr),
    .close], by decide, ?_, ?_⟩
  · exact List.mem_cons_of_mem _ List.mem_cons_self
  · intro hconfined
    have hpath := hconfined ("./../etc/passwd".toList.map chr) List.mem_cons_self
    exact absurd hpath.stays (by decide)

end Sginx.Mini
