import Sginx.ReadConf

namespace Sginx.Conf

open Sginx.Http (Byte chr lf)
open Sginx.Library.Stdio
open Sginx.Mini (CharBuf cString strlen pieceRead cString_pieceRead)

def ConfAccess.Within (len : ℕ) : ConfAccess → Prop
  | .window start size _ => start + size ≤ len
  | .bytes start count => start + count ≤ len

theorem next_log (size : ℕ) (s : ConfState) (line : List Byte) :
    s.log ++ [.window s.curPos size true] <+:
      (confBody size (stored (called s size true) line)).1.log := by
  refine ⟨[.bytes s.curPos (line.length + 1), .bytes s.curPos
    (strlen (stored (called s size true) line).buf s.curPos size + 1)], ?_⟩
  rw [confBody_log, stored, called, List.append_assoc, List.append_assoc, List.append_assoc]
  rfl

theorem readConfLoop_log {len pos fuel : ℕ} {fp : File} {s s' : ConfState} {result : ℤ}
    (h : readConfLoop len pos fuel fp s = some (s', result)) :
    s.log ++ [.window s.curPos (len - pos) (fgets (len - pos) fp).1.isSome] <+: s'.log := by
  induction fuel generalizing fp s with
  | zero => cases h
  | succ fuel ih =>
    rcases hread : fgets (len - pos) fp with ⟨line, fp'⟩
    cases line with
    | none =>
      rw [readConfLoop_none hread] at h
      obtain ⟨rfl, -⟩ := Prod.mk.inj (Option.some.inj h)
      exact List.prefix_rfl
    | some line =>
      rw [readConfLoop_line hread] at h
      have hlog := next_log (len - pos) s line
      dsimp only at h
      split_ifs at h
      · exact hlog.trans ((List.prefix_append _ _).trans (ih h))
      · obtain ⟨rfl, -⟩ := Prod.mk.inj (Option.some.inj h)
        exact hlog

theorem fgets_takes {len : ℕ} {fp fp' : File} {line : List Byte} (h : 2 ≤ len)
    (hread : fgets len fp = (some line, fp')) : fp'.rest.length < fp.rest.length := by
  obtain ⟨room, rfl⟩ : ∃ room, len = room + 2 := ⟨len - 2, by omega⟩
  have hrest : fp.rest ≠ [] := by
    intro hnil
    obtain ⟨rest, eof⟩ := fp
    obtain rfl : rest = [] := hnil
    rw [fgets_nil] at hread
    cases hread
  have htaken := List.length_pos_iff.mpr (mt (takeLine_eq_nil_iff room fp.rest).mp hrest)
  have hcount := congrArg List.length (takeLine_append (room + 1) fp.rest)
  rw [List.length_append] at hcount
  rw [fgets_of_ne_nil room hrest] at hread
  obtain ⟨-, rfl⟩ := Prod.mk.inj hread
  dsimp only
  omega

theorem cString_stored_nil (s : ConfState) : cString (stored s []).buf s.curPos 1 = [] := by
  simp [cString, Mini.cells, stored, Mini.store]

theorem readConfLoop_returns {len pos fuel : ℕ} {fp : File} (s : ConfState)
    (h : fp.rest.length < fuel) : ∃ s' result, readConfLoop len pos fuel fp s = some (s', result) := by
  induction fuel generalizing fp s with
  | zero => exact absurd h (Nat.not_lt_zero _)
  | succ fuel ih =>
    rcases hread : fgets (len - pos) fp with ⟨line, fp'⟩
    cases line with
    | none => exact ⟨_, _, readConfLoop_none hread⟩
    | some line =>
      rw [readConfLoop_line hread]
      dsimp only
      split_ifs with hmore
      swap
      · exact ⟨_, _, rfl⟩
      by_cases hzero : len - pos = 0
      · rw [hzero] at hread
        cases hread
      by_cases hone : len - pos = 1
      · -- a window of one byte leaves the file as it is, and holds no delimiter
        rw [hone] at hread hmore
        obtain rfl := Option.some.inj (congrArg Prod.fst hread)
        have hempty := cString_stored_nil (called s 1 true)
        rw [confBody_more] at hmore
        change sgxDelim ∈ cString _ (called s 1 true).curPos 1 at hmore
        rw [hempty] at hmore
        exact absurd hmore List.not_mem_nil
      · have := fgets_takes (by omega) hread
        exact ih _ (by omega)

def firstText (content : List Byte) (len : ℕ) : List Byte :=
  (takeLine (len - 1) content).1.takeWhile (· ≠ 0)

def behindFirst (content : List Byte) (len : ℕ) : List Byte := (takeLine (len - 1) content).2.rest

/-- Not the window of the call of `fgets` that finds no line. -/
def ConfAccess.InRound : ConfAccess → Prop
  | .window _ _ returned => returned = true
  | .bytes _ _ => True

def begun (config : SgxConf) (buff : CharBuf) : ConfState := ⟨buff, 0, config, []⟩

def firstRound (content : List Byte) (config : SgxConf) (buff : CharBuf) (len : ℕ) :
    ConfState × Bool :=
  confBody len (stored (called (begun config buff) len true) (takeLine (len - 1) content).1)

theorem firstRound_text (content : List Byte) (config : SgxConf) (buff : CharBuf) {len : ℕ}
    (h : 1 ≤ len) :
    cString (stored (called (begun config buff) len true) (takeLine (len - 1) content).1).buf 0 len =
      firstText content len := by
  have hlen := takeLine_length_le (len - 1) content
  have hbuf : (stored (called (begun config buff) len true) (takeLine (len - 1) content).1).buf =
      pieceRead (takeLine (len - 1) content).1 buff := by
    simp [stored, called, begun, pieceRead]
  rw [hbuf, cString_pieceRead buff (by omega)]
  rfl

theorem firstRound_log (content : List Byte) (config : SgxConf) (buff : CharBuf) {len : ℕ}
    (h : 1 ≤ len) : (firstRound content config buff len).1.log =
      [.window 0 len true, .bytes 0 ((takeLine (len - 1) content).1.length + 1),
        .bytes 0 ((firstText content len).length + 1)] := by
  rw [← firstRound_text content config buff h, firstRound, confBody_log]
  rfl

theorem firstRound_more (content : List Byte) (config : SgxConf) (buff : CharBuf) {len : ℕ}
    (h : 1 ≤ len) : (firstRound content config buff len).2 = true ↔
      sgxDelim ∈ firstText content len := by
  rw [← firstRound_text content config buff h]
  exact confBody_more _ _

theorem firstRound_curPos {content : List Byte} {config : SgxConf} {buff : CharBuf} {len : ℕ}
    (h : 1 ≤ len) (hmore : (firstRound content config buff len).2 = true) :
    (firstRound content config buff len).1.curPos = (firstText content len).length := by
  rw [← firstRound_text content config buff h]
  exact (confBody_curPos hmore).trans (Nat.zero_add _)

theorem firstRound_within (content : List Byte) (config : SgxConf) (buff : CharBuf) {len : ℕ}
    (h : 1 ≤ len) : ∀ a ∈ (firstRound content config buff len).1.log, a.Within len := by
  have hline := takeLine_length_le (len - 1) content
  have htext : (firstText content len).length ≤ (takeLine (len - 1) content).1.length :=
    (List.takeWhile_prefix _).length_le
  rw [firstRound_log content config buff h, List.forall_mem_cons, List.forall_mem_cons,
    List.forall_mem_singleton]
  simp only [ConfAccess.Within]
  omega

theorem readConf_no_line {content : List Byte} (config : SgxConf) (buff : CharBuf) {len : ℕ}
    (h : (fgets len (fopen content)).1 = none) : readConf (some content) config buff len =
      some (called (begun config buff) len false, sgxConfOk) := by
  rcases hread : fgets len (fopen content) with ⟨line, fp⟩
  rw [hread] at h
  obtain rfl : line = none := h
  exact readConfLoop_none hread

theorem fgets_fopen {content line : List Byte} {len : ℕ} {fp : File}
    (h : fgets len (fopen content) = (some line, fp)) :
    1 ≤ len ∧ line = (takeLine (len - 1) content).1 := by
  match len with
  | 0 => cases h
  | 1 =>
    obtain rfl := Option.some.inj (congrArg Prod.fst h)
    exact ⟨le_refl 1, by rw [Nat.sub_self, takeLine]⟩
  | room + 2 =>
    refine ⟨Nat.le_add_left 1 _, ?_⟩
    by_cases hne : content = []
    · subst hne
      have hnil : fgets (room + 2) (fopen []) = (none, ⟨[], true⟩) := fgets_nil room false
      rw [hnil] at h
      cases h
    · have hread := @fgets_of_ne_nil room (fopen content) hne
      exact (Option.some.inj (congrArg Prod.fst (hread.symm.trans h))).symm

theorem readConf_refused {content line : List Byte} (config : SgxConf) (buff : CharBuf) {len : ℕ}
    {fp : File} (h : fgets len (fopen content) = (some line, fp))
    (hd : sgxDelim ∉ firstText content len) : readConf (some content) config buff len =
      some ((firstRound content config buff len).1, sgxConfError) := by
  obtain ⟨h1, rfl⟩ := fgets_fopen h
  have hmore : ¬ (firstRound content config buff len).2 = true :=
    fun hmore => hd ((firstRound_more content config buff h1).mp hmore)
  exact (@readConfLoop_line len 0 _ _ _ _ _ h).trans (if_neg hmore)

theorem delim_needs_line {content : List Byte} {len : ℕ} (h : sgxDelim ∈ firstText content len) :
    2 ≤ len ∧ content ≠ [] := by
  have hline : (takeLine (len - 1) content).1 ≠ [] := by
    intro hnil
    rw [firstText, hnil] at h
    exact List.not_mem_nil h
  constructor
  · by_contra hlen
    have hroom : len - 1 = 0 := by omega
    rw [hroom, takeLine] at hline
    exact hline rfl
  · rintro rfl
    apply hline
    cases len - 1 with
    | zero => rfl
    | succ room => rfl

theorem readConf_accepted {content : List Byte} (config : SgxConf) (buff : CharBuf) {len : ℕ}
    (h : sgxDelim ∈ firstText content len) : ∃ eof, readConf (some content) config buff len =
      readConfLoop len 0 content.length ⟨behindFirst content len, eof⟩
        (firstRound content config buff len).1 := by
  obtain ⟨hlen, hne⟩ := delim_needs_line h
  have hmore := (firstRound_more content config buff (by omega)).mpr h
  obtain ⟨room, rfl⟩ : ∃ room, len = room + 2 := ⟨len - 2, by omega⟩
  have hread := @fgets_of_ne_nil room (fopen content) hne
  exact ⟨_, (@readConfLoop_line _ 0 _ _ _ _ _ hread).trans (if_pos hmore)⟩

theorem behindFirst_length {content : List Byte} {len : ℕ} (h : sgxDelim ∈ firstText content len) :
    (behindFirst content len).length < content.length := by
  have hcount := congrArg List.length (takeLine_append (len - 1) content)
  have htext : (firstText content len).length ≤ (takeLine (len - 1) content).1.length :=
    (List.takeWhile_prefix _).length_le
  have hpos := List.length_pos_of_mem h
  rw [List.length_append] at hcount
  rw [behindFirst]
  omega

theorem second_window {content : List Byte} (config : SgxConf) (buff : CharBuf) {len : ℕ}
    (h : sgxDelim ∈ firstText content len) : ∃ s result,
      readConf (some content) config buff len = some (s, result) ∧
        .window (firstText content len).length len (decide (behindFirst content len ≠ [])) ∈ s.log := by
  obtain ⟨hlen, -⟩ := delim_needs_line h
  have hcur := firstRound_curPos (by omega) ((firstRound_more content config buff (by omega)).mpr h)
  have hshorter := behindFirst_length h
  obtain ⟨eof, hloop⟩ := readConf_accepted config buff h
  obtain ⟨s, result, hrun⟩ := @readConfLoop_returns len 0 _ ⟨behindFirst content len, eof⟩
    (firstRound content config buff len).1 hshorter
  have hwindow := (readConfLoop_log hrun).mem (List.mem_append_right _ (List.mem_singleton_self _))
  obtain ⟨room, rfl⟩ : ∃ room, len = room + 2 := ⟨len - 2, by omega⟩
  refine ⟨s, result, hloop.trans hrun, ?_⟩
  rw [← hcur]
  by_cases hbehind : behindFirst content (room + 2) = []
  · rw [hbehind, Nat.sub_zero, fgets_nil] at hwindow
    simpa [hbehind] using hwindow
  · have hread := @fgets_of_ne_nil room ⟨behindFirst content (room + 2), eof⟩ hbehind
    rw [Nat.sub_zero, hread] at hwindow
    simpa [hbehind] using hwindow

theorem readConf_one_line {content : List Byte} (config : SgxConf) (buff : CharBuf) {len : ℕ}
    (h : sgxDelim ∈ firstText content len) (hbehind : behindFirst content len = []) :
    readConf (some content) config buff len =
      some (called (firstRound content config buff len).1 len false, sgxConfOk) := by
  obtain ⟨hlen, -⟩ := delim_needs_line h
  have hshorter := behindFirst_length h
  obtain ⟨eof, hloop⟩ := readConf_accepted config buff h
  obtain ⟨fuel, hfuel⟩ : ∃ fuel, content.length = fuel + 1 := ⟨content.length - 1, by omega⟩
  obtain ⟨room, rfl⟩ : ∃ room, len = room + 2 := ⟨len - 2, by omega⟩
  rw [hloop, hfuel, hbehind]
  exact @readConfLoop_none (room + 2) 0 _ _ _ _ (fgets_nil room eof)

theorem readConf_without_delim {content : List Byte} (config : SgxConf) (buff : CharBuf) {len : ℕ}
    (h : sgxDelim ∉ firstText content len) : ∃ s result,
      readConf (some content) config buff len = some (s, result) ∧ ∀ a ∈ s.log, a.Within len := by
  rcases hread : fgets len (fopen content) with ⟨line, fp⟩
  cases line with
  | none =>
    refine ⟨_, _, readConf_no_line config buff (congrArg Prod.fst hread), ?_⟩
    exact List.forall_mem_singleton.mpr (Nat.zero_add len).le
  | some line =>
    exact ⟨_, _, readConf_refused config buff hread h,
      firstRound_within content config buff (fgets_fopen hread).1⟩

/-- The second half leaves out the call of `fgets` that ends the loop. -/
theorem read_conf_stays_inside_iff (content : List Byte) (config : SgxConf) (buff : CharBuf)
    (len : ℕ) : ∃ s result, readConf (some content) config buff len = some (s, result) ∧
      ((∀ a ∈ s.log, a.Within len) ↔ sgxDelim ∉ firstText content len) ∧
      ((∀ a ∈ s.log, a.InRound → a.Within len) ↔
        sgxDelim ∉ firstText content len ∨ behindFirst content len = []) := by
  by_cases hd : sgxDelim ∈ firstText content len
  swap
  · obtain ⟨s, result, hrun, hwithin⟩ := readConf_without_delim config buff hd
    exact ⟨s, result, hrun, iff_of_true hwithin hd, iff_of_true (fun a ha _ => hwithin a ha) (.inl hd)⟩
  obtain ⟨s, result, hrun, hwindow⟩ := second_window config buff hd
  have hpos := List.length_pos_of_mem hd
  have houtside {returned : Bool} :
      ¬ (ConfAccess.window (firstText content len).length len returned).Within len := by
    intro hwithin
    rw [ConfAccess.Within] at hwithin
    omega
  refine ⟨s, result, hrun, iff_of_false (fun h => houtside (h _ hwindow)) (not_not.mpr hd), ?_⟩
  rw [or_iff_right (not_not.mpr hd)]
  by_cases hbehind : behindFirst content len = []
  · refine iff_of_true ?_ hbehind
    rw [readConf_one_line config buff hd hbehind] at hrun
    obtain ⟨rfl, -⟩ := Prod.mk.inj (Option.some.inj hrun)
    intro a ha hround
    rcases List.mem_append.mp ha with ha | ha
    · have hlen := (delim_needs_line hd).1
      exact firstRound_within content config buff (by omega) a ha
    · rw [List.mem_singleton.mp ha] at hround
      cases hround
  · refine iff_of_false ?_ hbehind
    intro h
    exact houtside (h _ hwindow (decide_eq_true hbehind))

def twoSettings : List Byte := "root=a\nport=1\n".toList.map chr

theorem second_window_leaves_the_buffer : ∃ s result,
    readConf (some twoSettings) ⟨.other 0, 0, 0⟩ (fun _ => 0) 8192 = some (s, result) ∧
      .window 7 8192 true ∈ s.log ∧ ¬ ∀ a ∈ s.log, a.InRound → a.Within 8192 := by
  have hd : sgxDelim ∈ firstText twoSettings 8192 := by decide
  have hlen : (firstText twoSettings 8192).length = 7 := by decide
  have hbehind : behindFirst twoSettings 8192 ≠ [] := by decide
  obtain ⟨s, result, hrun, hwindow⟩ := second_window ⟨.other 0, 0, 0⟩ (fun _ => 0) hd
  rw [hlen, decide_eq_true hbehind] at hwindow
  refine ⟨s, result, hrun, hwindow, ?_⟩
  intro h
  have hle : 7 + 8192 ≤ 8192 := h _ hwindow rfl
  exact absurd hle (by decide)

end Sginx.Conf
