import Sginx.ConfLines

namespace Sginx.Conf

open Sginx.Http (Byte chr lf)
open Sginx.Library.CString
open Sginx.Library.Decimal (atoi)
open Sginx.Library.Stdio
open Sginx.Mini (CharBuf)

def lastWhere (p : ConfLine → Bool) (lines : List ConfLine) : Option ConfLine :=
  (lines.filter p).getLast?

def valueOf (name : List Byte) (lines : List ConfLine) : Option (List Byte) :=
  (lastWhere (fun line => line.key = name) lines).map ConfLine.value

def PointsTo (buf : CharBuf) (p : Pointer) (text : List Byte) : Prop :=
  ∃ offset, p = .buff offset ∧ 0 ∉ text ∧ Holds buf offset (text ++ [0])

structure ReadsSettings (lines : List ConfLine) (before : SgxConf) (s : ConfState) : Prop where
  root : match valueOf rootKey lines with
    | none => s.config.root = before.root
    | some value => PointsTo s.buf s.config.root value
  port : s.config.port = ((valueOf portKey lines).map atoi).getD before.port
  threadNum : s.config.threadNum = ((valueOf threadnumKey lines).map atoi).getD before.threadNum

def numberBeginning (name : List Byte) (lines : List ConfLine) : Option ℤ :=
  (lastWhere (fun line => name <+: line.key) lines).map fun line => atoi line.value

/-- Where the value of the last line whose key begins with `root` is stored, and the string that
is there in the end. -/
def rootLeft (ended : Bool) : ℕ → List ConfLine → Option (ℕ × List Byte)
  | _, [] => none
  | curPos, line :: lines =>
    (rootLeft ended (curPos + (line.chunk ended lines).length) lines).or
      (if rootKey <+: line.key then
        some (curPos + line.key.length + 1,
          (line.left ended lines ++ packed ended lines).takeWhile (· ≠ 0))
      else none)

/-- A key that only begins with a name may come last if it gives the setting the same value. -/
structure SettingsKept (ended : Bool) (lines : List ConfLine) (before : SgxConf) (len : ℕ) :
    Prop where
  room : 2 ≤ len
  keys : ∀ line ∈ lines, 0 ∉ line.key
  root : match rootLeft ended 0 lines, valueOf rootKey lines with
    | none, _ => True
    | some (offset, _), none => before.root = .buff offset
    | some (_, text), some value => text = value
  port : (numberBeginning portKey lines).getD before.port =
    ((valueOf portKey lines).map atoi).getD before.port
  threadNum : (numberBeginning threadnumKey lines).getD before.threadNum =
    ((valueOf threadnumKey lines).map atoi).getD before.threadNum

theorem lastWhere_cons (p : ConfLine → Bool) (line : ConfLine) (lines : List ConfLine) :
    lastWhere p (line :: lines) = (lastWhere p lines).or (if p line then some line else none) := by
  rw [lastWhere, List.filter_cons]
  split_ifs with hp
  · rw [List.getLast?_cons, lastWhere]
    cases (lines.filter p).getLast? with
    | none => rfl
    | some last => rfl
  · rw [Option.or_none, lastWhere]

theorem numberBeginning_cons (name : List Byte) (line : ConfLine) (lines : List ConfLine) (n : ℤ) :
    (numberBeginning name (line :: lines)).getD n =
      (numberBeginning name lines).getD (if name <+: line.key then atoi line.value else n) := by
  rw [numberBeginning, lastWhere_cons, numberBeginning]
  cases lastWhere (fun line => name <+: line.key) lines with
  | none =>
    by_cases hkey : name <+: line.key
    · simp [hkey]
    · simp [hkey]
  | some last => rfl

variable {ended : Bool} {lines : List ConfLine}

theorem settle_port (curPos : ℕ) (config : SgxConf) : (settle ended curPos lines config).port =
    (numberBeginning portKey lines).getD config.port := by
  induction lines generalizing curPos config with
  | nil => rfl
  | cons line lines ih =>
    rw [settle, ih, numberBeginning_cons]
    rfl

theorem settle_threadNum (curPos : ℕ) (config : SgxConf) :
    (settle ended curPos lines config).threadNum =
      (numberBeginning threadnumKey lines).getD config.threadNum := by
  induction lines generalizing curPos config with
  | nil => rfl
  | cons line lines ih =>
    rw [settle, ih, numberBeginning_cons]
    rfl

theorem settle_root (curPos : ℕ) (config : SgxConf) : (settle ended curPos lines config).root =
    ((rootLeft ended curPos lines).map fun left => Pointer.buff left.1).getD config.root := by
  induction lines generalizing curPos config with
  | nil => rfl
  | cons line lines ih =>
    rw [settle, ih, rootLeft]
    cases rootLeft ended (curPos + (line.chunk ended lines).length) lines with
    | none =>
      by_cases hkey : rootKey <+: line.key
      · simp [hkey, ConfLine.set]
      · simp [hkey, ConfLine.set]
    | some left => rfl

theorem Holds.takeWhile {buf : CharBuf} {i : ℕ} {xs : List Byte} (h : Holds buf i (xs ++ [0])) :
    Holds buf i (xs.takeWhile (· ≠ 0) ++ [0]) := by
  by_cases h0 : 0 ∈ xs
  · obtain ⟨rest, hsplit⟩ := split_at_nul h0
    have hxs : xs ++ [0] = xs.takeWhile (· ≠ 0) ++ [0] ++ (rest ++ [0]) := by
      conv_lhs => rw [hsplit]
      simp
    rw [hxs] at h
    exact (holds_append.mp h).1
  · rwa [takeWhile_without_nul h0]

theorem rootLeft_holds {buf : CharBuf} {curPos : ℕ} {left : ℕ × List Byte}
    (h : Holds buf curPos (packed ended lines ++ [0]))
    (hleft : rootLeft ended curPos lines = some left) :
    0 ∉ left.2 ∧ Holds buf left.1 (left.2 ++ [0]) := by
  induction lines generalizing curPos with
  | nil => cases hleft
  | cons line lines ih =>
    rw [packed, List.append_assoc, holds_append] at h
    rw [rootLeft] at hleft
    rcases Option.or_eq_some_iff.mp hleft with hlater | ⟨-, hhere⟩
    · exact ih h.2 hlater
    · split_ifs at hhere with hkey
      obtain rfl := Option.some.inj hhere
      refine ⟨nul_notMem_takeWhile _, ?_⟩
      apply Holds.takeWhile
      have hvalue : Holds buf curPos (line.chunk ended lines ++ (packed ended lines ++ [0])) :=
        holds_append.mpr h
      rw [ConfLine.chunk, List.append_assoc, List.cons_append, List.append_cons, holds_append,
        List.length_append, List.length_singleton, ← List.append_assoc] at hvalue
      exact hvalue.2

theorem pointsTo_iff {buf : CharBuf} {offset : ℕ} {text value : List Byte}
    (h : Holds buf offset (text ++ [0])) (htext : 0 ∉ text) :
    PointsTo buf (.buff offset) value ↔ text = value := by
  constructor
  · rintro ⟨offset', hp, hvalue, hholds⟩
    obtain rfl := Pointer.buff.inj hp
    have hone := h.cString (show text.length < text.length + value.length + 1 by omega)
    have htwo := hholds.cString (show value.length < text.length + value.length + 1 by omega)
    rw [takeWhile_without_nul htext] at hone
    rw [takeWhile_without_nul hvalue] at htwo
    exact hone.symm.trans htwo
  · rintro rfl
    exact ⟨offset, rfl, htext, h⟩

theorem rootLeft_none {curPos : ℕ} (h : rootLeft ended curPos lines = none) :
    valueOf rootKey lines = none := by
  induction lines generalizing curPos with
  | nil => rfl
  | cons line lines ih =>
    rw [rootLeft, Option.or_eq_none_iff] at h
    have hkey : line.key ≠ rootKey := by
      intro heq
      have hbegins : rootKey <+: line.key := heq ▸ List.prefix_rfl
      rw [if_pos hbegins] at h
      exact absurd h.2 (Option.some_ne_none _)
    have hlater := ih h.1
    rw [valueOf, Option.map_eq_none_iff] at hlater ⊢
    rw [lastWhere_cons, hlater]
    simp [hkey]

theorem readsSettings_iff {before : SgxConf} {buff : CharBuf} {len : ℕ} {s : ConfState}
    (hlen : 2 ≤ len) (hkeys : ∀ line ∈ lines, 0 ∉ line.key)
    (hfile : FileRead ended lines ⟨buff, 0, before, []⟩ s) :
    ReadsSettings lines before s ↔ SettingsKept ended lines before len := by
  have hport : s.config.port = (numberBeginning portKey lines).getD before.port := by
    rw [hfile.config, settle_port]
  have hthread : s.config.threadNum =
      (numberBeginning threadnumKey lines).getD before.threadNum := by
    rw [hfile.config, settle_threadNum]
  have hroot : s.config.root =
      ((rootLeft ended 0 lines).map fun left => Pointer.buff left.1).getD before.root := by
    rw [hfile.config, settle_root]
  have hiff : (match valueOf rootKey lines with
      | none => s.config.root = before.root
      | some value => PointsTo s.buf s.config.root value) ↔
      match rootLeft ended 0 lines, valueOf rootKey lines with
      | none, _ => True
      | some (offset, _), none => before.root = .buff offset
      | some (_, text), some value => text = value := by
    rw [hroot]
    cases hleft : rootLeft ended 0 lines with
    | none =>
      rw [rootLeft_none hleft]
      exact iff_of_true rfl trivial
    | some left =>
      have hne : lines ≠ [] := by
        rintro rfl
        cases hleft
      obtain ⟨hnul, hholds⟩ := rootLeft_holds (hfile.holds (.inl hne)) hleft
      cases valueOf rootKey lines with
      | none => exact eq_comm
      | some value => exact pointsTo_iff hholds hnul
  constructor
  · rintro ⟨hr, hp, ht⟩
    exact ⟨hlen, hkeys, hiff.mp hr, hport.symm.trans hp, hthread.symm.trans ht⟩
  · rintro ⟨-, -, hr, hp, ht⟩
    exact ⟨hiff.mpr hr, hport.trans hp, hthread.trans ht⟩

theorem not_ok_of_error {content : List Byte} {before : SgxConf} {buff : CharBuf} {len : ℕ}
    {P : ConfState → Prop} (h : ∃ s, readConf (some content) before buff len = some (s, sgxConfError)) :
    ¬ ∃ s, readConf (some content) before buff len = some (s, sgxConfOk) ∧ P s := by
  rintro ⟨s, hok, -⟩
  obtain ⟨s', herror⟩ := h
  have hresult : sgxConfError = sgxConfOk :=
    congrArg Prod.snd (Option.some.inj (herror.symm.trans hok))
  exact absurd hresult (by decide)

theorem confFile_of_lt_two (h : (confFile ended lines).length < 1) : lines = [] := by
  cases lines with
  | nil => rfl
  | cons line lines =>
    rw [confFile_length] at h
    have hpos := text_length_pos line
    omega

theorem readConf_lines {before : SgxConf} (buff : CharBuf) {len : ℕ} (hlen : 2 ≤ len)
    (hkeys : ∀ line ∈ lines, 0 ∉ line.key) (h : (confFile ended lines).length < len) :
    ∃ s, readConf (some (confFile ended lines)) before buff len = some (s, sgxConfOk) ∧
      FileRead ended lines ⟨buff, 0, before, []⟩ s := by
  have hrest : (fopen (confFile ended lines)).rest = confFile ended lines := rfl
  exact readConfLoop_lines _ hlen hkeys hrest h (Nat.lt_succ_self _)

theorem read_conf_settings_iff (ended : Bool) (lines : List ConfLine) (before : SgxConf)
    (buff : CharBuf) {len : ℕ} (h : (confFile ended lines).length < len) :
    (∃ s, readConf (some (confFile ended lines)) before buff len = some (s, sgxConfOk) ∧
      ReadsSettings lines before s) ↔ SettingsKept ended lines before len := by
  by_cases hlen : 2 ≤ len
  swap
  · -- a window of one byte makes an error of the empty file
    obtain rfl : len = 1 := by omega
    obtain rfl := confFile_of_lt_two h
    exact iff_of_false (not_ok_of_error ⟨_, rfl⟩) (fun hkept => hlen hkept.room)
  by_cases hkeys : ∀ line ∈ lines, 0 ∉ line.key
  swap
  · refine iff_of_false (not_ok_of_error ?_) (fun hkept => hkeys hkept.keys)
    push Not at hkeys
    have hrest : (fopen (confFile ended lines)).rest = confFile ended lines := rfl
    exact readConfLoop_nul_key _ hkeys hrest h (Nat.lt_succ_self _)
  obtain ⟨s, hrun, hfile⟩ := readConf_lines buff hlen hkeys h
  rw [← readsSettings_iff hlen hkeys hfile]
  constructor
  · rintro ⟨s', hrun', hreads⟩
    obtain rfl := congrArg Prod.fst (Option.some.inj (hrun.symm.trans hrun'))
    exact hreads
  · intro hreads
    exact ⟨s, hrun, hreads⟩

def rootLine : ConfLine := ⟨rootKey, "/srv".toList.map chr, by decide, by decide, by decide⟩

def portLine : ConfLine := ⟨portKey, "80".toList.map chr, by decide, by decide, by decide⟩

def portsLine : ConfLine :=
  ⟨"ports".toList.map chr, "81".toList.map chr, by decide, by decide, by decide⟩

theorem read_conf_settings_iff_two_lines : ∃ s,
    readConf (some (confFile true [portLine, rootLine])) ⟨.other 0, 0, 0⟩ (fun _ => 0) 8192 =
      some (s, sgxConfOk) ∧ ReadsSettings [portLine, rootLine] ⟨.other 0, 0, 0⟩ s := by
  apply (read_conf_settings_iff true [portLine, rootLine] ⟨.other 0, 0, 0⟩ (fun _ => 0)
    (show _ < 8192 by decide)).mpr
  exact ⟨by decide, by decide, rfl, by decide, by decide⟩

theorem longer_key_is_read_as_port :
    ¬ ∃ s, readConf (some (confFile true [portLine, portsLine])) ⟨.other 0, 0, 0⟩ (fun _ => 0) 8192 =
      some (s, sgxConfOk) ∧ ReadsSettings [portLine, portsLine] ⟨.other 0, 0, 0⟩ s := by
  obtain ⟨s, hrun, hfile⟩ := @readConf_lines true [portLine, portsLine] ⟨.other 0, 0, 0⟩ (fun _ => 0)
    8192 (by decide) (by decide) (by decide)
  rintro ⟨s', hrun', hreads⟩
  obtain rfl := congrArg Prod.fst (Option.some.inj (hrun.symm.trans hrun'))
  have hport := hreads.port
  rw [hfile.config, settle_port] at hport
  exact absurd hport (by decide)

end Sginx.Conf
