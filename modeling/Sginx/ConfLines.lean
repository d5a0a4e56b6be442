import Sginx.ReadConf

namespace Sginx.Conf

open Sginx.Http (Byte chr lf)
open Sginx.Library.CString
open Sginx.Library.Decimal (atoi)
open Sginx.Library.Stdio
open Sginx.Mini (CharBuf cString strlen cells cells_append cells_congr length_cells store_at
  store_below)

section memory

variable {buf buf' : CharBuf} {i : ℕ} {xs ys : List Byte}

def Holds (buf : CharBuf) (i : ℕ) (xs : List Byte) : Prop := cells buf i xs.length = xs

theorem holds_iff : Holds buf i xs ↔ ∀ (j : ℕ) (h : j < xs.length), buf (i + j) = xs[j] := by
  constructor
  · intro h j hj
    have hat := List.getElem_of_eq h (by rwa [length_cells])
    simpa [cells] using hat
  · intro h
    apply List.ext_getElem (length_cells _ _ _)
    intro j hj hj'
    simpa [cells] using h j hj'

theorem holds_append : Holds buf i (xs ++ ys) ↔ Holds buf i xs ∧ Holds buf (i + xs.length) ys := by
  rw [Holds, List.length_append, ← cells_append]
  constructor
  · intro h
    exact List.append_inj h (length_cells _ _ _)
  · rintro ⟨hx, hy⟩
    rw [hx, hy]

theorem holds_singleton {c : Byte} : Holds buf i [c] ↔ buf i = c := by
  simp [Holds, cells]

theorem Holds.congr (h : Holds buf i xs) (hb : ∀ j, i ≤ j → j < i + xs.length → buf' j = buf j) :
    Holds buf' i xs :=
  (cells_congr hb).trans h

theorem Holds.cString (h : Holds buf i (xs ++ [0])) {room : ℕ} (hroom : xs.length < room) :
    cString buf i room = xs.takeWhile (· ≠ 0) := by
  have hsplit := cells_append buf i (xs.length + 1) (room - (xs.length + 1))
  have hcells : cells buf i (xs.length + 1) = xs ++ [0] := by
    rw [Holds, List.length_append] at h
    exact h
  rw [Nat.add_sub_of_le hroom, hcells] at hsplit
  rw [Mini.cString, ← hsplit, List.append_assoc]
  exact takeWhile_nul _ _

theorem holds_stored (s : ConfState) (line : List Byte) :
    Holds (stored s line).buf s.curPos (line ++ [0]) := by
  rw [holds_append, holds_singleton]
  constructor
  · rw [holds_iff]
    intro j hj
    simp only [stored]
    rw [Function.update_of_ne (by omega), store_at line _ _ hj]
  · simp [stored]

end memory

structure ConfLine where
  key : List Byte
  value : List Byte
  key_delim : sgxDelim ∉ key
  key_lf : lf ∉ key
  value_lf : lf ∉ value

def ConfLine.text (line : ConfLine) : List Byte := line.key ++ sgxDelim :: line.value

def newlineOf (ended : Bool) (lines : List ConfLine) : List Byte :=
  if ended = true ∨ lines ≠ [] then [lf] else []

def confFile (ended : Bool) : List ConfLine → List Byte
  | [] => []
  | line :: lines => line.text ++ (newlineOf ended lines ++ confFile ended lines)

def ConfLine.left (ended : Bool) (line : ConfLine) (lines : List ConfLine) : List Byte :=
  if 0 ∈ line.value then line.value.takeWhile (· ≠ 0)
  else line.value ++ (newlineOf ended lines).map fun _ => 0

def ConfLine.chunk (ended : Bool) (line : ConfLine) (lines : List ConfLine) : List Byte :=
  line.key ++ sgxDelim :: line.left ended lines

def packed (ended : Bool) : List ConfLine → List Byte
  | [] => []
  | line :: lines => line.chunk ended lines ++ packed ended lines

def ConfLine.set (line : ConfLine) (curPos : ℕ) (config : SgxConf) : SgxConf :=
  { root := if rootKey <+: line.key then .buff (curPos + line.key.length + 1) else config.root
    port := if portKey <+: line.key then atoi line.value else config.port
    threadNum := if threadnumKey <+: line.key then atoi line.value else config.threadNum }

variable {ended : Bool} {line : ConfLine} {lines : List ConfLine}

theorem newlineOf_eq (ended : Bool) (lines : List ConfLine) :
    newlineOf ended lines = [lf] ∨ newlineOf ended lines = [] ∧ lines = [] := by
  rw [newlineOf]
  split_ifs with h
  · exact .inl rfl
  · rw [not_or, not_not] at h
    exact .inr ⟨rfl, h.2⟩

theorem text_lf (line : ConfLine) : lf ∉ line.text := by
  have hdelim : lf ≠ sgxDelim := by decide
  simp [ConfLine.text, line.key_lf, line.value_lf, hdelim]

theorem text_length_pos (line : ConfLine) : 0 < line.text.length := by
  simp [ConfLine.text]

theorem confFile_length (ended : Bool) (line : ConfLine) (lines : List ConfLine) :
    (confFile ended (line :: lines)).length =
      line.text.length + ((newlineOf ended lines).length + (confFile ended lines).length) := by
  rw [confFile, List.length_append, List.length_append]

theorem delim_ne_zero : sgxDelim ≠ 0 := by decide

theorem takeWhile_key (hkey : 0 ∉ line.key) (rest : List Byte) :
    (line.key ++ sgxDelim :: rest).takeWhile (· ≠ 0) =
      line.key ++ sgxDelim :: rest.takeWhile (· ≠ 0) := by
  have hall : ∀ c ∈ line.key ++ [sgxDelim], decide (c ≠ 0) = true := by
    intro c hc
    rw [decide_eq_true_eq]
    rintro rfl
    rcases List.mem_append.mp hc with h | h
    · exact hkey h
    · exact delim_ne_zero (List.mem_singleton.mp h).symm
  have happend : (line.key ++ [sgxDelim] ++ rest).takeWhile (· ≠ 0) =
      line.key ++ [sgxDelim] ++ rest.takeWhile (· ≠ 0) := List.takeWhile_append_of_pos hall
  simpa using happend

theorem left_takeWhile (ended : Bool) (line : ConfLine) (lines : List ConfLine) :
    (line.left ended lines).takeWhile (· ≠ 0) = line.value.takeWhile (· ≠ 0) := by
  rw [ConfLine.left]
  split_ifs with h0
  · rw [List.takeWhile_takeWhile]
    simp
  · rcases newlineOf_eq ended lines with hnew | ⟨hnew, -⟩
    · rw [hnew]
      exact takeWhile_nul _ []
    · rw [hnew, List.map_nil, List.append_nil]

theorem text_takeWhile_length (hkey : 0 ∉ line.key) :
    ((line.text ++ newlineOf ended lines).takeWhile (· ≠ 0)).length =
      (line.chunk ended lines).length := by
  have htext : line.text ++ newlineOf ended lines =
      line.key ++ sgxDelim :: (line.value ++ newlineOf ended lines) := by
    simp [ConfLine.text]
  have hlf : ∀ c ∈ newlineOf ended lines, decide (c ≠ 0) = true := by
    intro c hc
    rcases newlineOf_eq ended lines with hnew | ⟨hnew, -⟩
    · rw [hnew, List.mem_singleton] at hc
      rw [hc]
      decide
    · rw [hnew] at hc
      exact absurd hc List.not_mem_nil
  rw [htext, takeWhile_key hkey, ConfLine.chunk, ConfLine.left]
  by_cases h0 : 0 ∈ line.value
  · have hshort : (line.value.takeWhile (· ≠ 0)).length ≠ line.value.length := by
      intro heq
      have hall := (List.takeWhile_prefix _).eq_of_length heq
      have hzero := List.takeWhile_eq_self_iff.mp hall 0 h0
      exact absurd hzero (by decide)
    rw [if_pos h0, List.takeWhile_append, if_neg hshort]
  · have hall := List.takeWhile_eq_self_iff.mp (takeWhile_without_nul h0)
    rw [if_neg h0, List.takeWhile_append_of_pos hall, List.takeWhile_eq_self_iff.mpr hlf]
    simp

def cutNewline (buf : CharBuf) (last : ℕ) : CharBuf :=
  if buf last = lf then Function.update buf last 0 else buf

theorem cutNewline_of_ne {buf : CharBuf} {last : ℕ} (h : buf last ≠ lf) :
    cutNewline buf last = buf := if_neg h

theorem cutNewline_below (buf : CharBuf) {last j : ℕ} (h : j < last) :
    cutNewline buf last j = buf j := by
  rw [cutNewline]
  split_ifs
  · exact Function.update_of_ne (by omega) _ _
  · rfl

theorem text_ne_lf {buf : CharBuf} {i j : ℕ} {xs : List Byte} (h : Holds buf i (line.text ++ xs))
    (hj : j < line.text.length) : buf (i + j) ≠ lf := by
  have hat := (holds_iff.mp (holds_append.mp h).1) j hj
  intro hlf
  rw [hlf] at hat
  exact text_lf line (hat ▸ List.getElem_mem hj)

theorem chunk_length_pos (ended : Bool) (line : ConfLine) (lines : List ConfLine) :
    line.key.length < (line.chunk ended lines).length := by
  simp [ConfLine.chunk]

theorem cut_at_nul {buf : CharBuf} {i : ℕ} (h0 : 0 ∈ line.value)
    (hs : Holds buf i (line.text ++ (newlineOf ended lines ++ [0]))) :
    Holds (cutNewline buf (i + ((line.chunk ended lines).length - 1))) i
      (line.chunk ended lines ++ [0]) := by
  obtain ⟨rest, hvalue⟩ := split_at_nul h0
  have hchunk : line.chunk ended lines = line.key ++ sgxDelim :: line.value.takeWhile (· ≠ 0) := by
    rw [ConfLine.chunk, ConfLine.left, if_pos h0]
  have htext : line.text = line.chunk ended lines ++ 0 :: rest := by
    rw [hchunk, ConfLine.text, List.append_assoc, List.cons_append, ← hvalue]
  have hlen := congrArg List.length htext
  rw [List.length_append, List.length_cons] at hlen
  have hpos := chunk_length_pos ended line lines
  rw [cutNewline_of_ne (text_ne_lf hs (by omega))]
  rw [htext, List.append_cons, List.append_assoc] at hs
  exact (holds_append.mp hs).1

theorem cut_at_newline {buf : CharBuf} {i : ℕ} (h0 : 0 ∉ line.value)
    (hs : Holds buf i (line.text ++ (newlineOf ended lines ++ [0]))) :
    Holds (cutNewline buf (i + ((line.chunk ended lines).length - 1))) i
      (line.chunk ended lines ++ [0]) := by
  have hchunk : line.chunk ended lines = line.text ++ (newlineOf ended lines).map fun _ => 0 := by
    rw [ConfLine.chunk, ConfLine.left, if_neg h0, ConfLine.text, List.append_assoc,
      List.cons_append]
  have hpos := chunk_length_pos ended line lines
  rcases newlineOf_eq ended lines with hnew | ⟨hnew, -⟩
  · rw [hnew, List.map_cons, List.map_nil] at hchunk
    rw [hnew, holds_append] at hs
    obtain ⟨htext, hend⟩ := hs
    have hend : Holds buf (i + line.text.length) ([lf] ++ [0]) := hend
    rw [holds_append, holds_singleton, holds_singleton] at hend
    have hlast : (line.chunk ended lines).length - 1 = line.text.length := by
      rw [hchunk, List.length_append, List.length_singleton]
      omega
    rw [hlast, hchunk, cutNewline, if_pos hend.1, List.append_assoc, holds_append]
    constructor
    · exact htext.congr fun j _ hj => Function.update_of_ne (by omega) _ _
    · have hsplit : Holds (Function.update buf (i + line.text.length) 0) (i + line.text.length)
          ([0] ++ [0]) := by
        rw [holds_append, holds_singleton, holds_singleton, Function.update_self,
          Function.update_of_ne (by simp)]
        exact ⟨rfl, hend.2⟩
      exact hsplit
  · rw [hnew, List.map_nil, List.append_nil] at hchunk
    rw [hnew, List.nil_append] at hs
    rw [hchunk] at hpos ⊢
    rwa [cutNewline_of_ne (text_ne_lf hs (by omega))]

theorem cut_holds {buf : CharBuf} {i : ℕ}
    (hs : Holds buf i (line.text ++ (newlineOf ended lines ++ [0]))) :
    Holds (cutNewline buf (i + ((line.chunk ended lines).length - 1))) i
      (line.chunk ended lines ++ [0]) := by
  by_cases h0 : 0 ∈ line.value
  · exact cut_at_nul h0 hs
  · exact cut_at_newline h0 hs

theorem atoi_takeWhile (text : List Byte) : atoi (text.takeWhile (· ≠ 0)) = atoi text := by
  rw [atoi, atoi, List.takeWhile_takeWhile]
  simp

theorem begins_line_iff {buf : CharBuf} {i : ℕ} {rest name : List Byte} (hnul : 0 ∉ name)
    (hdelim : sgxDelim ∉ name) (h : Holds buf i (line.key ++ sgxDelim :: rest)) :
    strncmp (literal name) (fun j => buf (i + j)) name.length = 0 ↔ name <+: line.key := by
  rw [strncmp_literal_eq_zero_iff hnul]
  apply agreeTo_begins _ hdelim
  intro j hj
  rw [List.append_cons] at h
  have hlt : j < (line.key ++ [sgxDelim]).length := by
    rw [List.length_append, List.length_singleton]
    omega
  have hat := (holds_iff.mp (holds_append.mp h).1) j hlt
  rw [List.getElem?_eq_getElem hlt, Option.getD_some]
  exact hat

theorem setConf_line {buf : CharBuf} {i room : ℕ} (config : SgxConf)
    (h : Holds buf i (line.chunk ended lines ++ [0]))
    (hroom : (line.chunk ended lines).length < room) :
    setConf buf room i (i + line.key.length + 1) config = line.set i config := by
  have hsplit : line.chunk ended lines ++ [0] =
      line.key ++ sgxDelim :: (line.left ended lines ++ [0]) := by
    simp [ConfLine.chunk]
  have hlen : (line.chunk ended lines).length =
      line.key.length + ((line.left ended lines).length + 1) := by
    simp [ConfLine.chunk]
  rw [hsplit] at h
  have hvalue : Holds buf (i + line.key.length + 1) (line.left ended lines ++ [0]) := by
    have hrest := h
    rw [List.append_cons, holds_append, List.length_append, List.length_singleton] at hrest
    exact hrest.2
  have hnumber : atoi (cString buf (i + line.key.length + 1) room) = atoi line.value := by
    rw [hvalue.cString (by omega), left_takeWhile, atoi_takeWhile]
  have hroot := begins_line_iff (show 0 ∉ rootKey by decide) (by decide) h
  have hport := begins_line_iff (show 0 ∉ portKey by decide) (by decide) h
  have hthread := begins_line_iff (show 0 ∉ threadnumKey by decide) (by decide) h
  simp only [setConf, hroot, hport, hthread, hnumber, ConfLine.set]

theorem strstr_line (line : ConfLine) (rest : List Byte) :
    strstr (line.key ++ sgxDelim :: rest) = some line.key.length := by
  have hkey : line.key.idxOf? sgxDelim = none := List.idxOf?_eq_none_iff.mpr line.key_delim
  rw [List.idxOf?] at hkey
  rw [strstr, List.idxOf?, List.findIdx?_append, hkey, List.findIdx?_cons]
  simp

structure LineRead (ended : Bool) (line : ConfLine) (lines : List ConfLine) (s s' : ConfState) :
    Prop where
  curPos : s'.curPos = s.curPos + (line.chunk ended lines).length
  config : s'.config = line.set s.curPos s.config
  holds : Holds s'.buf s.curPos (line.chunk ended lines ++ [0])
  below : ∀ j < s.curPos, s'.buf j = s.buf j

theorem line_string {room : ℕ} {s : ConfState}
    (hs : Holds s.buf s.curPos (line.text ++ (newlineOf ended lines ++ [0])))
    (hroom : (line.text ++ newlineOf ended lines).length < room) :
    cString s.buf s.curPos room = (line.text ++ newlineOf ended lines).takeWhile (· ≠ 0) := by
  apply Holds.cString _ hroom
  rwa [List.append_assoc]

theorem confBody_line {room : ℕ} {s : ConfState} (hkey : 0 ∉ line.key)
    (hs : Holds s.buf s.curPos (line.text ++ (newlineOf ended lines ++ [0])))
    (hroom : (line.text ++ newlineOf ended lines).length < room) :
    ∃ s', confBody room s = (s', true) ∧ LineRead ended line lines s s' := by
  have hstring := line_string hs hroom
  have hlen : strlen s.buf s.curPos room = (line.chunk ended lines).length := by
    rw [strlen, hstring, text_takeWhile_length hkey]
  have hle : (line.chunk ended lines).length < room := by
    rw [← hlen, strlen, hstring]
    exact lt_of_le_of_lt (List.takeWhile_prefix _).length_le hroom
  have hdelim : strstr (cString s.buf s.curPos room) = some line.key.length := by
    rw [hstring, ConfLine.text, List.append_assoc, List.cons_append, takeWhile_key hkey, strstr_line]
  have hpos := chunk_length_pos ended line lines
  unfold confBody
  dsimp only
  rw [hdelim, hlen]
  refine ⟨_, rfl, rfl, ?_, cut_holds hs, ?_⟩
  · exact setConf_line s.config (cut_holds hs) hle
  · intro j hj
    exact cutNewline_below s.buf (by omega)

theorem confBody_nul_key {room : ℕ} {s : ConfState} (hkey : 0 ∈ line.key)
    (hs : Holds s.buf s.curPos (line.text ++ (newlineOf ended lines ++ [0])))
    (hroom : (line.text ++ newlineOf ended lines).length < room) :
    (confBody room s).2 = false := by
  obtain ⟨rest, hsplit⟩ := split_at_nul hkey
  have hstop : (line.text ++ newlineOf ended lines).takeWhile (· ≠ 0) =
      (line.key.takeWhile (· ≠ 0)).takeWhile (· ≠ 0) := by
    rw [ConfLine.text, hsplit, List.append_assoc, List.append_assoc, List.cons_append, takeWhile_nul,
      ← hsplit]
  apply Bool.eq_false_of_not_eq_true
  rw [confBody_more, line_string hs hroom, hstop]
  intro hmem
  exact line.key_delim
    ((List.takeWhile_prefix _).mem ((List.takeWhile_prefix _).mem hmem))

theorem fgets_confFile {len : ℕ} {fp : File} (hrest : fp.rest = confFile ended (line :: lines))
    (h : (confFile ended (line :: lines)).length < len) : ∃ fp',
      fgets len fp = (some (line.text ++ newlineOf ended lines), fp') ∧
        fp'.rest = confFile ended lines := by
  have hpos := text_length_pos line
  rw [confFile_length] at h
  obtain ⟨room, rfl⟩ : ∃ room, len = room + 2 := ⟨len - 2, by omega⟩
  have hne : fp.rest ≠ [] := by
    rw [hrest, confFile]
    intro hnil
    rw [(List.append_eq_nil_iff.mp hnil).1] at hpos
    exact absurd hpos (Nat.lt_irrefl 0)
  rw [fgets_of_ne_nil room hne, hrest, confFile]
  rcases newlineOf_eq ended lines with hnew | ⟨hnew, rfl⟩
  · rw [hnew, List.length_singleton] at h
    have hline := takeLine_newline (text_lf line) (show line.text.length < room + 1 by omega)
      (confFile ended lines)
    rw [hnew, List.singleton_append, show lf = newline from rfl, hline]
    exact ⟨_, rfl, rfl⟩
  · rw [hnew, confFile, List.length_nil] at h
    obtain ⟨eof, hline⟩ := takeLine_last (text_lf line) (show line.text.length ≤ room + 1 by omega)
    rw [hnew, confFile, List.append_nil, List.append_nil, hline]
    exact ⟨_, rfl, rfl⟩

def settle (ended : Bool) : ℕ → List ConfLine → SgxConf → SgxConf
  | _, [], config => config
  | curPos, line :: lines, config =>
    settle ended (curPos + (line.chunk ended lines).length) lines (line.set curPos config)

structure FileRead (ended : Bool) (lines : List ConfLine) (s s' : ConfState) : Prop where
  config : s'.config = settle ended s.curPos lines s.config
  holds : lines ≠ [] ∨ s.buf s.curPos = 0 → Holds s'.buf s.curPos (packed ended lines ++ [0])
  below : ∀ j < s.curPos, s'.buf j = s.buf j

theorem stored_below (s : ConfState) (text : List Byte) {j : ℕ} (h : j < s.curPos) :
    (stored s text).buf j = s.buf j := by
  simp only [stored]
  rw [Function.update_of_ne (by omega), store_below text _ h]

theorem LineRead.then {s s₁ s' : ConfState} (hline : LineRead ended line lines s s₁)
    (hlines : FileRead ended lines s₁ s') : FileRead ended (line :: lines) s s' := by
  have hend := (holds_append.mp hline.holds).2
  rw [holds_singleton, ← hline.curPos] at hend
  refine ⟨?_, fun _ => ?_, ?_⟩
  · rw [hlines.config, hline.config, hline.curPos, settle]
  · have hpacked := hlines.holds (.inr hend)
    rw [hline.curPos] at hpacked
    rw [packed, List.append_assoc, holds_append]
    refine ⟨(holds_append.mp hline.holds).1.congr fun j _ hj => ?_, hpacked⟩
    exact hlines.below j (by rw [hline.curPos]; exact hj)
  · intro j hj
    rw [hlines.below j (by rw [hline.curPos]; omega), hline.below j hj]

theorem next_line {len : ℕ} (s : ConfState) (hkey : 0 ∉ line.key)
    (h : (confFile ended (line :: lines)).length < len) : ∃ s₁,
      confBody len (stored (called s len true) (line.text ++ newlineOf ended lines)) = (s₁, true) ∧
        LineRead ended line lines s s₁ := by
  rw [confFile_length] at h
  have hholds := holds_stored (called s len true) (line.text ++ newlineOf ended lines)
  rw [List.append_assoc] at hholds
  obtain ⟨s₁, hbody, hline⟩ := confBody_line hkey hholds
    (show (line.text ++ newlineOf ended lines).length < len by rw [List.length_append]; omega)
  refine ⟨s₁, hbody, hline.curPos, hline.config, hline.holds, ?_⟩
  intro j hj
  rw [hline.below j hj]
  exact stored_below (called s len true) _ hj

theorem readConfLoop_lines {len fuel : ℕ} {fp : File} (s : ConfState) (hlen : 2 ≤ len)
    (hkeys : ∀ line ∈ lines, 0 ∉ line.key) (hrest : fp.rest = confFile ended lines)
    (h : (confFile ended lines).length < len) (hfuel : (confFile ended lines).length < fuel) :
    ∃ s', readConfLoop len 0 fuel fp s = some (s', sgxConfOk) ∧ FileRead ended lines s s' := by
  induction lines generalizing fuel fp s with
  | nil =>
    obtain ⟨rest, eof⟩ := fp
    obtain rfl : rest = [] := hrest
    obtain ⟨room, rfl⟩ : ∃ room, len = room + 2 := ⟨len - 2, by omega⟩
    obtain ⟨fuel, rfl⟩ := Nat.exists_eq_succ_of_ne_zero (Nat.ne_zero_of_lt hfuel)
    refine ⟨_, @readConfLoop_none (room + 2) 0 _ _ _ _ (fgets_nil room eof), rfl, ?_, fun _ _ => rfl⟩
    rintro (hne | hnul)
    · exact absurd rfl hne
    · exact holds_singleton.mpr hnul
  | cons line lines ih =>
    rw [List.forall_mem_cons] at hkeys
    obtain ⟨fuel, rfl⟩ := Nat.exists_eq_succ_of_ne_zero (Nat.ne_zero_of_lt hfuel)
    obtain ⟨fp', hread, hrest'⟩ := fgets_confFile hrest h
    obtain ⟨s₁, hbody, hline⟩ := next_line s hkeys.1 h
    have hpos := text_length_pos line
    rw [confFile_length] at h hfuel
    obtain ⟨s', hloop, hlines⟩ := ih s₁ hkeys.2 hrest' (by omega) (show _ < fuel by omega)
    refine ⟨s', ?_, hline.then hlines⟩
    rw [@readConfLoop_line len 0 _ _ _ _ _ hread, Nat.sub_zero, hbody]
    exact hloop

theorem readConfLoop_nul_key {len fuel : ℕ} {fp : File} (s : ConfState)
    (hkeys : ∃ line ∈ lines, 0 ∈ line.key) (hrest : fp.rest = confFile ended lines)
    (h : (confFile ended lines).length < len) (hfuel : (confFile ended lines).length < fuel) :
    ∃ s', readConfLoop len 0 fuel fp s = some (s', sgxConfError) := by
  induction lines generalizing fuel fp s with
  | nil =>
    obtain ⟨line, hmem, -⟩ := hkeys
    exact absurd hmem List.not_mem_nil
  | cons line lines ih =>
    obtain ⟨fuel, rfl⟩ := Nat.exists_eq_succ_of_ne_zero (Nat.ne_zero_of_lt hfuel)
    obtain ⟨fp', hread, hrest'⟩ := fgets_confFile hrest h
    rw [@readConfLoop_line len 0 _ _ _ _ _ hread, Nat.sub_zero]
    dsimp only
    by_cases hkey : 0 ∈ line.key
    · have hholds := holds_stored (called s len true) (line.text ++ newlineOf ended lines)
      rw [List.append_assoc] at hholds
      rw [confFile_length] at h
      have hbody := confBody_nul_key hkey hholds
        (show (line.text ++ newlineOf ended lines).length < len by rw [List.length_append]; omega)
      rw [hbody]
      exact ⟨_, rfl⟩
    · obtain ⟨s₁, hbody, -⟩ := next_line s hkey h
      have hpos := text_length_pos line
      rw [confFile_length] at h hfuel
      have hlater : ∃ line ∈ lines, 0 ∈ line.key := by
        rcases hkeys with ⟨line', hmem, hnul⟩
        rcases List.mem_cons.mp hmem with rfl | hmem
        · exact absurd hnul hkey
        · exact ⟨line', hmem, hnul⟩
      obtain ⟨s', hloop⟩ := ih s₁ hlater hrest' (by omega) (show _ < fuel by omega)
      rw [hbody]
      exact ⟨s', hloop⟩

end Sginx.Conf
