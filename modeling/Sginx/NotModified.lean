import Sginx.HeaderNames

namespace Sginx.Http

open Sginx.Library.CString Sginx.Library.RingBuffer

def leapYear (year : ℤ) : Bool := year % 4 = 0 ∧ (year % 100 ≠ 0 ∨ year % 400 = 0)

def monthDays (year : ℤ) : List ℤ :=
  [31, if leapYear year then 29 else 28, 31, 30, 31, 30, 31, 31, 30, 31, 30, 31]

def daysBefore (year : ℤ) (mon : ℕ) : ℤ :=
  365 * year + (year + 3) / 4 - (year + 99) / 100 + (year + 399) / 400 +
    ((monthDays year).take mon).sum

def timegm (tm : Tm) : ℤ :=
  let days := daysBefore (tm.year + 1900) tm.mon.toNat + (tm.mday - 1) - daysBefore 1970 0
  ((days * 24 + tm.hour) * 60 + tm.min) * 60 + tm.sec

def weekdayNames : List (List Char) :=
  [['S', 'u', 'n'], ['M', 'o', 'n'], ['T', 'u', 'e'], ['W', 'e', 'd'], ['T', 'h', 'u'],
    ['F', 'r', 'i'], ['S', 'a', 't']]

def monthNames : List (List Char) :=
  [['J', 'a', 'n'], ['F', 'e', 'b'], ['M', 'a', 'r'], ['A', 'p', 'r'], ['M', 'a', 'y'],
    ['J', 'u', 'n'], ['J', 'u', 'l'], ['A', 'u', 'g'], ['S', 'e', 'p'], ['O', 'c', 't'],
    ['N', 'o', 'v'], ['D', 'e', 'c']]

def digitChar (n : ℤ) : Char := Char.ofNat (48 + n.toNat)

def twoDigits (n : ℤ) : List Char := [digitChar (n / 10), digitChar (n % 10)]

def fourDigits (n : ℤ) : List Char := twoDigits (n / 100) ++ twoDigits (n % 100)

structure HttpDate where
  tm : Tm
  wday_mem : 0 ≤ tm.wday ∧ tm.wday ≤ 6
  mon_mem : 0 ≤ tm.mon ∧ tm.mon ≤ 11
  year_mem : -1900 ≤ tm.year ∧ tm.year ≤ 8099
  mday_mem : 1 ≤ tm.mday ∧ tm.mday ≤ (monthDays (tm.year + 1900)).getD tm.mon.toNat 0
  hour_mem : 0 ≤ tm.hour ∧ tm.hour ≤ 23
  min_mem : 0 ≤ tm.min ∧ tm.min ≤ 59
  sec_mem : 0 ≤ tm.sec ∧ tm.sec ≤ 60

def HttpDate.text (date : HttpDate) : List Byte :=
  (weekdayNames.getD date.tm.wday.toNat [] ++ [',', ' '] ++ twoDigits date.tm.mday ++ [' '] ++
    monthNames.getD date.tm.mon.toNat [] ++ [' '] ++ fourDigits (date.tm.year + 1900) ++ [' '] ++
    twoDigits date.tm.hour ++ [':'] ++ twoDigits date.tm.min ++ [':'] ++ twoDigits date.tm.sec ++
    [' ', 'G', 'M', 'T']).map chr

def Denotes (value : List Byte) (mtime : ℤ) : Prop :=
  ∃ date : HttpDate, value = date.text ∧ timegm date.tm = mtime

def NotModifiedDue (ps : List ParsedHeader) (mtime : ℤ) : Prop :=
  ∃ p ∈ ps, p.key = ifModifiedSinceName ∧ Denotes p.value mtime

structure NotModifiedDecided (env : HandleEnv) (ps : List ParsedHeader) (out : SgxHttpOut) :
    Prop where
  due : NotModifiedDue ps out.mtime →
    let after := (handleEntries env 0 (ps.map ParsedHeader.head) out).1
    after.modified = 0 ∧ after.status = sgxHttpNotModified
  other : ¬ NotModifiedDue ps out.mtime →
    let after := (handleEntries env 0 (ps.map ParsedHeader.head) out).1
    after.modified = 1 ∧ after.status = 0

def ClientTime (env : HandleEnv) (k : ℕ) (head : SgxHttpHeader) (time : ℤ) : Prop :=
  ∃ tm, env.lib.strptime (env.chars head.valueStart) "%a, %d %b %Y %H:%M:%S GMT" (env.stale k) =
    some tm ∧ env.lib.mktime tm = time

theorem sameTime_iff {mtime clientTime : ℤ} : sameTime mtime clientTime ↔ clientTime = mtime := by
  rw [sameTime]
  have hnonneg := abs_nonneg (mtime - clientTime)
  constructor
  · intro h
    have hzero : |mtime - clientTime| = 0 := by omega
    exact (Int.sub_eq_zero.mp (abs_eq_zero.mp hzero)).symm
  · rintro rfl
    rw [Int.sub_self, abs_zero]
    decide

theorem handleEntry_frame (env : HandleEnv) (tm : Tm) (head : SgxHttpHeader) (out : SgxHttpOut) :
    (handleEntry env tm head out).1.status = out.status ∧
      (handleEntry env tm head out).1.mtime = out.mtime := by
  rw [handleEntry_eq]
  split_ifs
  · exact ⟨rfl, rfl⟩
  · rcases connectionHandler_cases (callFor env tm head) out with h | h
    all_goals rw [h]; exact ⟨rfl, rfl⟩
  · rcases sinceHandler_cases (callFor env tm head) out with h | h
    all_goals rw [h]; exact ⟨rfl, rfl⟩
  · exact ⟨rfl, rfl⟩

theorem handleEntries_frame (env : HandleEnv) (k : ℕ) (heads : List SgxHttpHeader)
    (out : SgxHttpOut) : (handleEntries env k heads out).1.status = out.status ∧
      (handleEntries env k heads out).1.mtime = out.mtime := by
  induction heads generalizing k out with
  | nil => exact ⟨rfl, rfl⟩
  | cons head rest ih =>
    obtain ⟨hstatus, hmtime⟩ := handleEntry_frame env (env.stale k) head out
    rw [handleEntries]
    exact ⟨(ih (k + 1) _).1.trans hstatus, (ih (k + 1) _).2.trans hmtime⟩

theorem sinceHandler_modified (env : HandleEnv) (k : ℕ) (head : SgxHttpHeader) (out : SgxHttpOut) :
    (sgxHttpProcessIfModifiedSince (callFor env (env.stale k) head) out).modified = 1 ↔
      out.modified = 1 ∧ ¬ ClientTime env k head out.mtime := by
  have hread : (callFor env (env.stale k) head).lib.strptime (callFor env (env.stale k) head).data
      "%a, %d %b %Y %H:%M:%S GMT" (callFor env (env.stale k) head).tm =
    env.lib.strptime (env.chars head.valueStart) "%a, %d %b %Y %H:%M:%S GMT" (env.stale k) := rfl
  rw [sgxHttpProcessIfModifiedSince, hread, ClientTime]
  cases env.lib.strptime (env.chars head.valueStart) "%a, %d %b %Y %H:%M:%S GMT" (env.stale k) with
  | none => simp
  | some tm =>
    have hlib : (callFor env (env.stale k) head).lib = env.lib := rfl
    simp only [hlib, sameTime_iff, Option.some.injEq, exists_eq_left']
    by_cases hsame : env.lib.mktime tm = out.mtime
    · simp [hsame]
    · simp [hsame]

theorem handleEntry_modified (env : HandleEnv) (k : ℕ) (head : SgxHttpHeader) (out : SgxHttpOut) :
    (handleEntry env (env.stale k) head out).1.modified = 1 ↔ out.modified = 1 ∧
      ¬ (runsFor env head = [ifModifiedSinceName] ∧ ClientTime env k head out.mtime) := by
  have hhost : hostName ≠ ifModifiedSinceName := by decide
  have hconnection : connectionName ≠ ifModifiedSinceName := by decide
  rw [handleEntry_eq, runsFor]
  split_ifs
  · simp [hhost]
  · have hkept : (sgxHttpProcessConnection (callFor env (env.stale k) head) out).modified =
        out.modified := by
      rcases connectionHandler_cases (callFor env (env.stale k) head) out with h | h <;> rw [h]
    simp [hconnection, hkept]
  · simp [sinceHandler_modified]
  · simp

theorem handleEntries_modified (env : HandleEnv) (k : ℕ) (heads : List SgxHttpHeader)
    (out : SgxHttpOut) : (handleEntries env k heads out).1.modified = 1 ↔ out.modified = 1 ∧
      ∀ i head, heads[i]? = some head →
        ¬ (runsFor env head = [ifModifiedSinceName] ∧ ClientTime env (k + i) head out.mtime) := by
  induction heads generalizing k out with
  | nil => simp [handleEntries]
  | cons head rest ih =>
    rw [handleEntries, ih, handleEntry_modified, (handleEntry_frame env _ head out).2, and_assoc]
    refine and_congr_right fun _ => ?_
    constructor
    · rintro ⟨hfirst, hrest⟩ i other hother
      cases i with
      | zero =>
        obtain rfl : head = other := Option.some.inj hother
        exact hfirst
      | succ i =>
        rw [show k + (i + 1) = k + 1 + i by omega]
        exact hrest i other hother
    · intro hall
      refine ⟨hall 0 head rfl, fun i other hother => ?_⟩
      rw [show k + 1 + i = k + (i + 1) by omega]
      exact hall (i + 1) other hother

theorem runsFor_since_iff {env : HandleEnv} {p : ParsedHeader} (h : Parsed env.request p) :
    runsFor env p.head = [ifModifiedSinceName] ↔
      p.key ≠ [] ∧ KeyTaken env p ifModifiedSinceName := by
  have hmem : ifModifiedSinceName ∈ handlerNames := by decide
  rcases runsFor_cases env p.head with ⟨first, hfirst, hmatch, hruns⟩ | ⟨hruns, hnone⟩
  · have htaken := (nameMatches_iff h hfirst).mp hmatch
    rw [hruns]
    constructor
    · intro heq
      rw [List.singleton_inj.mp heq] at htaken
      refine ⟨fun hnil => ?_, htaken⟩
      -- an empty key is taken for the first name of the table
      have hhost : KeyTaken env p hostName := keyTaken_empty h hnil hostName
      have hmatch' := (nameMatches_iff h (by decide)).mpr hhost
      rw [runsFor, if_pos hmatch', heq] at hruns
      exact absurd hruns (by decide)
    · rintro ⟨hne, hkey⟩
      rw [keyTaken_unique h hfirst hmem hne htaken hkey]
  · rw [hruns]
    constructor
    · exact fun heq => absurd heq (List.cons_ne_nil _ []).symm
    · exact fun hkey => absurd ((nameMatches_iff h hmem).mpr hkey.2) (hnone _ hmem)

theorem not_modified_decided_iff {env : HandleEnv} {ps : List ParsedHeader}
    (hparsed : ∀ p ∈ ps, Parsed env.request p) (out : SgxHttpOut) (fd : ℤ) :
    NotModifiedDecided env ps (sgxInitOut out fd).2 ↔
      ¬ NotModifiedDue ps out.mtime ∧ ∀ k p, ps[k]? = some p → p.key ≠ [] →
        KeyTaken env p ifModifiedSinceName → ¬ ClientTime env k p.head out.mtime := by
  have hstatus : (handleEntries env 0 (ps.map ParsedHeader.head) (sgxInitOut out fd).2).1.status = 0 :=
    (handleEntries_frame env 0 _ _).1
  have hmodified : (handleEntries env 0 (ps.map ParsedHeader.head) (sgxInitOut out fd).2).1.modified =
      1 ↔ ∀ k p, ps[k]? = some p → p.key ≠ [] → KeyTaken env p ifModifiedSinceName →
        ¬ ClientTime env k p.head out.mtime := by
    have hstart : (sgxInitOut out fd).2.modified = 1 := rfl
    rw [handleEntries_modified, and_iff_right hstart]
    constructor
    · intro hall k p hp hne hkey htime
      have hruns := (runsFor_since_iff (hparsed p (List.mem_of_getElem? hp))).mpr ⟨hne, hkey⟩
      have hhead : (ps.map ParsedHeader.head)[k]? = some p.head := by
        rw [List.getElem?_map, hp, Option.map_some]
      refine hall k p.head hhead ⟨hruns, ?_⟩
      rwa [Nat.zero_add]
    · rintro hall k head hhead ⟨hruns, htime⟩
      rw [List.getElem?_map, Option.map_eq_some_iff] at hhead
      obtain ⟨p, hp, rfl⟩ := hhead
      obtain ⟨hne, hkey⟩ := (runsFor_since_iff (hparsed p (List.mem_of_getElem? hp))).mp hruns
      rw [Nat.zero_add] at htime
      exact hall k p hp hne hkey htime
  constructor
  · intro h
    have hdue : ¬ NotModifiedDue ps out.mtime := by
      intro hdue
      have hset := (h.due hdue).2
      rw [hstatus] at hset
      exact absurd hset (by decide)
    exact ⟨hdue, hmodified.mp (h.other hdue).1⟩
  · rintro ⟨hdue, hall⟩
    exact ⟨fun h => absurd h hdue, fun _ => ⟨hmodified.mpr hall, hstatus⟩⟩

def epochDate : HttpDate where
  tm := ⟨0, 0, 0, 1, 0, 70, 4, 0, 0⟩
  wday_mem := by decide
  mon_mem := by decide
  year_mem := by decide
  mday_mem := by decide
  hour_mem := by decide
  min_mem := by decide
  sec_mem := by decide

example : epochDate.text = ['T', 'h', 'u', ',', ' ', '0', '1', ' ', 'J', 'a', 'n', ' ', '1', '9',
    '7', '0', ' ', '0', '0', ':', '0', '0', ':', '0', '0', ' ', 'G', 'M', 'T'].map chr := by
  decide

example : timegm ⟨40, 46, 1, 9, 8, 101, 0, 251, 0⟩ = 1000000000 := by decide

def gmtLib (date : HttpDate) : TimeLib where
  strptime data _ tm :=
    if ∀ i < date.text.length, date.text[i]? = some (data i) then
      some { date.tm with yday := tm.yday, isdst := tm.isdst }
    else none
  mktime := timegm

def sinceEnv (date : HttpDate) : HandleEnv :=
  { plainEnv (storedRequest ifModifiedSinceName date.text) with lib := gmtLib date }

theorem not_modified_decided_iff_epoch :
    let p := storedHeader ifModifiedSinceName epochDate.text
    Parsed (sinceEnv epochDate).request p ∧
      (NotModifiedDecided (sinceEnv epochDate) [p] (sgxInitOut ⟨0, 0, 0, 0, 0⟩ 5).2 ↔
        ¬ NotModifiedDue [p] 0 ∧ ∀ k q, [p][k]? = some q → q.key ≠ [] →
          KeyTaken (sinceEnv epochDate) q ifModifiedSinceName →
          ¬ ClientTime (sinceEnv epochDate) k q.head 0) := by
  intro p
  have hp : Parsed (sinceEnv epochDate).request p := storedHeader_parsed (by decide)
  refine ⟨hp, not_modified_decided_iff (fun q hq => ?_) ⟨0, 0, 0, 0, 0⟩ 5⟩
  rwa [List.mem_singleton.mp hq]

theorem not_modified_status_stays :
    let p := storedHeader ifModifiedSinceName epochDate.text
    let after := (handleEntries (sinceEnv epochDate) 0 [p.head] (sgxInitOut ⟨0, 0, 0, 0, 0⟩ 5).2).1
    Parsed (sinceEnv epochDate).request p ∧ NotModifiedDue [p] 0 ∧
      after.modified = 0 ∧ after.status = 0 ∧
      ¬ NotModifiedDecided (sinceEnv epochDate) [p] (sgxInitOut ⟨0, 0, 0, 0, 0⟩ 5).2 := by
  intro p after
  have hdue : NotModifiedDue [p] 0 :=
    ⟨p, List.mem_singleton_self p, rfl, epochDate, rfl, by decide⟩
  have hstatus : after.status = 0 := (handleEntries_frame (sinceEnv epochDate) 0 [p.head] _).1
  refine ⟨storedHeader_parsed (by decide), hdue, by decide, hstatus, fun h => ?_⟩
  have hset : after.status = sgxHttpNotModified := (h.due hdue).2
  rw [hstatus] at hset
  exact absurd hset (by decide)

end Sginx.Http
