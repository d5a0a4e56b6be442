import Sginx.Library.FirstMatch
import Sginx.RequestDispatch

/-!
The environment that the child of `sgx_request_cgi` leaves to the program. `putenv` puts the array
itself into `environ`, so that a later `sprintf` into the array changes what stands there.
-/

namespace Sginx.Mini

open Sginx.Http (Byte chr)
open Sginx.Library.CString (strcasecmp strcasecmp_eq_zero_iff takeWhile_stop takeWhile_without_nul
  nul_notMem_takeWhile tolower)
open Sginx.Library.FirstMatch

inductive EnvEntry where
  | inherited (text : List Byte)
  | sgxBuf

def EnvEntry.text (buf : CharBuf) : EnvEntry → List Byte
  | .inherited text => text
  | .sgxBuf => cString buf 0 1024

def named (name text : List Byte) : Bool := decide (name ++ [chr '='] <+: text)

def getenv (environ : List (List Byte)) (name : List Byte) : Option (List Byte) :=
  (environ.find? (named name)).map (List.drop (name.length + 1))

/-- `putenv(sgx_buf)`. A string without a `=` takes the entries of that name away. -/
def putenv (buf : CharBuf) (environ : List EnvEntry) : List EnvEntry :=
  let name := (cString buf 0 1024).takeWhile (· ≠ chr '=')
  if chr '=' ∈ cString buf 0 1024 then
    putFirst (fun entry => named name (entry.text buf)) .sgxBuf environ
  else environ.filter fun entry => ¬ named name (entry.text buf)

/-- There is no bound on what `sprintf` writes. -/
def sprintf (buf : CharBuf) (text : List Byte) : Option CharBuf :=
  if text.length < 1024 then some (pieceRead text buf) else none

def requestMethod : List Byte := "REQUEST_METHOD".toList.map chr

def contentLengthName : List Byte := "CONTENT_LENGTH".toList.map chr

def queryString : List Byte := "QUERY_STRING".toList.map chr

def setting (name value : List Byte) : List Byte := name ++ chr '=' :: value

/-- The entries when `execl` is called, or none where the behaviour is undefined. -/
def cgiEnvironment (environ : List (List Byte)) (buf : CharBuf) (type : List Byte)
    (query : Option (List Byte)) (contlen : ℤ) : Option (List (List Byte)) := do
  let buf ← sprintf buf (setting requestMethod type)
  let entries := putenv buf (environ.map .inherited)
  let buf ←
    if strcasecmp buf post = 0 then
      sprintf buf (setting contentLengthName ((toString contlen).toList.map chr))
    else query.bind fun query => sprintf buf (setting queryString query)
  some ((putenv buf entries).map (EnvEntry.text buf))

theorem setting_length (name value : List Byte) :
    (setting name value).length = name.length + value.length + 1 := by
  rw [setting, List.length_append, List.length_cons, Nat.add_assoc]

theorem setting_name {name : List Byte} (h : chr '=' ∉ name) (value : List Byte) :
    (setting name value).takeWhile (· ≠ chr '=') = name := by
  rw [setting, takeWhile_stop (by decide)]
  apply List.takeWhile_eq_self_iff.mpr
  intro c hc
  rw [decide_eq_true_eq]
  rintro rfl
  exact h hc

theorem named_setting {name : List Byte} (hname : chr '=' ∉ name) {other : List Byte}
    (hother : chr '=' ∉ other) (value : List Byte) :
    named other (setting name value) = decide (other = name) := by
  apply decide_eq_decide.mpr
  constructor
  · rintro ⟨rest, hrest⟩
    rw [List.append_assoc, List.singleton_append] at hrest
    have hnames := congrArg (List.takeWhile (· ≠ chr '=')) hrest
    rwa [setting_name hname, ← setting, setting_name hother] at hnames
  · rintro rfl
    exact ⟨value, by rw [List.append_assoc, List.singleton_append, setting]⟩

theorem named_unique {name other text : List Byte} (hname : chr '=' ∉ name)
    (hother : chr '=' ∉ other) (hne : other ≠ name) (h : named name text = true) :
    named other text = false := by
  obtain ⟨rest, rfl⟩ := of_decide_eq_true h
  rw [List.append_assoc, List.singleton_append]
  exact (named_setting hname hother rest).trans (decide_eq_false hne)

theorem cString_setting {name value : List Byte} (hname : 0 ∉ name) (hvalue : 0 ∉ value)
    (hlen : (setting name value).length < 1024) (buf : CharBuf) :
    cString (pieceRead (setting name value) buf) 0 1024 = setting name value := by
  rw [cString_pieceRead buf hlen]
  apply takeWhile_without_nul
  rw [setting, List.mem_append, List.mem_cons]
  rintro (h | h | h)
  · exact hname h
  · exact absurd h (by decide)
  · exact hvalue h

theorem putenv_text {buf : CharBuf} {name value : List Byte} (hname : chr '=' ∉ name)
    (hbuf : cString buf 0 1024 = setting name value) {buf' : CharBuf} {environ : List EnvEntry}
    (h : ∀ entry ∈ environ, entry.text buf = entry.text buf') :
    (putenv buf environ).map (EnvEntry.text buf') =
      putFirst (named name) (cString buf' 0 1024) (environ.map (EnvEntry.text buf')) := by
  have hmark : chr '=' ∈ setting name value := by simp [setting]
  rw [putenv, hbuf, if_pos hmark, setting_name hname]
  apply map_putFirst
  intro entry hentry
  rw [h entry hentry]

theorem not_post (value : List Byte) (buf : CharBuf) :
    strcasecmp (pieceRead (setting requestMethod value) buf) post ≠ 0 := by
  rw [Ne, strcasecmp_eq_zero_iff (by decide)]
  intro h
  have hfirst := h 0 (Nat.succ_pos _) (Nat.zero_le _)
  rw [pieceRead_at buf (by rw [setting_length]; exact Nat.succ_pos _)] at hfirst
  exact absurd (show tolower (chr 'R') = tolower (chr 'P') from hfirst) (by decide)

theorem cgiEnvironment_eq (environ : List (List Byte)) (buf : CharBuf) {type query : List Byte}
    (contlen : ℤ) (htype : 0 ∉ type) (hquery : 0 ∉ query) (hshort : type.length < 1000)
    (hlen : query.length < 1000) :
    cgiEnvironment environ buf type (some query) contlen =
      some (putFirst (named queryString) (setting queryString query)
        (putFirst (named requestMethod) (setting queryString query) environ)) := by
  have hfirst : (setting requestMethod type).length < 1024 := by
    rw [setting_length, show requestMethod.length = 14 from rfl]
    omega
  have hsecond : (setting queryString query).length < 1024 := by
    rw [setting_length, show queryString.length = 12 from rfl]
    omega
  have htext := cString_setting (show 0 ∉ requestMethod by decide) htype hfirst buf
  have htext' := cString_setting (show 0 ∉ queryString by decide) hquery hsecond
    (pieceRead (setting requestMethod type) buf)
  have hinherited : (environ.map EnvEntry.inherited).map (EnvEntry.text (pieceRead
      (setting queryString query) (pieceRead (setting requestMethod type) buf))) = environ := by
    rw [List.map_map]
    exact List.map_id environ
  have hsame : ∀ entry ∈ environ.map EnvEntry.inherited, ∀ buf buf' : CharBuf,
      entry.text buf = entry.text buf' := by
    rw [List.forall_mem_map]
    exact fun _ _ _ _ => rfl
  simp only [cgiEnvironment, sprintf, if_pos hfirst, if_neg (not_post type buf), Option.bind_some,
    if_pos hsecond, Option.bind_eq_bind]
  rw [putenv_text (by decide) htext' fun _ _ => rfl,
    putenv_text (by decide) htext fun entry hentry => hsame entry hentry _ _, htext', hinherited]

section lookup

variable {name : List Byte} (value : List Byte) (environ : List (List Byte))

theorem getenv_put_self (hname : chr '=' ∉ name) :
    getenv (putFirst (named name) (setting name value) environ) name = some value := by
  have hself : named name (setting name value) = true := by simp [named_setting hname hname]
  rw [getenv, find?_putFirst_self hself]
  simp [setting, List.drop_append]

theorem getenv_put_other (hname : chr '=' ∉ name) {other replaced : List Byte}
    (hother : chr '=' ∉ other) (hreplaced : chr '=' ∉ replaced) (hne : other ≠ name)
    (hne' : other ≠ replaced) :
    getenv (putFirst (named replaced) (setting name value) environ) other =
      getenv environ other := by
  have hpass : named other (setting name value) = false := by
    rw [named_setting hname hother]
    exact decide_eq_false hne
  rw [getenv, find?_putFirst_other hpass fun text htext => named_unique hreplaced hother hne' htext,
    getenv]

theorem getenv_put_lost (hname : chr '=' ∉ name) {lost : List Byte} (hlost : chr '=' ∉ lost)
    (hne : lost ≠ name) :
    getenv (putFirst (named lost) (setting name value) environ) lost =
      getenv (environ.eraseP (named lost)) lost := by
  have hpass : named lost (setting name value) = false := by
    rw [named_setting hname hlost]
    exact decide_eq_false hne
  rw [getenv, find?_putFirst_erase hpass, getenv]

end lookup

theorem typeWord_nul (line : List Byte) : 0 ∉ typeWord line := nul_notMem_takeWhile _

theorem typeWord_length_le (line : List Byte) : (typeWord line).length ≤ 31 :=
  (List.takeWhile_prefix _).length_le.trans
    ((List.takeWhile_prefix _).length_le.trans (List.length_take_le 31 line))

theorem pathWord_length_le (line : List Byte) : (pathWord line).length ≤ 510 :=
  (List.takeWhile_prefix _).length_le.trans
    ((List.takeWhile_prefix _).length_le.trans (List.length_take_le 510 _))

structure Environment (environ : List (List Byte)) (query : List Byte)
    (environ' : List (List Byte)) : Prop where
  query : getenv environ' queryString = some query
  method : getenv environ' requestMethod =
    getenv (environ.eraseP (named requestMethod)) requestMethod
  others : ∀ name, chr '=' ∉ name → name ≠ queryString → name ≠ requestMethod →
    getenv environ' name = getenv environ name

theorem environment_of_put (environ : List (List Byte)) (query : List Byte) :
    Environment environ query (putFirst (named queryString) (setting queryString query)
      (putFirst (named requestMethod) (setting queryString query) environ)) := by
  have hquery : chr '=' ∉ queryString := by decide
  have hmethod : chr '=' ∉ requestMethod := by decide
  have hne : requestMethod ≠ queryString := by decide
  constructor
  · exact getenv_put_self query _ hquery
  · rw [getenv_put_other query _ hquery hmethod hquery hne hne,
      getenv_put_lost query _ hquery hmethod hne]
  · intro name hname hnot hnot'
    rw [getenv_put_other query _ hquery hname hquery hnot hnot,
      getenv_put_other query _ hquery hname hmethod hnot hnot']

theorem program_environment (environ : List (List Byte)) (buf : CharBuf) (line : List Byte)
    (contlen : ℤ) :
    (Named line post → cgiEnvironment environ buf (typeWord line) (queryText line) contlen = none) ∧
    (¬ Named line post → ∃ query environ', queryText line = some query ∧
      cgiEnvironment environ buf (typeWord line) (queryText line) contlen = some environ' ∧
      Environment environ query environ') := by
  have htype := typeWord_length_le line
  constructor
  · intro hpost
    have hfits : (setting requestMethod (typeWord line)).length < 1024 := by
      rw [setting_length, show requestMethod.length = 14 from rfl]
      omega
    rw [queryText, if_pos hpost]
    simp only [cgiEnvironment, sprintf, if_pos hfits, if_neg (not_post _ buf), Option.bind_some,
      Option.bind_none, Option.bind_eq_bind]
  · intro hpost
    have hquery : queryText line = some ((pathWord line).drop ((target line).length + 1)) :=
      if_neg hpost
    have hlen : ((pathWord line).drop ((target line).length + 1)).length < 1000 := by
      have hpath := pathWord_length_le line
      rw [List.length_drop]
      omega
    have hnul : 0 ∉ (pathWord line).drop ((target line).length + 1) :=
      fun h => nul_notMem_takeWhile _ (List.mem_of_mem_drop h)
    refine ⟨_, _, hquery, ?_, environment_of_put environ _⟩
    rw [hquery]
    exact cgiEnvironment_eq environ buf contlen (typeWord_nul line) hnul (by omega) hlen

end Sginx.Mini
