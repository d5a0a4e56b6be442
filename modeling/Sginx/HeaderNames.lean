import Sginx.HandleHeader

namespace Sginx.Http

open Sginx.Library.CString Sginx.Library.RingBuffer

structure ParsedHeader where
  head : SgxHttpHeader
  key : List Byte
  value : List Byte

def SliceOf (request : SgxHttpRequest) (start stop : Ptr) (text : List Byte) : Prop :=
  ∃ i, start = ptrAt i ∧ stop = ptrAt (i + text.length) ∧ text.length < sgxMaxBuf ∧
    Holds request.buf i text

structure Parsed (request : SgxHttpRequest) (p : ParsedHeader) : Prop where
  key : SliceOf request p.head.keyStart p.head.keyEnd p.key
  value : SliceOf request p.head.valueStart p.head.valueEnd p.value

/-- A text is taken for a name when one is the beginning of the other, the `NUL` of the name
included. One whose end lies before its start in the buffer has no length that stops the comparison,
and then the memory from its start on must hold the name with the `NUL`. -/
def TextTaken (fold : Byte → Byte) (env : HandleEnv) (start stop : Ptr) (text name : List Byte) :
    Prop :=
  if ptrDiff stop start < 0 then ∀ i ≤ name.length, fold (env.chars start i) = fold (literal name i)
  else text.map fold <+: (name ++ [0]).map fold ∨ (name ++ [0]).map fold <+: text.map fold

def KeyTaken (env : HandleEnv) (p : ParsedHeader) (name : List Byte) : Prop :=
  TextTaken id env p.head.keyStart p.head.keyEnd p.key name

def handlerNames : List (List Byte) := [hostName, connectionName, ifModifiedSinceName]

theorem ptrDiff_slice {request : SgxHttpRequest} {start stop : Ptr} {text : List Byte}
    (h : SliceOf request start stop text) :
    ptrDiff stop start = text.length ∨
      ptrDiff stop start < 0 ∧ ptrDiff stop start = text.length - sgxMaxBuf := by
  obtain ⟨i, rfl, rfl, hlen, -⟩ := h
  have hsub := slot_sub (M := sgxMaxBuf) (Nat.le_add_right i text.length) (by omega)
  have hdiff : ptrDiff (ptrAt (i + text.length)) (ptrAt i) =
      ((i + text.length) % sgxMaxBuf : ℕ) - (i % sgxMaxBuf : ℕ) := rfl
  rw [hdiff, hsub]
  split_ifs
  · right
    omega
  · left
    omega

theorem ptrDiff_bounds {request : SgxHttpRequest} {start stop : Ptr} {text : List Byte}
    (h : SliceOf request start stop text) :
    -8124 ≤ ptrDiff stop start ∧ ptrDiff stop start < 8124 := by
  have hsize := ptrDiff_slice h
  obtain ⟨i, -, -, hlen, -⟩ := h
  simp only [sgxMaxBuf] at hlen hsize
  omega

theorem sizeOfInt_of_nonneg {x : ℤ} (h : 0 ≤ x) (hlt : x < sizeMod) : sizeOfInt x = x.toNat := by
  rw [sizeOfInt, Int.emod_eq_of_lt h hlt]

theorem lt_sizeOfInt_of_neg {x : ℤ} (h : x < 0) (hlow : -2 ^ 31 ≤ x) : 2 ^ 31 < sizeOfInt x := by
  have hmod : x % (sizeMod : ℤ) = x + sizeMod := by
    rw [← Int.add_emod_right]
    apply Int.emod_eq_of_lt <;> simp only [sizeMod] <;> omega
  rw [sizeOfInt, hmod]
  simp only [sizeMod]
  omega

theorem chars_slice {env : HandleEnv} {start stop : Ptr} {text : List Byte}
    (h : SliceOf env.request start stop text) (hdiff : 0 ≤ ptrDiff stop start) :
    ∀ i < text.length, text[i]? = some (env.chars start i) := by
  intro k hk
  have hsize := ptrDiff_slice h
  obtain ⟨i, rfl, rfl, hlen, hholds⟩ := h
  have hrange : ptrDiff (ptrAt (i + text.length)) (ptrAt i) =
      ((i + text.length) % sgxMaxBuf : ℕ) - (i % sgxMaxBuf : ℕ) := rfl
  have hmod := Nat.mod_lt i (show 0 < sgxMaxBuf by decide)
  have hmod' := Nat.mod_lt (i + text.length) (show 0 < sgxMaxBuf by decide)
  have hslot : (i + k) % sgxMaxBuf = i % sgxMaxBuf + k := by
    rw [Nat.add_mod, Nat.mod_eq_of_lt (show k < sgxMaxBuf by omega), Nat.mod_eq_of_lt]
    omega
  rw [hholds k hk]
  have hat : (0 : ℤ) ≤ (i % sgxMaxBuf : ℕ) + (k : ℤ) ∧
      ((i % sgxMaxBuf : ℕ) + (k : ℤ)).toNat < sgxMaxBuf := by omega
  change _ = some ((byteAt env.request ((i % sgxMaxBuf : ℕ) + (k : ℤ))).getD _)
  rw [byteAt, dif_pos hat, Option.getD_some]
  congr 2
  apply Fin.ext
  rw [slot_val, hslot]
  change _ = ((i % sgxMaxBuf : ℕ) + (k : ℤ)).toNat
  omega

theorem agreeTo_slice {fold : Byte → Byte} {env : HandleEnv} {start stop : Ptr} {text : List Byte}
    (h : SliceOf env.request start stop text) {name : List Byte} (hname : name.length < 2 ^ 31) :
    AgreeTo fold (sizeOfInt (ptrDiff stop start)) (env.chars start) name ↔
      TextTaken fold env start stop text name := by
  have hbounds := ptrDiff_bounds h
  rw [TextTaken]
  rcases ptrDiff_slice h with hsize | ⟨hneg, -⟩
  · have hpos : 0 ≤ ptrDiff stop start := by omega
    have hlt : ptrDiff stop start < sizeMod := by
      simp only [sizeMod]
      omega
    rw [if_neg (Int.not_lt.mpr hpos), ← agreeTo_iff_prefix (chars_slice h hpos),
      sizeOfInt_of_nonneg hpos hlt, hsize, Int.toNat_natCast]
  · have hbig := lt_sizeOfInt_of_neg hneg (by omega)
    rw [if_pos hneg]
    constructor
    · exact fun hall i hi => hall i (by omega) hi
    · exact fun hall i _ hi => hall i hi

theorem handlerNames_plain : ∀ name ∈ handlerNames, 0 ∉ name ∧ name.length < 2 ^ 31 := by
  decide

theorem handlerNames_first : ∀ name ∈ handlerNames, ∀ other ∈ handlerNames,
    literal name 0 = literal other 0 → name = other := by
  decide

theorem handlerNames_ne_nil : ∀ name ∈ handlerNames, name ≠ [] := by
  decide

theorem nameMatches_iff {env : HandleEnv} {p : ParsedHeader} (h : Parsed env.request p)
    {name : List Byte} (hname : name ∈ handlerNames) :
    nameMatches env p.head name = true ↔ KeyTaken env p name := by
  obtain ⟨hzero, hlen⟩ := handlerNames_plain name hname
  rw [nameMatches, decide_eq_true_iff, strncmp_eq_zero_iff hzero, agreeTo_slice h.key hlen]
  rfl

theorem keyTaken_unique {env : HandleEnv} {p : ParsedHeader} (h : Parsed env.request p)
    {name other : List Byte} (hname : name ∈ handlerNames) (hother : other ∈ handlerNames)
    (hkey : p.key ≠ []) (htaken : KeyTaken env p name) (htaken' : KeyTaken env p other) :
    name = other := by
  have hagree := (agreeTo_slice h.key (handlerNames_plain name hname).2).mpr htaken
  have hagree' := (agreeTo_slice h.key (handlerNames_plain other hother).2).mpr htaken'
  have hbounds := ptrDiff_bounds h.key
  have hpos : 0 < sizeOfInt (ptrDiff p.head.keyEnd p.head.keyStart) := by
    have hlen := List.length_pos_of_ne_nil hkey
    rcases ptrDiff_slice h.key with hsize | ⟨hneg, -⟩
    · rw [sizeOfInt_of_nonneg (by omega) (by simp only [sizeMod]; omega)]
      omega
    · have hbig := lt_sizeOfInt_of_neg hneg (by omega)
      omega
  -- the names of the table differ in their first letters
  have h0 := hagree 0 hpos (Nat.zero_le _)
  have h0' := hagree' 0 hpos (Nat.zero_le _)
  exact handlerNames_first name hname other hother (h0.symm.trans h0')

theorem keyTaken_empty {env : HandleEnv} {p : ParsedHeader} (h : Parsed env.request p)
    (hkey : p.key = []) (name : List Byte) : KeyTaken env p name := by
  have hdiff : ptrDiff p.head.keyEnd p.head.keyStart = 0 := by
    obtain ⟨i, hstart, hstop, -⟩ := h.key
    rw [hstart, hstop, hkey]
    exact Int.sub_self _
  rw [KeyTaken, TextTaken, hdiff, if_neg (lt_irrefl 0), hkey]
  exact .inl List.nil_prefix

def runsFor (env : HandleEnv) (head : SgxHttpHeader) : List (List Byte) :=
  if nameMatches env head hostName then [hostName]
  else if nameMatches env head connectionName then [connectionName]
  else if nameMatches env head ifModifiedSinceName then [ifModifiedSinceName]
  else []

def callFor (env : HandleEnv) (tm : Tm) (head : SgxHttpHeader) : HandlerCall :=
  ⟨env.lib, tm, env.chars head.valueStart, cInt (ptrDiff head.valueEnd head.valueStart)⟩

theorem connectionHandler_cases (call : HandlerCall) (out : SgxHttpOut) :
    sgxHttpProcessConnection call out = out ∨
      sgxHttpProcessConnection call out = { out with keepAlive := 1 } := by
  rw [sgxHttpProcessConnection]
  split_ifs
  · exact .inr rfl
  · exact .inl rfl

theorem sinceHandler_cases (call : HandlerCall) (out : SgxHttpOut) :
    sgxHttpProcessIfModifiedSince call out = out ∨
      sgxHttpProcessIfModifiedSince call out = { out with modified := 0 } := by
  rw [sgxHttpProcessIfModifiedSince]
  cases call.lib.strptime call.data "%a, %d %b %Y %H:%M:%S GMT" call.tm with
  | none => exact .inl rfl
  | some tm =>
    simp only
    split_ifs
    · exact .inr rfl
    · exact .inl rfl

theorem handleEntry_eq (env : HandleEnv) (tm : Tm) (head : SgxHttpHeader) (out : SgxHttpOut) :
    handleEntry env tm head out =
      (if nameMatches env head hostName then (out, [hostName])
      else if nameMatches env head connectionName then
        (sgxHttpProcessConnection (callFor env tm head) out, [connectionName])
      else if nameMatches env head ifModifiedSinceName then
        (sgxHttpProcessIfModifiedSince (callFor env tm head) out, [ifModifiedSinceName])
      else (out, [])) := rfl

theorem handleEntry_runs (env : HandleEnv) (tm : Tm) (head : SgxHttpHeader) (out : SgxHttpOut) :
    (handleEntry env tm head out).2 = runsFor env head := by
  rw [handleEntry_eq, runsFor]
  split_ifs <;> rfl

theorem handleEntries_runs (env : HandleEnv) (k : ℕ) (heads : List SgxHttpHeader)
    (out : SgxHttpOut) : (handleEntries env k heads out).2 = heads.map (runsFor env) := by
  induction heads generalizing k out with
  | nil => rfl
  | cons head rest ih =>
    rw [handleEntries, List.map_cons]
    exact congrArg₂ _ (handleEntry_runs env _ head out) (ih (k + 1) _)

theorem runsFor_cases (env : HandleEnv) (head : SgxHttpHeader) :
    (∃ name ∈ handlerNames, nameMatches env head name = true ∧ runsFor env head = [name]) ∨
      runsFor env head = [] ∧ ∀ name ∈ handlerNames, nameMatches env head name ≠ true := by
  rw [runsFor]
  by_cases hhost : nameMatches env head hostName = true
  · exact .inl ⟨hostName, by decide, hhost, if_pos hhost⟩
  by_cases hconn : nameMatches env head connectionName = true
  · exact .inl ⟨connectionName, by decide, hconn, by rw [if_neg hhost, if_pos hconn]⟩
  by_cases hsince : nameMatches env head ifModifiedSinceName = true
  · exact .inl ⟨ifModifiedSinceName, by decide, hsince, by
      rw [if_neg hhost, if_neg hconn, if_pos hsince]⟩
  · refine .inr ⟨by rw [if_neg hhost, if_neg hconn, if_neg hsince], fun name hname => ?_⟩
    simp only [handlerNames, List.mem_cons, List.not_mem_nil, or_false] at hname
    rcases hname with rfl | rfl | rfl
    · exact hhost
    · exact hconn
    · exact hsince

def WholeName (env : HandleEnv) (p : ParsedHeader) : Prop :=
  ∀ name ∈ handlerNames, KeyTaken env p name → p.key = name

theorem wholeName_iff {env : HandleEnv} {p : ParsedHeader} (h : Parsed env.request p) :
    ((runsFor env p.head).length ≤ 1 ∧ ∀ name ∈ runsFor env p.head, name = p.key) ↔
      WholeName env p := by
  rcases runsFor_cases env p.head with ⟨first, hfirst, hmatch, hruns⟩ | ⟨hruns, hnone⟩
  · have htaken := (nameMatches_iff h hfirst).mp hmatch
    rw [hruns]
    constructor
    · rintro ⟨-, hall⟩ name hname hkey
      have hwhole : first = p.key := hall first (List.mem_singleton_self first)
      have hne : p.key ≠ [] := hwhole ▸ handlerNames_ne_nil first hfirst
      rw [← hwhole]
      exact keyTaken_unique h hfirst hname hne htaken hkey
    · intro hall
      refine ⟨le_refl 1, fun name hname => ?_⟩
      rw [List.mem_singleton.mp hname]
      exact (hall first hfirst htaken).symm
  · rw [hruns]
    constructor
    · exact fun _ name hname hkey => absurd ((nameMatches_iff h hname).mpr hkey) (hnone name hname)
    · exact fun _ => ⟨Nat.zero_le 1, fun name hname => absurd hname List.not_mem_nil⟩

theorem runsFor_eq_iff {env : HandleEnv} {p : ParsedHeader} (h : Parsed env.request p)
    (hwhole : WholeName env p) {name : List Byte} (hname : name ∈ handlerNames) :
    runsFor env p.head = [name] ↔ KeyTaken env p name := by
  rcases runsFor_cases env p.head with ⟨first, hfirst, hmatch, hruns⟩ | ⟨hruns, hnone⟩
  · have htaken := (nameMatches_iff h hfirst).mp hmatch
    rw [hruns]
    constructor
    · rintro heq
      rwa [List.singleton_inj.mp heq] at htaken
    · intro hkey
      rw [← hwhole first hfirst htaken, hwhole name hname hkey]
  · rw [hruns]
    constructor
    · exact fun heq => absurd heq (List.cons_ne_nil name []).symm
    · exact fun hkey => absurd ((nameMatches_iff h hname).mpr hkey) (hnone name hname)

def storedRequest (key value : List Byte) : SgxHttpRequest :=
  { zeroRequest with buf := putAll zeroRequest.buf 0 (key ++ chr ':' :: chr ' ' :: value) }

def storedHeader (key value : List Byte) : ParsedHeader where
  head := ⟨ptrAt 0, ptrAt key.length, ptrAt (key.length + 2),
    ptrAt (key.length + 2 + value.length)⟩
  key := key
  value := value

theorem storedHeader_parsed {key value : List Byte}
    (hlen : key.length + value.length + 2 < sgxMaxBuf) :
    Parsed (storedRequest key value) (storedHeader key value) := by
  have hall : Holds (storedRequest key value).buf 0 (key ++ chr ':' :: chr ' ' :: value) := by
    apply (holds_nil zeroRequest.buf 0).putAll
    simp only [List.length_nil, List.length_append, List.length_cons]
    omega
  have hdrop := hall.drop (key.length + 2)
  rw [← List.drop_drop, List.drop_left, Nat.zero_add] at hdrop
  have hkey : key.length < sgxMaxBuf := by omega
  have hvalue : value.length < sgxMaxBuf := by omega
  refine ⟨⟨0, rfl, ?_, hkey, hall.append_left⟩, ⟨key.length + 2, rfl, rfl, hvalue, hdrop⟩⟩
  rw [Nat.zero_add]
  rfl

end Sginx.Http
