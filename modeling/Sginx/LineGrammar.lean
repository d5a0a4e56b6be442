import Sginx.FollowedLine
import Sginx.Library.ScannerLanguage

namespace Sginx.Http

open Sginx.Library.RingBuffer Sginx.Library.Scanning
open scoped Computability

def space : Language Byte := symbols (· = chr ' ')

def lineEnds : Language Byte := (symbols (fun c => c = cr ∨ c = lf))∗

def methodOver (m : Byte → Prop) : Language Byte := symbols m * (symbols m)∗

def uri : Language Byte := symbols (· = chr '/') * (symbols (· ≠ chr ' '))∗

def httpSlash : Language Byte := {[chr 'H', chr 'T', chr 'T', chr 'P', chr '/']}

def digit : Language Byte := symbols (fun c => chr '0' ≤ c ∧ c ≤ chr '9')

def major : Language Byte := symbols (fun c => chr '1' ≤ c ∧ c ≤ chr '9') * digit∗

def minor : Language Byte := digit * digit∗

def lineBreak : Language Byte := {[lf]} + {[cr, lf]}

def terminator : Language Byte := lineBreak + space * space∗ * lineBreak

def lineGrammar (m : Byte → Prop) : Language Byte :=
  lineEnds * methodOver m * (space * space∗) * uri * (space * space∗) * httpSlash * major *
    {[chr '.']} * minor * terminator

def lineNextOf (m : Byte → Prop) [DecidablePred m] : LineState → Byte → LineState ⊕ ScanExit
  | .swStart, c =>
    if c = cr ∨ c = lf then .inl .swStart
    else if m c then .inl .swMethod else .inr .invalidMethod
  | .swMethod, c =>
    if c = chr ' ' then .inl .swSpacesBeforeUri
    else if m c then .inl .swMethod else .inr .invalidMethod
  | s, c => lineNext s c

def wordScanner (m : Byte → Prop) [DecidablePred m] :
    Scanner Byte LineState ScanExit LineCursor LineRegister :=
  { lineScanner with next := lineNextOf m }

structure WordBytes (m : Byte → Prop) : Prop where
  above : ∀ c, m c → chr 'A' ≤ c
  letter : m (chr 'A')

theorem WordBytes.ne {m : Byte → Prop} (hm : WordBytes m) {c : Byte} (hc : m c) :
    c ≠ cr ∧ c ≠ lf ∧ c ≠ chr ' ' := by
  have h := hm.above c hc
  refine ⟨?_, ?_, ?_⟩
  · rintro rfl
    exact absurd h (by decide)
  · rintro rfl
    exact absurd h (by decide)
  · rintro rfl
    exact absurd h (by decide)

section Languages

variable (m : Byte → Prop) [DecidablePred m]

theorem cons_mem_line {s : LineState} {c : Byte} {w : List Byte} :
    c :: w ∈ (wordScanner m).language .done s ↔
      (∃ s', lineNextOf m s c = .inl s' ∧ w ∈ (wordScanner m).language .done s') ∨
        lineNextOf m s c = .inr .done ∧ w = [] :=
  (wordScanner m).cons_mem_language

theorem language_almostDone : (wordScanner m).language .done .swAlmostDone = {[lf]} := by
  apply (wordScanner m).language_step
  · simp [mem_text]
  intro c w
  rw [cons_mem_line, mem_text]
  simp only [lineNextOf, lineNext]
  split_ifs with hlf
  · simp [hlf]
  · simp [hlf]

theorem cons_mem_lineBreak {c : Byte} {w : List Byte} :
    c :: w ∈ lineBreak ↔ c = lf ∧ w = [] ∨ c = cr ∧ w = [lf] := by
  rw [lineBreak, Language.mem_add, mem_text, mem_text]
  simp

theorem nil_notMem_lineBreak : [] ∉ lineBreak := by
  rw [lineBreak, Language.mem_add, mem_text, mem_text]
  simp

theorem language_spacesAfterDigit :
    (wordScanner m).language .done .swSpacesAfterDigit = space∗ * lineBreak := by
  apply (wordScanner m).language_loop nil_notMem_lineBreak
  intro c w
  rw [cons_mem_line, cons_mem_lineBreak]
  simp only [lineNextOf, lineNext]
  by_cases hspace : c = chr ' '
  · rw [if_pos hspace]
    simp [hspace, lf_ne_space.symm, cr_ne_space.symm]
  by_cases hcr : c = cr
  · rw [if_neg hspace, if_pos hcr]
    simp [hcr, cr_ne_lf, cr_ne_space, language_almostDone, mem_text]
  by_cases hlf : c = lf
  · simp [hlf, lf_ne_space, cr_ne_lf.symm]
  · simp [hspace, hcr, hlf]

theorem nil_notMem_terminator : [] ∉ terminator := by
  rw [terminator, Language.mem_add, mul_assoc]
  rintro (h | h)
  · exact nil_notMem_lineBreak h
  · exact nil_notMem_symbols_mul _ _ h

theorem digit_iff {c : Byte} : chr '0' ≤ c ∧ c ≤ chr '9' ↔ notDigit c = false := by
  simp [notDigit, UInt8.not_lt]

theorem language_minorDigit :
    (wordScanner m).language .done .swMinorDigit = digit∗ * terminator := by
  apply (wordScanner m).language_loop nil_notMem_terminator
  intro c w
  rw [cons_mem_line, terminator, Language.mem_add, cons_mem_lineBreak, mul_assoc,
    ← language_spacesAfterDigit m]
  rw [space, cons_mem_symbols_mul, digit_iff]
  simp only [lineNextOf, lineNext]
  by_cases hcr : c = cr
  · have hbad : notDigit cr = true := by decide
    rw [if_pos hcr]
    simp [hcr, hbad, cr_ne_lf, cr_ne_space, language_almostDone, mem_text]
  by_cases hlf : c = lf
  · have hbad : notDigit lf = true := by decide
    rw [if_neg hcr, if_pos hlf]
    simp [hlf, hbad, cr_ne_lf.symm, lf_ne_space]
  by_cases hspace : c = chr ' '
  · have hbad : notDigit (chr ' ') = true := by decide
    rw [if_neg hcr, if_neg hlf, if_pos hspace]
    simp [hspace, hbad, cr_ne_space.symm, lf_ne_space.symm]
  · rw [if_neg hcr, if_neg hlf, if_neg hspace]
    by_cases hbad : notDigit c <;> simp [hcr, hlf, hspace, hbad]

theorem language_firstMinorDigit :
    (wordScanner m).language .done .swFirstMinorDigit = minor * terminator := by
  rw [minor, mul_assoc, ← language_minorDigit m]
  apply (wordScanner m).language_step (nil_notMem_symbols_mul _ _)
  intro c w
  rw [cons_mem_line, cons_mem_symbols_mul, digit_iff]
  simp only [lineNextOf, lineNext]
  by_cases hbad : notDigit c <;> simp [hbad]

theorem language_majorDigit : (wordScanner m).language .done .swMajorDigit =
    digit∗ * ({[chr '.']} * (minor * terminator)) := by
  rw [← language_firstMinorDigit m]
  apply (wordScanner m).language_loop (nil_notMem_text_mul _ _ _)
  intro c w
  rw [cons_mem_line, cons_mem_text_mul, text_nil_mul, digit_iff]
  simp only [lineNextOf, lineNext]
  by_cases hdot : c = chr '.'
  · have hbad : notDigit (chr '.') = true := by decide
    rw [if_pos hdot]
    simp [hdot, hbad]
  · rw [if_neg hdot]
    by_cases hbad : notDigit c <;> simp [hdot, hbad]

theorem language_firstMajorDigit : (wordScanner m).language .done .swFirstMajorDigit =
    major * ({[chr '.']} * (minor * terminator)) := by
  rw [major, mul_assoc, ← language_majorDigit m]
  apply (wordScanner m).language_step (nil_notMem_symbols_mul _ _)
  intro c w
  rw [cons_mem_line, cons_mem_symbols_mul]
  simp only [lineNextOf, lineNext, ← UInt8.not_lt, ← not_or]
  by_cases hbad : c < chr '1' ∨ chr '9' < c <;> simp [hbad]

theorem language_wait (s : LineState) {s' : LineState} {b : Byte}
    (h : ∀ c, lineNextOf m s c = if c = b then .inl s' else .inr .invalidRequest)
    {text : List Byte} {l : Language Byte} (hl : (wordScanner m).language .done s' = {text} * l) :
    (wordScanner m).language .done s = {b :: text} * l := by
  apply (wordScanner m).language_step (nil_notMem_text_mul _ _ _)
  intro c w
  rw [cons_mem_line, h, cons_mem_text_mul, ← hl]
  by_cases hb : c = b <;> simp [hb]

theorem language_http : (wordScanner m).language .done .swHttp =
    space∗ * (httpSlash * (major * ({[chr '.']} * (minor * terminator)))) := by
  generalize hl : major * ({[chr '.']} * (minor * terminator)) = l
  have hmajor : (wordScanner m).language .done .swFirstMajorDigit = {[]} * l := by
    rw [language_firstMajorDigit, hl, text_nil_mul]
  have hslash := language_wait m .swHttpHTTP (fun _ => rfl) hmajor
  have hp := language_wait m .swHttpHTT (fun _ => rfl) hslash
  have ht := language_wait m .swHttpHT (fun _ => rfl) hp
  have ht' := language_wait m .swHttpH (fun _ => rfl) ht
  apply (wordScanner m).language_loop (nil_notMem_text_mul _ _ _)
  intro c w
  rw [cons_mem_line, cons_mem_text_mul]
  simp only [lineNextOf, lineNext]
  by_cases hspace : c = chr ' '
  · have hne : chr ' ' ≠ chr 'H' := by decide
    rw [if_pos hspace]
    simp [hspace, hne]
  · rw [if_neg hspace]
    by_cases hh : c = chr 'H'
    · have hne : chr 'H' ≠ chr ' ' := by decide
      simp [hh, hne, ht']
    · simp [hspace, hh]

theorem language_afterSlashInUri : (wordScanner m).language .done .swAfterSlashInUri =
    (symbols (· ≠ chr ' '))∗ * (space * space∗ *
      (httpSlash * (major * ({[chr '.']} * (minor * terminator))))) := by
  rw [mul_assoc space, ← language_http m]
  apply (wordScanner m).language_loop (nil_notMem_symbols_mul _ _)
  intro c w
  rw [cons_mem_line, cons_mem_symbols_mul]
  simp only [lineNextOf, lineNext]
  by_cases hspace : c = chr ' ' <;> simp [hspace]

theorem language_spacesBeforeUri : (wordScanner m).language .done .swSpacesBeforeUri =
    space∗ * (uri * (space * space∗ *
      (httpSlash * (major * ({[chr '.']} * (minor * terminator)))))) := by
  rw [uri, mul_assoc (symbols _), ← language_afterSlashInUri m]
  apply (wordScanner m).language_loop (nil_notMem_symbols_mul _ _)
  intro c w
  rw [cons_mem_line, cons_mem_symbols_mul]
  simp only [lineNextOf, lineNext]
  by_cases hslash : c = chr '/'
  · have hne : chr '/' ≠ chr ' ' := by decide
    simp [hslash, hne]
  · by_cases hspace : c = chr ' '
    · have hne : chr ' ' ≠ chr '/' := by decide
      simp [hspace, hne]
    · simp [hslash, hspace]

variable {m}

theorem language_method (hm : WordBytes m) : (wordScanner m).language .done .swMethod =
    (symbols m)∗ * (space * space∗ * (uri * (space * space∗ *
      (httpSlash * (major * ({[chr '.']} * (minor * terminator))))))) := by
  rw [mul_assoc space, ← language_spacesBeforeUri m]
  apply (wordScanner m).language_loop (nil_notMem_symbols_mul _ _)
  intro c w
  rw [cons_mem_line, cons_mem_symbols_mul]
  simp only [lineNextOf]
  by_cases hspace : c = chr ' '
  · have hnot : ¬ m (chr ' ') := fun h => (hm.ne h).2.2 rfl
    simp [hspace, hnot]
  · rw [if_neg hspace]
    by_cases hc : m c <;> simp [hspace, hc]

theorem language_line (hm : WordBytes m) :
    (wordScanner m).language .done .swStart = lineGrammar m := by
  have hstart : (wordScanner m).language .done .swStart =
      lineEnds * (symbols m * (wordScanner m).language .done .swMethod) := by
    apply (wordScanner m).language_loop (nil_notMem_symbols_mul _ _)
    intro c w
    rw [cons_mem_line, cons_mem_symbols_mul]
    simp only [lineNextOf]
    by_cases hend : c = cr ∨ c = lf
    · have hnot : ¬ m c := by
        intro h
        rcases hend with hend | hend
        · exact (hm.ne h).1 hend
        · exact (hm.ne h).2.1 hend
      simp [hend, hnot]
    · rw [if_neg hend]
      by_cases hc : m c <;> simp [hend, hc]
  rw [hstart, language_method hm, lineGrammar, methodOver]
  simp only [mul_assoc]

theorem live_of_next {s s' : LineState} {c : Byte} (hnext : lineNextOf m s c = .inl s')
    (h : ∃ w, w ∈ (wordScanner m).language .done s') : ∃ w, w ∈ (wordScanner m).language .done s := by
  obtain ⟨w, hw⟩ := h
  exact ⟨c :: w, (cons_mem_line m).mpr (.inl ⟨s', hnext, hw⟩)⟩

theorem language_live (hm : WordBytes m) (s : LineState) :
    ∃ w, w ∈ (wordScanner m).language .done s := by
  have hminor : ∃ w, w ∈ (wordScanner m).language .done .swMinorDigit :=
    ⟨[lf], (cons_mem_line m).mpr (.inr ⟨rfl, rfl⟩)⟩
  have hfirstMinor := live_of_next (c := chr '0') (s := .swFirstMinorDigit) rfl hminor
  have hmajor := live_of_next (c := chr '.') (s := .swMajorDigit) rfl hfirstMinor
  have hfirstMajor := live_of_next (c := chr '1') (s := .swFirstMajorDigit) rfl hmajor
  have hslash := live_of_next (c := chr '/') (s := .swHttpHTTP) rfl hfirstMajor
  have hp := live_of_next (c := chr 'P') (s := .swHttpHTT) rfl hslash
  have ht := live_of_next (c := chr 'T') (s := .swHttpHT) rfl hp
  have ht' := live_of_next (c := chr 'T') (s := .swHttpH) rfl ht
  have hh := live_of_next (c := chr 'H') (s := .swHttp) rfl ht'
  have huri := live_of_next (c := chr ' ') (s := .swAfterSlashInUri) rfl hh
  have hspaces := live_of_next (c := chr '/') (s := .swSpacesBeforeUri) rfl huri
  have hmethod := live_of_next (c := chr ' ') (s := .swMethod) rfl hspaces
  have hstart : lineNextOf m .swStart (chr 'A') = .inl .swMethod := by
    simp only [lineNextOf]
    rw [if_neg (by decide), if_pos hm.letter]
  cases s with
  | swStart => exact live_of_next hstart hmethod
  | swSpacesAfterDigit => exact ⟨[lf], (cons_mem_line m).mpr (.inr ⟨rfl, rfl⟩)⟩
  | swAlmostDone => exact ⟨[lf], (cons_mem_line m).mpr (.inr ⟨rfl, rfl⟩)⟩
  | _ => assumption

end Languages

end Sginx.Http
