import Mathlib.Data.Set.List
import Sginx.HeaderSection
import Sginx.LineGrammar

namespace Sginx.Http

open Sginx.Library.RingBuffer Sginx.Library.Scanning
open scoped Computability

def keyRest : Language Byte := (symbols (fun c => c ≠ chr ' ' ∧ c ≠ chr ':'))∗

/-- The value from its first byte on, which may be any byte but a space. -/
def valueText : Language Byte := symbols (· ≠ chr ' ') * (symbols valueByte)∗

def headerRest : Language Byte :=
  keyRest * (space∗ * ({[chr ':']} * (space∗ * (valueText * lineBreak))))

def headerLine : Language Byte := symbols (· ≠ cr) * headerRest

def emptyLine : Language Byte := {[cr, lf]}

def sectionGrammar : Language Byte :=
  lineEnds * (symbols (fun c => c ≠ cr ∧ c ≠ lf) * headerRest * (headerLine∗ * emptyLine))

theorem cons_mem_body {s : BodyState} {c : Byte} {w : List Byte} :
    c :: w ∈ bodyScanner.language .done s ↔
      (∃ s', bodyNext s c = .inl s' ∧ w ∈ bodyScanner.language .done s') ∨
        bodyNext s c = .inr .done ∧ w = [] :=
  bodyScanner.cons_mem_language

theorem language_crlfcr : bodyScanner.language .done .swCrlfcr = {[lf]} := by
  apply bodyScanner.language_step
  · simp [mem_text]
  intro c w
  rw [cons_mem_body, mem_text]
  simp only [bodyNext]
  by_cases hlf : c = lf <;> simp [hlf]

theorem language_cr : bodyScanner.language .done .swCr =
    {[lf]} * bodyScanner.language .done .swCrlf := by
  apply bodyScanner.language_step (nil_notMem_text_mul _ _ _)
  intro c w
  rw [cons_mem_body, cons_mem_text_mul, text_nil_mul]
  simp only [bodyNext]
  by_cases hlf : c = lf <;> simp [hlf]

theorem cons_mem_lineBreak_mul {c : Byte} {w : List Byte} {l : Language Byte} :
    c :: w ∈ lineBreak * l ↔ c = lf ∧ w ∈ l ∨ c = cr ∧ w ∈ ({[lf]} : Language Byte) * l := by
  rw [lineBreak, add_mul, Language.mem_add, cons_mem_text_mul, cons_mem_text_mul, text_nil_mul]

theorem nil_notMem_lineBreak_mul (l : Language Byte) : [] ∉ lineBreak * l := by
  rw [lineBreak, add_mul, Language.mem_add, not_or]
  exact ⟨nil_notMem_text_mul _ _ _, nil_notMem_text_mul _ _ _⟩

theorem language_value : bodyScanner.language .done .swValue =
    (symbols valueByte)∗ * (lineBreak * bodyScanner.language .done .swCrlf) := by
  apply bodyScanner.language_loop (nil_notMem_lineBreak_mul _)
  intro c w
  rw [cons_mem_body, cons_mem_lineBreak_mul, ← language_cr]
  simp only [bodyNext, valueByte]
  by_cases hcr : c = cr
  · simp [hcr, cr_ne_lf]
  by_cases hlf : c = lf
  · simp [hlf, cr_ne_lf.symm]
  · simp [hcr, hlf]

theorem language_spacesAfterColon : bodyScanner.language .done .swSpacesAfterColon =
    space∗ * (valueText * (lineBreak * bodyScanner.language .done .swCrlf)) := by
  rw [valueText, mul_assoc (symbols _), ← language_value]
  apply bodyScanner.language_loop (nil_notMem_symbols_mul _ _)
  intro c w
  rw [cons_mem_body, cons_mem_symbols_mul]
  simp only [bodyNext]
  by_cases hspace : c = chr ' ' <;> simp [hspace]

theorem language_spacesBeforeColon : bodyScanner.language .done .swSpacesBeforeColon =
    space∗ * ({[chr ':']} * bodyScanner.language .done .swSpacesAfterColon) := by
  apply bodyScanner.language_loop (nil_notMem_text_mul _ _ _)
  intro c w
  rw [cons_mem_body, cons_mem_text_mul, text_nil_mul]
  simp only [bodyNext]
  by_cases hspace : c = chr ' '
  · have hne : chr ' ' ≠ chr ':' := by decide
    simp [hspace, hne]
  · by_cases hcolon : c = chr ':'
    · have hne : chr ':' ≠ chr ' ' := by decide
      simp [hcolon, hne]
    · simp [hspace, hcolon]

theorem language_key : bodyScanner.language .done .swKey =
    headerRest * bodyScanner.language .done .swCrlf := by
  have hkey : bodyScanner.language .done .swKey =
      keyRest * bodyScanner.language .done .swSpacesBeforeColon := by
    apply bodyScanner.language_loop (bodyScanner.nil_notMem_language _ _)
    intro c w
    rw [cons_mem_body, cons_mem_body]
    simp only [bodyNext]
    by_cases hspace : c = chr ' '
    · simp [hspace]
    · by_cases hcolon : c = chr ':'
      · have hne : chr ':' ≠ chr ' ' := by decide
        simp [hcolon, hne]
      · simp [hspace, hcolon]
  rw [hkey, language_spacesBeforeColon, language_spacesAfterColon, headerRest]
  simp only [mul_assoc]

theorem language_crlf : bodyScanner.language .done .swCrlf = headerLine∗ * emptyLine := by
  have hnil : [] ∉ headerLine := nil_notMem_symbols_mul _ _
  apply (Language.self_eq_mul_add_iff hnil).mp
  ext w
  cases w with
  | nil =>
    rw [Language.mem_add, headerLine, mul_assoc]
    simp [bodyScanner.nil_notMem_language .done .swCrlf, nil_notMem_symbols_mul, emptyLine, mem_text]
  | cons c w =>
    rw [Language.mem_add, headerLine, mul_assoc, ← language_key, cons_mem_symbols_mul, cons_mem_body,
      emptyLine, mem_text]
    simp only [bodyNext]
    by_cases hcr : c = cr
    · simp [hcr, language_crlfcr, mem_text]
    · simp [hcr]

theorem language_section : bodyScanner.language .done .swStart = sectionGrammar := by
  rw [sectionGrammar, mul_assoc (symbols _), ← language_crlf, ← language_key]
  apply bodyScanner.language_loop (nil_notMem_symbols_mul _ _)
  intro c w
  rw [cons_mem_body, cons_mem_symbols_mul]
  simp only [bodyNext]
  by_cases hend : c = cr ∨ c = lf
  · rw [if_pos hend]
    rcases hend with rfl | rfl <;> simp
  · rw [if_neg hend]
    simp [not_or.mp hend]

def lineStop (crlf : Bool) : List Byte := if crlf then [cr, lf] else [lf]

/-- A header line as the parser delimits it. The first byte of the key is not looked at for a colon,
nor that of the value for a line end. -/
structure SectionLine extends HeaderLine where
  crlf : Bool
  key_eq : ∃ c tail, key = c :: tail ∧ c ≠ cr ∧ ∀ b ∈ tail, b ≠ chr ' ' ∧ b ≠ chr ':'
  value_eq : ∃ c tail, value = c :: tail ∧ c ≠ chr ' ' ∧ ∀ b ∈ tail, valueByte b

def SectionLine.bytes (line : SectionLine) : List Byte :=
  line.key ++ (List.replicate line.spacesBeforeColon (chr ' ') ++ chr ':' ::
    (List.replicate line.spacesAfterColon (chr ' ') ++ (line.value ++ lineStop line.crlf)))

structure SectionText where
  ends : List Byte
  lines : List SectionLine
  ends_byte : ∀ c ∈ ends, c = cr ∨ c = lf
  lines_ne : lines ≠ []
  head_ne : ∀ line ∈ lines.head?, line.key.head? ≠ some lf

def SectionText.bytes (text : SectionText) : List Byte :=
  text.ends ++ ((text.lines.map SectionLine.bytes).flatten ++ [cr, lf])

theorem eq_replicate_of_spaces {spaces : List Byte} (h : spaces ∈ space∗) :
    spaces = List.replicate spaces.length (chr ' ') :=
  List.eq_replicate_of_mem (mem_kstar_symbols.mp h)

theorem lineStop_of_mem {brk : List Byte} (h : brk ∈ lineBreak) : ∃ crlf, lineStop crlf = brk := by
  rcases h with rfl | rfl
  · exact ⟨false, rfl⟩
  · exact ⟨true, rfl⟩

theorem line_of_mem {c : Byte} (hc : c ≠ cr) {w : List Byte} (h : w ∈ headerRest) :
    ∃ line : SectionLine, line.bytes = c :: w ∧ line.key.head? = some c := by
  obtain ⟨tail, htail, _, ⟨before, hbefore, _, ⟨_, rfl, _, ⟨after, hafter, _,
    ⟨_, ⟨_, ⟨v, hv, rfl⟩, value, hvalue, rfl⟩, brk, hbrk, rfl⟩, rfl⟩, rfl⟩, rfl⟩, rfl⟩ := h
  obtain ⟨crlf, rfl⟩ := lineStop_of_mem hbrk
  refine ⟨{ key := c :: tail
            spacesBeforeColon := before.length
            spacesAfterColon := after.length
            value := v :: value
            crlf := crlf
            key_eq := ⟨c, tail, rfl, hc, mem_kstar_symbols.mp htail⟩
            value_eq := ⟨v, value, rfl, hv, mem_kstar_symbols.mp hvalue⟩ }, ?_, rfl⟩
  rw [SectionLine.bytes, ← eq_replicate_of_spaces hbefore, ← eq_replicate_of_spaces hafter]
  rfl

theorem line_of_headerLine {w : List Byte} (h : w ∈ headerLine) :
    ∃ line : SectionLine, line.bytes = w := by
  obtain ⟨_, ⟨c, hc, rfl⟩, rest, hrest, rfl⟩ := h
  obtain ⟨line, hline, -⟩ := line_of_mem hc hrest
  exact ⟨line, hline⟩

theorem text_of_mem {u : List Byte} (h : u ∈ sectionGrammar) :
    ∃ text : SectionText, text.bytes = u := by
  obtain ⟨ends, hends, _, ⟨_, ⟨_, ⟨c, hc, rfl⟩, rest, hrest, rfl⟩, _,
    ⟨_, ⟨words, rfl, hwords⟩, _, rfl, rfl⟩, rfl⟩, rfl⟩ := h
  obtain ⟨first, hfirst, hhead⟩ := line_of_mem hc.1 hrest
  obtain ⟨lines, rfl⟩ : words ∈ Set.range (List.map SectionLine.bytes) := by
    rw [Set.range_list_map]
    exact fun w hw => line_of_headerLine (hwords w hw)
  refine ⟨⟨ends, first :: lines, mem_kstar_symbols.mp hends, List.cons_ne_nil _ _, ?_⟩, ?_⟩
  · rintro line ⟨⟩
    rw [hhead]
    exact fun h => hc.2 (Option.some.inj h)
  · simp only [SectionText.bytes, List.map_cons, List.flatten_cons, hfirst, List.append_assoc]
    rfl

end Sginx.Http
