import AllocationKeys.Lib.Csv
import AllocationKeys.Lib.Utf8
import Mathlib.Data.List.DropRight

/-!
# The size of an upload

`upload_shape.measure` counts the columns and the data rows of an upload before it is stored, and
`parse_file` is what the worker later makes of the same bytes. Of a CSV file, the columns are the
fields of the first line that is not empty, and the data rows are the lines after it.

`measure_neverLow_iff`: the counts are not below those of the parsed file exactly when no field of
the header record begins after its first line, and the carriage returns that end a record are not
more than the line feeds that end none (`CountsHigh`).

What `pandas.read_csv` accepts and how it reads a spreadsheet are left open; of the file at hand
it is assumed that it is cut into records by the rules of the format, if it is accepted
(`FollowsRecords`).
-/

namespace AllocationKeys.Upload

open Csv Csv.Position

/-! ### Counting -/

/-- A code point or a byte, as a parser takes it. -/
def letter (blank : ℕ → Bool) (c : ℕ) : Letter :=
  if c = 0x2C then .comma
  else if c = 0x22 then .quote
  else if c = 0x0D then .cr
  else if c = 0x0A then .lf
  else if c < 0x80 && blank c then .blank
  else .other

def isBreakByte (b : UInt8) : Bool := b = 0x0D || b = 0x0A

def rstripCr (text : List ℕ) : List ℕ := text.rdropWhile (· = 0x0D)

/-- `_measure_csv`, `none` also for the errors of the reader. -/
def measureCsv (content : List UInt8) : Option (ℕ × ℕ) :=
  let content := content.dropWhile isBreakByte
  if content = [] then none
  else
    let header := rstripCr (Utf8.decode (content.takeWhile (· ≠ 0x0A)))
    (readerRow (header.map (letter fun _ => false))).map fun columns =>
      let lines := content.count 0x0A + if content.getLast? = some 0x0A then 0 else 1
      (columns, lines - 1)

def extension (fileName : List Char) : List Char :=
  (fileName.rtakeWhile (· ≠ '.')).map Char.toLower

def isExcel (fileName : List Char) : Bool :=
  extension fileName = "xlsx".toList || extension fileName = "xls".toList

/-- `measure`; the dimension record of a spreadsheet is left open. -/
def measure (measureXlsx : List UInt8 → Option (ℕ × ℕ)) (content : List UInt8)
    (fileName : List Char) : Option (ℕ × ℕ) :=
  if extension fileName = "csv".toList then measureCsv content
  else if isExcel fileName then measureXlsx content
  else none

/-- The shape of the frame that `parse_file` returns, if it does. -/
def parseFile (readCsv readExcel : List UInt8 → Option (ℕ × ℕ)) (content : List UInt8)
    (fileName : List Char) : Option (ℕ × ℕ) :=
  if extension fileName = "csv".toList then readCsv content
  else if isExcel fileName then readExcel content
  else none

def maxProblemCells : ℕ := 400000

def tooLarge (participants timesteps : ℕ) : Prop := maxProblemCells < participants * timesteps

/-! ### What is counted -/

def letters (blank : ℕ → Bool) (content : List UInt8) : List Letter :=
  content.map fun b => letter blank b.toNat

/-- If the text is accepted, its first record is the header and every other one a row. It need not
be so of every text: a byte order mark is no part of the first record. -/
def FollowsRecords (blank : ℕ → Bool) (readCsv : List UInt8 → Option (ℕ × ℕ))
    (content : List UInt8) : Prop :=
  ∀ columns rows, readCsv content = some (columns, rows) →
    ∃ header tail, records .startRecord 0 (letters blank content) = header :: tail ∧
      columns = header ∧ rows = tail.length

/-- From the first line that is not empty on. -/
def body (content : List UInt8) : List UInt8 := content.dropWhile isBreakByte

/-- The first line that is not empty. -/
def firstLine (content : List UInt8) : List UInt8 :=
  ((body content).takeWhile (· ≠ 0x0A)).rdropWhile (· = 0x0D)

def afterFirstLine (content : List UInt8) : List UInt8 :=
  (body content).drop (firstLine content).length

/-- The files whose counts do not err low. -/
structure CountsHigh (blank : ℕ → Bool) (content : List UInt8) : Prop where
  /-- No field of the header record begins after the first line. -/
  header : separatorsAhead (endPosition .startRecord (letters blank (firstLine content)))
    (letters blank (afterFirstLine content)) = 0
  /-- The carriage returns that end a record are not more than the line feeds that end none. The end
  of the file counts with the former if it ends a record, with the
  latter if no line feed is there. -/
  rows : carriageEnds .startRecord (letters blank (body content)) +
      (if (endPosition .startRecord (letters blank (body content))).inRecord then 1 else 0) ≤
    idleFeeds .startRecord (letters blank (body content)) +
      if (body content).getLast? = some 0x0A then 0 else 1

/-- The counts are not below those of the parsed file, which is refused if that is too large. -/
def NeverLow (measured parsed : ℕ × ℕ) : Prop :=
  parsed.1 ≤ measured.1 ∧ parsed.2 ≤ measured.2 ∧
    (tooLarge (parsed.1 - 1) parsed.2 → tooLarge (measured.1 - 1) measured.2)

/-! ### The header -/

variable {blank : ℕ → Bool}

theorem letter_high {c : ℕ} (h : 0x80 ≤ c) : letter blank c = .other := by
  simp only [letter]
  rw [if_neg (by omega), if_neg (by omega), if_neg (by omega), if_neg (by omega), if_neg]
  simp
  omega

/-- The reader knows no blank lines. -/
theorem readerRow_letter (blank : ℕ → Bool) (text : List ℕ) :
    readerRow (text.map (letter fun _ => false)) = readerRow (text.map (letter blank)) := by
  have hchar : ∀ (r : Reader) (c : ℕ),
      r.processChar (letter (fun _ => false) c) = r.processChar (letter blank c) := by
    intro r c
    have hblank : r.processChar .blank = r.processChar .other := by
      obtain ⟨state, _, _⟩ := r
      cases state <;> rfl
    simp only [letter]
    split_ifs <;> simp_all
  simp only [readerRow, List.foldlM_map, hchar]

/-- A parser that counts. -/
def tally (blank : ℕ → Bool) (test : Position → Letter → Bool) (s : Position × ℕ) (c : ℕ) :
    Position × ℕ :=
  (s.1.advance (letter blank c), s.2 + if test s.1 (letter blank c) then 1 else 0)

theorem foldl_tally (test : Position → Letter → Bool) (text : List ℕ) (pos : Position) (n : ℕ) :
    text.foldl (tally blank test) (pos, n) = (endPosition pos (text.map (letter blank)),
      n + countWhere test pos (text.map (letter blank))) := by
  induction text generalizing pos n with
  | nil => rfl
  | cons c text ih =>
    rw [List.foldl_cons, tally, ih, List.map_cons, countWhere, Nat.add_assoc]
    rfl

/-- Decoding changes nothing but characters from U+0080 on. -/
theorem countWhere_decode {test : Position → Letter → Bool} (htest : ∀ pos, test pos .other = false)
    (bs : List UInt8) : countWhere test .startRecord ((Utf8.decode bs).map (letter blank)) =
      countWhere test .startRecord (letters blank bs) := by
  have hother :
      ∀ (s : Position × ℕ) c, 0x80 ≤ c → tally blank test s c = (s.1.advance .other, s.2) := by
    intro s c hc
    rw [tally, letter_high hc, htest]
    rfl
  have hhigh : ∀ s c, 0x80 ≤ c → tally blank test s c = tally blank test s 0x80 :=
    fun s c hc => (hother s c hc).trans (hother s 0x80 (le_refl _)).symm
  have habsorb :
      ∀ s, tally blank test (tally blank test s 0x80) 0x80 = tally blank test s 0x80 := by
    rintro ⟨pos, n⟩
    rw [hother _ _ (le_refl _), hother _ _ (le_refl _)]
    cases pos <;> rfl
  have hfold := Utf8.foldl_decode hhigh habsorb bs (.startRecord, 0)
  rw [foldl_tally, foldl_tally, List.map_map, Nat.zero_add, Nat.zero_add] at hfold
  exact congrArg Prod.snd hfold

theorem rstripCr_decode (line : List UInt8) :
    rstripCr (Utf8.decode line) = Utf8.decode (line.rdropWhile (· = 0x0D)) := by
  induction line using List.reverseRecOn with
  | nil => rfl
  | append_singleton line b ih =>
    by_cases hb : b = 0x0D
    · subst hb
      rw [Utf8.decode_append line (by simp), List.rdropWhile_concat_pos _ _ _ (by decide), ← ih]
      exact List.rdropWhile_concat_pos _ _ _ (by decide)
    · rw [List.rdropWhile_concat_neg _ _ _ (by simpa using hb), rstripCr,
        List.rdropWhile_eq_self_iff]
      intro hne hlast
      have hmem : (0x0D : UInt8) ∈ (line ++ [b]).getLast? :=
        Utf8.getLast?_decode (by simp) (by decide)
          (by rw [List.getLast?_eq_some_getLast hne]; simpa using hlast.symm)
      exact hb (by simpa using hmem)

/-! ### The counts -/

theorem letter_eq_lf (b : UInt8) : letter blank b.toNat = .lf ↔ b = 0x0A := by
  constructor
  · intro h
    simp only [letter] at h
    split_ifs at h with _ _ _ hlf
    exact UInt8.toNat_inj.mp hlf
  · rintro rfl
    rfl

theorem letter_eq_cr (b : UInt8) : letter blank b.toNat = .cr ↔ b = 0x0D := by
  constructor
  · intro h
    simp only [letter] at h
    split_ifs at h with _ _ hcr
    exact UInt8.toNat_inj.mp hcr
  · rintro rfl
    rfl

theorem isBreak_letter (b : UInt8) : (letter blank b.toNat).isBreak = isBreakByte b := by
  simp only [Letter.isBreak, isBreakByte, letter_eq_cr, letter_eq_lf]

theorem count_letters (content : List UInt8) :
    (letters blank content).count .lf = content.count 0x0A := by
  induction content with
  | nil => rfl
  | cons b content ih =>
    rw [letters, List.map_cons, List.count_cons, List.count_cons, ← letters, ih]
    simp only [beq_iff_eq, letter_eq_lf]

theorem records_body (content : List UInt8) :
    records .startRecord 0 (letters blank (body content)) =
      records .startRecord 0 (letters blank content) := by
  rw [← records_dropWhile (letters blank content), letters, body, letters, List.dropWhile_map]
  simp only [Function.comp_def, isBreak_letter]

theorem firstLine_append (content : List UInt8) :
    firstLine content ++ afterFirstLine content = body content := by
  have hprefix : firstLine content <+: body content :=
    (List.rdropWhile_prefix ..).trans (List.takeWhile_prefix _)
  obtain ⟨rest, hrest⟩ := hprefix
  rw [afterFirstLine, ← hrest, List.drop_left]

/-- The first line is not empty, and does not end with a line break. -/
theorem firstLine_spec {content : List UInt8} (hne : body content ≠ []) :
    firstLine content ≠ [] ∧ ∀ b ∈ (firstLine content).getLast?, isBreakByte b = false := by
  have hhead := List.head_dropWhile_not isBreakByte (l := content) hne
  obtain ⟨b, rest, hbody⟩ := List.exists_cons_of_ne_nil hne
  simp only [body] at hbody
  simp only [hbody, List.head_cons] at hhead
  have hfirst : firstLine content ≠ [] := by
    rw [firstLine, body, hbody, Ne, List.rdropWhile_eq_nil_iff]
    intro hall
    rw [isBreakByte, Bool.or_eq_false_iff, decide_eq_false_iff_not,
      decide_eq_false_iff_not] at hhead
    rw [List.takeWhile_cons_of_pos (by simpa using hhead.2)] at hall
    exact hhead.1 (by simpa using hall b (List.mem_cons_self ..))
  refine ⟨hfirst, fun c hc => ?_⟩
  rw [List.getLast?_eq_some_getLast hfirst, Option.mem_some_iff] at hc
  subst hc
  have hcr := List.rdropWhile_last_not _ _ hfirst
  have hlf := List.mem_takeWhile_imp ((List.rdropWhile_prefix ..).subset (List.getLast_mem hfirst))
  rw [isBreakByte, Bool.or_eq_false_iff]
  exact ⟨by simpa [firstLine] using hcr, by simpa using hlf⟩

/-- What `_measure_csv` returns. -/
theorem measureCsv_eq (blank : ℕ → Bool) {content : List UInt8} {columns rows : ℕ}
    (h : measureCsv content = some (columns, rows)) :
    columns = countWhere separates .startRecord (letters blank (firstLine content)) + 1 ∧
      countWhere endsRecord .startRecord (letters blank (firstLine content)) = 0 ∧
      rows + 1 = (letters blank (body content)).count .lf +
        if (body content).getLast? = some 0x0A then 0 else 1 := by
  rw [measureCsv, ← body] at h
  by_cases hempty : body content = []
  · rw [if_pos hempty] at h
    cases h
  rw [if_neg hempty] at h
  obtain ⟨hne, hlast⟩ := firstLine_spec hempty
  obtain ⟨columns', hrow, heq⟩ := Option.map_eq_some_iff.mp h
  obtain ⟨rfl, rfl⟩ := Prod.mk.inj heq
  rw [rstripCr_decode, ← firstLine, readerRow_letter blank] at hrow
  have hdecoded : Utf8.decode (firstLine content) ≠ [] :=
    Utf8.decodeFrom_ne_nil (Or.inr (by simpa using hne))
  have hdecodedLast : ∀ a ∈ ((Utf8.decode (firstLine content)).map (letter blank)).getLast?,
      a.isBreak = false := by
    intro a ha
    rw [List.getLast?_map] at ha
    obtain ⟨c, hc, rfl⟩ := Option.map_eq_some_iff.mp ha
    have hne_break : ∀ b : UInt8, isBreakByte b = true → b.toNat < 0x80 → c ≠ b.toNat := by
      rintro b hb hascii rfl
      rw [hlast b (Utf8.getLast?_decode hne hascii hc)] at hb
      cases hb
    have hcr : c ≠ 0x0D := hne_break 0x0D rfl (by decide)
    have hlf : c ≠ 0x0A := hne_break 0x0A rfl (by decide)
    simp only [letter]
    split_ifs <;> rfl
  obtain ⟨hcolumns, hnone⟩ := readerRow_eq (by simpa using hdecoded) hdecodedLast hrow
  rw [countWhere_decode (fun pos => rfl)] at hcolumns
  rw [countWhere_decode (fun pos => rfl)] at hnone
  refine ⟨hcolumns, hnone, ?_⟩
  rw [count_letters]
  refine Nat.sub_add_cancel ?_
  split
  · rename_i hlf
    have hcount := List.count_pos_iff.mpr (List.mem_of_mem_getLast? hlf)
    omega
  · omega

theorem tooLarge_mono {p p' t t' : ℕ} (hp : p ≤ p') (ht : t ≤ t') (h : tooLarge p t) :
    tooLarge p' t' :=
  Nat.lt_of_lt_of_le h (Nat.mul_le_mul hp ht)

/-- **The counts of a CSV file do not err low exactly when they count high.** -/
theorem measure_neverLow_iff {readCsv : List UInt8 → Option (ℕ × ℕ)} {content : List UInt8}
    (hreadCsv : FollowsRecords blank readCsv content)
    {measureXlsx readExcel : List UInt8 → Option (ℕ × ℕ)}
    {fileName : List Char} (hcsv : extension fileName = "csv".toList)
    {measured parsed : ℕ × ℕ} (hmeasured : measure measureXlsx content fileName = some measured)
    (hparsed : parseFile readCsv readExcel content fileName = some parsed) :
    NeverLow measured parsed ↔ CountsHigh blank content := by
  rw [measure, if_pos hcsv] at hmeasured
  rw [parseFile, if_pos hcsv] at hparsed
  obtain ⟨columns, rows⟩ := measured
  obtain ⟨parsedColumns, parsedRows⟩ := parsed
  obtain ⟨header, tail, hrecords, rfl, rfl⟩ := hreadCsv _ _ hparsed
  obtain ⟨hcolumns, hnone, hrows⟩ := measureCsv_eq blank hmeasured
  rw [← records_body] at hrecords
  have hlength := length_records .startRecord 0 (letters blank (body content))
  have hheader := head_records hrecords
  rw [hrecords, List.length_cons] at hlength
  rw [← firstLine_append, letters, List.map_append, ← letters, ← letters,
    separatorsAhead_append hnone] at hheader
  -- the parser counts the separators of the first record, `measure` those of the first line
  have hcolumns_iff : parsedColumns ≤ columns ↔ separatorsAhead
      (endPosition .startRecord (letters blank (firstLine content)))
      (letters blank (afterFirstLine content)) = 0 := by
    omega
  -- and the parser counts records, `measure` line feeds
  have hrows_iff : tail.length ≤ rows ↔
      carriageEnds .startRecord (letters blank (body content)) +
        (if (endPosition .startRecord (letters blank (body content))).inRecord then 1 else 0) ≤
      idleFeeds .startRecord (letters blank (body content)) +
        if (body content).getLast? = some 0x0A then 0 else 1 := by
    omega
  constructor
  · rintro ⟨hleft, hright, -⟩
    exact ⟨hcolumns_iff.mp hleft, hrows_iff.mp hright⟩
  · rintro ⟨hleft, hright⟩
    have hleft := hcolumns_iff.mpr hleft
    have hright := hrows_iff.mpr hright
    exact ⟨hleft, hright, tooLarge_mono (Nat.sub_le_sub_right hleft 1) hright⟩

/-! ### Files -/

/-- A parser that accepts every file with a header; a blank line may have spaces and tabs. -/
def readAnyCsv (content : List UInt8) : Option (ℕ × ℕ) :=
  match records .startRecord 0 (letters (fun c => c = 0x20 || c = 0x09) content) with
  | [] => none
  | header :: rows => some (header, rows.length)

theorem followsRecords_readAnyCsv (content : List UInt8) :
    FollowsRecords (fun c => c = 0x20 || c = 0x09) readAnyCsv content := by
  intro columns rows h
  rw [readAnyCsv] at h
  cases hrecords : records .startRecord 0 (letters (fun c => c = 0x20 || c = 0x09) content) with
  | nil =>
    rw [hrecords] at h
    cases h
  | cons header tail =>
    rw [hrecords] at h
    cases h
    exact ⟨_, tail, rfl, rfl, rfl⟩

/-- A blank line, a header of two columns, and two rows, all with CRLF; a field of the first row is
quoted and has a line break. -/
def crlfFile : List UInt8 :=
  [0x0D, 0x0A, 0x61, 0x2C, 0x62, 0x0D, 0x0A, 0x31, 0x2C, 0x22, 0x32, 0x0A, 0x22, 0x0D, 0x0A,
    0x33, 0x2C, 0x34, 0x0D, 0x0A]

theorem measure_neverLow_iff_crlfFile : ∃ measured parsed,
    measure (fun _ => none) crlfFile "data.CSV".toList = some measured ∧
      parseFile readAnyCsv (fun _ => none) crlfFile "data.CSV".toList = some parsed ∧
      NeverLow measured parsed := by
  have hmeasured : measure (fun _ => none) crlfFile "data.CSV".toList = some (2, 3) := by
    decide +kernel
  have hparsed : parseFile readAnyCsv (fun _ => none) crlfFile "data.CSV".toList = some (2, 2) := by
    decide +kernel
  exact ⟨_, _, hmeasured, hparsed, (measure_neverLow_iff (followsRecords_readAnyCsv _)
    (by decide +kernel) hmeasured hparsed).mpr ⟨by decide +kernel, by decide +kernel⟩⟩

/-- A header of two columns that ends with LF, and three rows, two of which end with CR. -/
def loneCrFile : List UInt8 :=
  [0x61, 0x2C, 0x62, 0x0A, 0x31, 0x2C, 0x32, 0x0D, 0x33, 0x2C, 0x34, 0x0D, 0x35, 0x2C, 0x36, 0x0A]

/-- One of the three rows is counted. -/
theorem loneCrFile_not_neverLow : ¬ ∀ (content : List UInt8) (measured parsed : ℕ × ℕ),
    measure (fun _ => none) content "data.csv".toList = some measured →
      parseFile readAnyCsv (fun _ => none) content "data.csv".toList = some parsed →
        NeverLow measured parsed := by
  intro h
  obtain ⟨-, hrows, -⟩ := h loneCrFile (2, 1) (2, 3) (by decide +kernel) (by decide +kernel)
  omega

end AllocationKeys.Upload
