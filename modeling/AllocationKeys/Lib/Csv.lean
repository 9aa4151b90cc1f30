import Mathlib.Data.List.Basic
import Mathlib.Data.Nat.Notation
import Mathlib.Tactic.Common

/-!
# Records of comma-separated values

`records` cuts a text into records: LF, CRLF and a lone CR end a record outside quotes, a quoted
field may contain line breaks and doubled quotes, and blank lines are skipped. Which characters a
blank line may have is left open. A text is a list of `Letter`s, what a parser tells apart.

`readerRow` is a reader that is given one line.

* `length_records`: the records, counted by the line breaks that end them;
* `head_records`: the fields of the first record, counted by its separators;
* `readerRow_eq`: on one line, the reader finds the same separators.
-/

namespace AllocationKeys.Csv

/-- What a parser tells apart. -/
inductive Letter where
  | comma
  | quote
  | cr
  | lf
  | blank
  | other
  deriving DecidableEq

/-- Where a parser stands. -/
inductive Position where
  | startRecord
  | blankLine
  | startField
  | inField
  | inQuotedField
  | quoteInQuotedField
  deriving DecidableEq

def Letter.isBreak (a : Letter) : Bool := a = .cr || a = .lf

namespace Position

def inRecord (pos : Position) : Bool := pos ≠ .startRecord && pos ≠ .blankLine

/-- A line break outside quotes ends the record. -/
def endsRecord (pos : Position) (a : Letter) : Bool :=
  a.isBreak && pos.inRecord && pos ≠ .inQuotedField

/-- A comma outside quotes separates two fields. -/
def separates (pos : Position) (a : Letter) : Bool := a = .comma && pos ≠ .inQuotedField

/-- Where the parser stands after a letter. A quote that does not begin a field is part of it. -/
def advance : Position → Letter → Position
  | inQuotedField, .quote => .quoteInQuotedField
  | inQuotedField, _ => .inQuotedField
  | _, .cr => .startRecord
  | _, .lf => .startRecord
  | _, .comma => .startField
  | blankLine, .quote => .inField
  | inField, .quote => .inField
  | _, .quote => .inQuotedField
  | startRecord, .blank => .blankLine
  | blankLine, .blank => .blankLine
  | _, .blank => .inField
  | _, .other => .inField

end Position

open Position

/-- The number of fields of each record, of which the first already has `n` separators. -/
def records : Position → ℕ → List Letter → List ℕ
  | pos, n, [] => if pos.inRecord then [n + 1] else []
  | pos, n, a :: l =>
      if pos.endsRecord a then (n + 1) :: records .startRecord 0 l
      else records (pos.advance a) (n + if pos.separates a then 1 else 0) l

/-! ### Counting -/

/-- Where the parser stands after a text. -/
def endPosition (pos : Position) (l : List Letter) : Position := l.foldl advance pos

/-- The letters for which a test holds where the parser stands. -/
def countWhere (test : Position → Letter → Bool) : Position → List Letter → ℕ
  | _, [] => 0
  | pos, a :: l => (if test pos a then 1 else 0) + countWhere test (pos.advance a) l

/-- Carriage returns that end a record. -/
def carriageEnds : Position → List Letter → ℕ :=
  countWhere fun pos a => a = .cr && pos.endsRecord a

/-- Line feeds that end no record. -/
def idleFeeds : Position → List Letter → ℕ :=
  countWhere fun pos a => a = .lf && !pos.endsRecord a

/-- The separators up to the end of the record. -/
def separatorsAhead : Position → List Letter → ℕ
  | _, [] => 0
  | pos, a :: l =>
      if pos.endsRecord a then 0
      else (if pos.separates a then 1 else 0) + separatorsAhead (pos.advance a) l

theorem advance_of_endsRecord {pos : Position} {a : Letter} (h : pos.endsRecord a = true) :
    pos.advance a = .startRecord := by
  cases pos <;> cases a <;> first | rfl | cases h

theorem isBreak_of_endsRecord {pos : Position} {a : Letter} (h : pos.endsRecord a = true) :
    a = .cr ∨ a = .lf := by
  cases a <;> first | exact Or.inl rfl | exact Or.inr rfl | cases pos <;> cases h

/-- Every record is ended by a carriage return, by a line feed, or by the end of the text. -/
theorem length_records (pos : Position) (n : ℕ) (l : List Letter) :
    (records pos n l).length + idleFeeds pos l =
      l.count .lf + carriageEnds pos l + if (endPosition pos l).inRecord then 1 else 0 := by
  induction l generalizing pos n with
  | nil =>
    rw [records]
    show _ + 0 = 0 + 0 + if pos.inRecord then 1 else 0
    split <;> rfl
  | cons a l ih =>
    rw [records, idleFeeds, countWhere, carriageEnds, countWhere, endPosition, List.foldl_cons]
    change _ + (_ + idleFeeds _ l) = _ + (_ + carriageEnds _ l) +
      if (endPosition (pos.advance a) l).inRecord then 1 else 0
    rw [List.count_cons]
    by_cases hend : pos.endsRecord a = true
    · have ih := ih (pos.advance a) 0
      rw [if_pos hend, List.length_cons, ← advance_of_endsRecord hend]
      rcases isBreak_of_endsRecord hend with rfl | rfl
      · simp only [hend, reduceCtorEq, decide_false, Bool.false_and, decide_true, Bool.true_and,
          beq_iff_eq, if_false, if_true]
        omega
      · simp only [hend, reduceCtorEq, decide_false, Bool.false_and, decide_true, Bool.true_and,
          Bool.not_true, BEq.rfl, if_false, if_true, Bool.false_eq_true]
        omega
    · have ih := ih (pos.advance a) (n + if pos.separates a then 1 else 0)
      rw [if_neg hend]
      rw [Bool.not_eq_true] at hend
      simp only [hend, Bool.and_false, Bool.not_false, Bool.and_true, Bool.false_eq_true, if_false,
        decide_eq_true_eq, beq_iff_eq]
      omega

/-- The fields of the first record. -/
theorem head_records {pos : Position} {n header : ℕ} {l : List Letter} {rows : List ℕ}
    (h : records pos n l = header :: rows) : header = n + separatorsAhead pos l + 1 := by
  induction l generalizing pos n with
  | nil =>
    rw [records] at h
    split at h
    · cases h
      rfl
    · cases h
  | cons a l ih =>
    rw [records] at h
    rw [separatorsAhead]
    by_cases hend : pos.endsRecord a = true
    · rw [if_pos hend] at h
      rw [if_pos hend]
      cases h
      rfl
    · rw [if_neg hend] at h
      rw [if_neg hend, ih h]
      omega

theorem separatorsAhead_append {pos : Position} {u v : List Letter}
    (h : countWhere endsRecord pos u = 0) :
    separatorsAhead pos (u ++ v) =
      countWhere separates pos u + separatorsAhead (endPosition pos u) v := by
  induction u generalizing pos with
  | nil => exact (Nat.zero_add _).symm
  | cons a u ih =>
    rw [countWhere] at h ⊢
    by_cases hend : pos.endsRecord a = true
    · rw [if_pos hend] at h
      omega
    · rw [if_neg hend, Nat.zero_add] at h
      rw [List.cons_append, separatorsAhead, if_neg hend, ih h, Nat.add_assoc]
      rfl

/-- Line breaks at the beginning are blank lines. -/
theorem records_dropWhile (l : List Letter) :
    records .startRecord 0 (l.dropWhile Letter.isBreak) = records .startRecord 0 l := by
  induction l with
  | nil => rfl
  | cons a l ih =>
    cases a with
    | cr => exact ih
    | lf => exact ih
    | comma => rfl
    | quote => rfl
    | blank => rfl
    | other => rfl

/-! ### A reader of one line -/

inductive ReaderState where
  | startRecord
  | startField
  | inField
  | inQuotedField
  | quoteInQuotedField
  | eatCrnl
  deriving DecidableEq

structure Reader where
  state : ReaderState
  fields : ℕ
  fieldLen : ℕ

namespace Reader

/-- `csv.field_size_limit()`. -/
def fieldLimit : ℕ := 131072

def saveField (r : Reader) (state : ReaderState) : Reader := ⟨state, r.fields + 1, 0⟩

def addChar (r : Reader) (state : ReaderState) : Option Reader :=
  if r.fieldLen < fieldLimit then some ⟨state, r.fields, r.fieldLen + 1⟩ else none

def processStartField (r : Reader) : Letter → Option Reader
  | .cr => some (r.saveField .eatCrnl)
  | .lf => some (r.saveField .eatCrnl)
  | .quote => some { r with state := .inQuotedField }
  | .comma => some (r.saveField .startField)
  | _ => r.addChar .inField

/-- One character; a character after a line break is an error. -/
def processChar (r : Reader) (a : Letter) : Option Reader :=
  match r.state, a with
  | .startRecord, .cr => some { r with state := .eatCrnl }
  | .startRecord, .lf => some { r with state := .eatCrnl }
  | .startRecord, a => r.processStartField a
  | .startField, a => r.processStartField a
  | .inField, .cr => some (r.saveField .eatCrnl)
  | .inField, .lf => some (r.saveField .eatCrnl)
  | .inField, .comma => some (r.saveField .startField)
  | .inField, _ => r.addChar .inField
  | .inQuotedField, .quote => some { r with state := .quoteInQuotedField }
  | .inQuotedField, _ => r.addChar .inQuotedField
  | .quoteInQuotedField, .quote => r.addChar .inQuotedField
  | .quoteInQuotedField, .comma => some (r.saveField .startField)
  | .quoteInQuotedField, .cr => some (r.saveField .eatCrnl)
  | .quoteInQuotedField, .lf => some (r.saveField .eatCrnl)
  | .quoteInQuotedField, _ => r.addChar .inField
  | .eatCrnl, .cr => some r
  | .eatCrnl, .lf => some r
  | .eatCrnl, _ => none

/-- The end of the only line: a field that is still quoted is saved as it is. -/
def fieldsAtEnd (r : Reader) : ℕ :=
  match r.state with
  | .startRecord => r.fields
  | .eatCrnl => r.fields
  | _ => r.fields + 1

end Reader

/-- The number of fields that the reader finds in a line. -/
def readerRow (line : List Letter) : Option ℕ :=
  (line.foldlM Reader.processChar ⟨.startRecord, 0, 0⟩).map Reader.fieldsAtEnd

/-! ### The reader and the records -/

/-- The reader stands where the parser of records does. -/
def Agrees : ReaderState → Position → Prop
  | .startRecord, pos => pos = .startRecord
  | .startField, pos => pos = .startField
  | .inField, pos => pos = .inField ∨ pos = .blankLine
  | .inQuotedField, pos => pos = .inQuotedField
  | .quoteInQuotedField, pos => pos = .quoteInQuotedField
  | .eatCrnl, _ => False

theorem eq_of_addChar {r r' : Reader} {state : ReaderState} (h : r.addChar state = some r') :
    r' = ⟨state, r.fields, r.fieldLen + 1⟩ := by
  rw [Reader.addChar] at h
  split at h
  · exact (Option.some.inj h).symm
  · cases h

/-- One character, unless it is a line break outside quotes. -/
theorem agrees_processChar {r r' : Reader} {a : Letter} {pos : Position}
    (h : r.processChar a = some r') (hagrees : Agrees r.state pos) :
    (r'.state = .eatCrnl ∧ a.isBreak = true) ∨
      (Agrees r'.state (pos.advance a) ∧ pos.endsRecord a = false ∧
        r'.fields = r.fields + if pos.separates a then 1 else 0) := by
  obtain ⟨state, fields, fieldLen⟩ := r
  cases state with
  | eatCrnl => exact hagrees.elim
  | inField =>
    rcases hagrees with rfl | rfl
    all_goals cases a <;> first
      | (cases h; exact Or.inl ⟨rfl, rfl⟩)
      | (cases h; exact Or.inr ⟨rfl, rfl, rfl⟩)
      | (cases eq_of_addChar h; exact Or.inr ⟨Or.inl rfl, rfl, rfl⟩)
      | (cases eq_of_addChar h; exact Or.inr ⟨Or.inr rfl, rfl, rfl⟩)
  | _ =>
    cases hagrees
    cases a <;> first
      | (cases h; exact Or.inl ⟨rfl, rfl⟩)
      | (cases h; exact Or.inr ⟨rfl, rfl, rfl⟩)
      | (cases eq_of_addChar h; exact Or.inr ⟨rfl, rfl, rfl⟩)
      | (cases eq_of_addChar h; exact Or.inr ⟨Or.inl rfl, rfl, rfl⟩)
      | (cases eq_of_addChar h; exact Or.inr ⟨Or.inr rfl, rfl, rfl⟩)

/-- After a line break there are only line breaks. -/
theorem isBreak_of_eatCrnl {r r' : Reader} {l : List Letter} (hstate : r.state = .eatCrnl)
    (h : l.foldlM Reader.processChar r = some r') : ∀ a ∈ l, a.isBreak = true := by
  induction l with
  | nil => simp
  | cons a l ih =>
    rw [List.foldlM_cons] at h
    obtain ⟨r₁, hchar, hrest⟩ := Option.bind_eq_some_iff.mp h
    have hsame : a.isBreak = true ∧ r₁ = r := by
      obtain ⟨state, fields, fieldLen⟩ := r
      cases hstate
      cases a <;> cases hchar <;> exact ⟨rfl, rfl⟩
    rw [hsame.2] at hrest
    exact List.forall_mem_cons.mpr ⟨hsame.1, ih hrest⟩

/-- A line that does not end with a line break. -/
theorem agrees_foldlM {r r' : Reader} {l : List Letter} {pos : Position}
    (h : l.foldlM Reader.processChar r = some r') (hagrees : Agrees r.state pos)
    (hlast : ∀ a ∈ l.getLast?, a.isBreak = false) :
    Agrees r'.state (endPosition pos l) ∧ countWhere endsRecord pos l = 0 ∧
      r'.fields = r.fields + countWhere separates pos l := by
  induction l generalizing r pos with
  | nil =>
    cases h
    exact ⟨hagrees, rfl, rfl⟩
  | cons a l ih =>
    rw [List.foldlM_cons] at h
    obtain ⟨r₁, hchar, h⟩ := Option.bind_eq_some_iff.mp h
    rcases agrees_processChar hchar hagrees with ⟨hstate, hbreak⟩ | ⟨hagrees, hend, hfields⟩
    · -- what follows a line break are line breaks
      have hall : ∀ b ∈ a :: l, b.isBreak = true :=
        List.forall_mem_cons.mpr ⟨hbreak, isBreak_of_eatCrnl hstate h⟩
      have hbreak := hall _ (List.getLast_mem (List.cons_ne_nil a l))
      rw [hlast _ (List.getLast?_eq_some_getLast (List.cons_ne_nil a l))] at hbreak
      cases hbreak
    · have hlast : ∀ b ∈ l.getLast?, b.isBreak = false := fun b hb =>
        hlast b (List.mem_getLast?_cons hb)
      obtain ⟨hagrees, hnone, hall⟩ := ih h hagrees hlast
      refine ⟨hagrees, ?_, ?_⟩
      · rw [countWhere, hend, hnone]
        rfl
      · rw [hall, hfields, countWhere]
        omega

theorem isBreak_of_advance {pos : Position} {a : Letter} (h : pos.advance a = .startRecord) :
    a.isBreak = true := by
  cases a <;> first | rfl | cases pos <;> cases h

/-- **On a line that does not end with a line break, the reader finds the separators of the
records, and no record ends in it.** -/
theorem readerRow_eq {l : List Letter} {columns : ℕ} (hne : l ≠ [])
    (hlast : ∀ a ∈ l.getLast?, a.isBreak = false) (h : readerRow l = some columns) :
    columns = countWhere separates .startRecord l + 1 ∧
      countWhere endsRecord .startRecord l = 0 := by
  obtain ⟨r, hfold, rfl⟩ := Option.map_eq_some_iff.mp h
  obtain ⟨hagrees, hnone, hfields⟩ :=
    agrees_foldlM hfold (show Agrees .startRecord .startRecord from rfl) hlast
  refine ⟨?_, hnone⟩
  rw [Nat.zero_add] at hfields
  rw [Reader.fieldsAtEnd]
  cases hstate : r.state with
  | eatCrnl =>
    rw [hstate] at hagrees
    exact hagrees.elim
  | startRecord =>
    -- the parser is back at the start of a record only after a line break
    rw [hstate] at hagrees
    obtain ⟨l, a, rfl⟩ := List.eq_nil_or_concat l |>.resolve_left hne
    rw [endPosition, List.concat_eq_append, List.foldl_append] at hagrees
    have hbreak := isBreak_of_advance hagrees
    rw [hlast a (by simp)] at hbreak
    cases hbreak
  | _ => rw [hfields]

end AllocationKeys.Csv
