import Mathlib.Data.List.Basic
import Mathlib.Algebra.Order.Ring.Nat
import Mathlib.Tactic.Common

/-!
# Decoding UTF-8 with replacements

`decode` decodes bytes as UTF-8 and puts U+FFFD for what is no character, once for each longest
beginning of one. Code points are numbers.

* `decode_append`: ASCII bytes are decoded on their own, whatever is before them;
* `getLast?_decode`: the last character is an ASCII one only if the last byte is;
* `foldl_decode`: a fold that takes all characters from U+0080 on alike, and several like one, takes
  the decoded text as it takes the bytes.
-/

namespace AllocationKeys.Utf8

/-- Part of a character: its bits, the range of the next byte, and how many more follow that. The
code is U+0080 at least, whatever follows. -/
structure Pending where
  bits : ℕ
  low : ℕ
  high : ℕ
  more : ℕ
  low_le : 0x80 ≤ low
  code_le : 0x80 ≤ (bits * 64 + (low - 0x80)) * 64 ^ more

/-- What a byte begins. -/
inductive Lead where
  | ascii
  | pending (pending : Pending)
  | invalid

def lead (b : ℕ) : Lead :=
  if b < 0x80 then .ascii
  else if h : 0xC2 ≤ b ∧ b ≤ 0xDF then
    .pending ⟨b - 0xC0, 0x80, 0xBF, 0, by omega, by simp; omega⟩
  else if b = 0xE0 then .pending ⟨0, 0xA0, 0xBF, 1, by omega, by omega⟩
  else if b = 0xED then .pending ⟨0xD, 0x80, 0x9F, 1, by omega, by omega⟩
  else if h : 0xE1 ≤ b ∧ b ≤ 0xEF then
    .pending ⟨b - 0xE0, 0x80, 0xBF, 1, by omega, by simp; omega⟩
  else if b = 0xF0 then .pending ⟨0, 0x90, 0xBF, 2, by omega, by omega⟩
  else if b = 0xF4 then .pending ⟨4, 0x80, 0x8F, 2, by omega, by omega⟩
  else if h : 0xF1 ≤ b ∧ b ≤ 0xF3 then
    .pending ⟨b - 0xF0, 0x80, 0xBF, 2, by omega, by simp; omega⟩
  else .invalid

def replacement : ℕ := 0xFFFD

/-- The bits with those of a byte in the range. -/
def Pending.code (p : Pending) (b : ℕ) : ℕ := p.bits * 64 + (b - 0x80)

theorem Pending.code_mul_le {p : Pending} {b : ℕ} (h : p.low ≤ b) : 0x80 ≤ p.code b * 64 ^ p.more :=
  Nat.le_trans p.code_le
    (Nat.mul_le_mul_right _ (Nat.add_le_add_left (Nat.sub_le_sub_right h _) _))

/-- The characters that are complete after a byte, and what is not complete. -/
def start (b : ℕ) : List ℕ × Option Pending :=
  match lead b with
  | .ascii => ([b], none)
  | .pending p => ([], some p)
  | .invalid => ([replacement], none)

def step (p : Option Pending) (b : ℕ) : List ℕ × Option Pending :=
  match p with
  | none => start b
  | some p =>
      if h : p.low ≤ b ∧ b ≤ p.high then
        match hmore : p.more with
        | 0 => ([p.code b], none)
        | more + 1 => ([], some ⟨p.code b, 0x80, 0xBF, more, Nat.le_refl _, by
            have := p.code_mul_le h.1
            rw [hmore, Nat.pow_succ] at this
            rw [Nat.sub_self, Nat.add_zero, Nat.mul_assoc, Nat.mul_comm 64]
            exact this⟩)
      else (replacement :: (start b).1, (start b).2)

def decodeFrom : Option Pending → List ℕ → List ℕ
  | none, [] => []
  | some _, [] => [replacement]
  | p, b :: bs => (step p b).1 ++ decodeFrom (step p b).2 bs

/-- `decode("utf-8", errors="replace")`. -/
def decode (bs : List UInt8) : List ℕ := decodeFrom none (bs.map UInt8.toNat)

example : decode [0x61, 0xC3, 0xA9, 0xE2, 0x82, 0x2C, 0xFF, 0xF0, 0x9F] =
    [0x61, 0xE9, replacement, 0x2C, replacement, replacement] := by decide

/-! ### ASCII bytes -/

theorem start_ascii {b : ℕ} (h : b < 0x80) : start b = ([b], none) := by
  rw [start, lead, if_pos h]

theorem step_ascii {b : ℕ} (h : b < 0x80) (p : Option Pending) :
    step p b = (decodeFrom p [] ++ [b], none) := by
  cases p with
  | none => rw [step, start_ascii h]; rfl
  | some p =>
    have hlow := p.low_le
    rw [step, dif_neg (by omega), start_ascii h]
    rfl

theorem decodeFrom_ascii {w : List ℕ} (h : ∀ b ∈ w, b < 0x80) (p : Option Pending) :
    decodeFrom p w = decodeFrom p [] ++ w := by
  induction w generalizing p with
  | nil => rw [List.append_nil]
  | cons b w ih =>
    obtain ⟨hb, h⟩ := List.forall_mem_cons.mp h
    rw [decodeFrom, step_ascii hb, ih h]
    show (decodeFrom p [] ++ [b]) ++ ([] ++ w) = _
    simp

theorem decodeFrom_append (p : Option Pending) (bs : List ℕ) {w : List ℕ} (h : ∀ b ∈ w, b < 0x80) :
    decodeFrom p (bs ++ w) = decodeFrom p bs ++ w := by
  induction bs generalizing p with
  | nil => exact decodeFrom_ascii h p
  | cons b bs ih => rw [List.cons_append, decodeFrom, decodeFrom, ih, List.append_assoc]

theorem decode_append (bs : List UInt8) {w : List UInt8} (h : ∀ b ∈ w, b.toNat < 0x80) :
    decode (bs ++ w) = decode bs ++ w.map UInt8.toNat := by
  rw [decode, List.map_append, decodeFrom_append none _ (by simpa using h)]
  rfl

/-! ### The characters of a byte -/

/-- What is complete after a byte is that byte, or no ASCII character; and a byte that completes
nothing leaves something pending. -/
theorem step_spec (p : Option Pending) (b : ℕ) :
    (∀ c ∈ (step p b).1, c = b ∨ 0x80 ≤ c) ∧ ((step p b).1 = [] → (step p b).2.isSome) := by
  have hstart :
      (∀ c ∈ (start b).1, c = b ∨ 0x80 ≤ c) ∧ ((start b).1 = [] → (start b).2.isSome) := by
    rw [start]
    cases lead b <;> simp [replacement]
  cases p with
  | none => exact hstart
  | some p =>
    rw [step]
    split
    · rename_i h
      split
      · rename_i hmore
        have hcode := p.code_mul_le h.1
        rw [hmore, Nat.pow_zero, Nat.mul_one] at hcode
        simp [hcode]
      · simp
    · simpa [replacement] using hstart.1

theorem decodeFrom_ne_nil {p : Option Pending} {bs : List ℕ} (h : p.isSome ∨ bs ≠ []) :
    decodeFrom p bs ≠ [] := by
  induction bs generalizing p with
  | nil =>
    cases p with
    | none => simp at h
    | some p => simp [decodeFrom]
  | cons b bs ih =>
    rw [decodeFrom]
    intro hnil
    obtain ⟨hfirst, hrest⟩ := List.append_eq_nil_iff.mp hnil
    exact ih (Or.inl ((step_spec p b).2 hfirst)) hrest

theorem getLast?_decodeFrom {p : Option Pending} {bs : List ℕ} (hne : bs ≠ []) {c : ℕ}
    (hc : c ∈ (decodeFrom p bs).getLast?) (hascii : c < 0x80) : c ∈ bs.getLast? := by
  induction bs generalizing p with
  | nil => exact absurd rfl hne
  | cons b bs ih =>
    rw [decodeFrom] at hc
    by_cases hrest : bs = []
    · subst hrest
      have hmem := List.mem_of_mem_getLast? hc
      rcases List.mem_append.mp hmem with hmem | hmem
      · rcases (step_spec p b).1 c hmem with rfl | hlarge
        · simp
        · omega
      · cases hp : (step p b).2 <;> rw [hp] at hmem <;> simp [decodeFrom, replacement] at hmem
        omega
    · rw [List.getLast?_append_of_ne_nil _ (decodeFrom_ne_nil (Or.inr hrest))] at hc
      rw [List.getLast?_cons_of_ne_nil hrest]
      exact ih hrest hc

theorem getLast?_decode {bs : List UInt8} (hne : bs ≠ []) {b : UInt8} (hb : b.toNat < 0x80)
    (hlast : b.toNat ∈ (decode bs).getLast?) : b ∈ bs.getLast? := by
  have hmem := getLast?_decodeFrom (by simpa using hne) hlast hb
  rw [List.getLast?_map] at hmem
  obtain ⟨b', hb', heq⟩ := Option.map_eq_some_iff.mp hmem
  rwa [UInt8.toNat_inj.mp heq] at hb'

/-! ### Folds -/

section Fold

variable {σ : Type*} {g : σ → ℕ → σ} (hhigh : ∀ s c, 0x80 ≤ c → g s c = g s 0x80)
  (habsorb : ∀ s, g (g s 0x80) 0x80 = g s 0x80)

include hhigh habsorb

omit habsorb in
theorem foldl_start (b : ℕ) (s : σ) :
    (if (start b).2.isSome then g ((start b).1.foldl g s) 0x80 else (start b).1.foldl g s) =
      g s b := by
  by_cases hb : b < 0x80
  · rw [start_ascii hb]
    rfl
  · have hsame : g s b = g s 0x80 := hhigh s b (by omega)
    rw [hsame, start]
    cases hlead : lead b with
    | ascii =>
      rw [lead, if_neg hb] at hlead
      split_ifs at hlead
    | pending p => rfl
    | invalid => exact hhigh s replacement (by decide)

/-- What is pending has been taken as one character from U+0080 on. -/
theorem foldl_step (p : Option Pending) (b : ℕ) (s : σ) :
    (if (step p b).2.isSome then g ((step p b).1.foldl g s) 0x80 else (step p b).1.foldl g s) =
      g (if p.isSome then g s 0x80 else s) b := by
  cases p with
  | none => exact foldl_start hhigh b s
  | some p =>
    rw [Option.isSome_some, if_pos rfl, step]
    split
    · rename_i h
      have hsame : g (g s 0x80) b = g s 0x80 := by
        rw [hhigh _ b (Nat.le_trans p.low_le h.1), habsorb]
      rw [hsame]
      split
      · rename_i hmore
        have hcode := p.code_mul_le h.1
        rw [hmore, Nat.pow_zero, Nat.mul_one] at hcode
        exact hhigh s _ hcode
      · rfl
    · rw [← foldl_start hhigh b (g s 0x80), ← hhigh s replacement (by decide)]
      rfl

theorem foldl_decodeFrom (p : Option Pending) (bs : List ℕ) (s : σ) :
    (decodeFrom p bs).foldl g s = bs.foldl g (if p.isSome then g s 0x80 else s) := by
  induction bs generalizing p s with
  | nil =>
    cases p with
    | none => rfl
    | some p => exact hhigh s replacement (by decide)
  | cons b bs ih =>
    rw [decodeFrom, List.foldl_append, ih, List.foldl_cons, foldl_step hhigh habsorb]

theorem foldl_decode (bs : List UInt8) (s : σ) :
    (decode bs).foldl g s = (bs.map UInt8.toNat).foldl g s := by
  rw [decode, foldl_decodeFrom hhigh habsorb]
  rfl

end Fold

end AllocationKeys.Utf8
