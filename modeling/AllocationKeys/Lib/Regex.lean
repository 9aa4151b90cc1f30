import Mathlib.Data.List.Basic
import Mathlib.Tactic.Common

/-!
# Backtracking patterns

Regular expressions as a backtracking engine runs them, over loops on a class of characters: a
greedy loop tries the longest run first, a lazy one the shortest, and the first choice with which
all that follows matches is taken. `finditer` gives the groups of the matches, from left to right,
each search resuming where the match before it ended.

* `greedy_append`, `lazy_append`: when a loop stops where it is expected to;
* `exists_of_greedy`, `exists_of_lazy`: where a loop can stop, and that a lazy one could not have
  stopped before;
* `finditer_skip`, `finditer_match`: a step of the search; `exists_of_mem_finditer`: where its
  matches come from.
-/

namespace AllocationKeys.Regex

variable {β : Type*}

/-! ### Loops -/

section Loops

variable (p : Char → Bool) (k : List Char → Option β)

/-- As many characters of the class as possible, and then what `k` matches. -/
def greedy : List Char → Option β
  | [] => k []
  | c :: cs => if p c then (greedy cs).or (k (c :: cs)) else k (c :: cs)

/-- As few characters of the class as possible, and then what `k` matches. -/
def lazy : List Char → Option β
  | [] => k []
  | c :: cs => (k (c :: cs)).or (if p c then lazy cs else none)

variable {p k}

/-- A greedy repetition takes all it can, if the rest then matches. -/
theorem greedy_append {u v : List Char} {b : β} (hu : ∀ c ∈ u, p c = true)
    (hv : ∀ c ∈ v.head?, p c = false) (hk : k v = some b) : greedy p k (u ++ v) = some b := by
  induction u with
  | nil =>
    cases v with
    | nil => exact hk
    | cons c v => rw [List.nil_append, greedy, hv c rfl, if_neg Bool.false_ne_true, hk]
  | cons c u ih =>
    rw [List.cons_append, greedy, if_pos (hu c (List.mem_cons_self ..)),
      ih fun d hd => hu d (List.mem_cons_of_mem _ hd)]
    rfl

/-- What it takes. -/
theorem exists_of_greedy {s : List Char} {b : β} (h : greedy p k s = some b) :
    ∃ u v, s = u ++ v ∧ (∀ c ∈ u, p c = true) ∧ k v = some b := by
  induction s with
  | nil => exact ⟨[], [], rfl, by simp, h⟩
  | cons c s ih =>
    rw [greedy] at h
    by_cases hc : p c = true
    · rw [if_pos hc, Option.or_eq_some_iff] at h
      rcases h with hlonger | ⟨-, hk⟩
      · obtain ⟨u, v, rfl, hu, hk⟩ := ih hlonger
        exact ⟨c :: u, v, rfl, by simpa [hc] using hu, hk⟩
      · exact ⟨[], c :: s, rfl, by simp, hk⟩
    · rw [if_neg hc] at h
      exact ⟨[], c :: s, rfl, by simp, h⟩

/-- A lazy repetition takes the least after which the rest matches. -/
theorem lazy_append {u v : List Char} {b : β} (hu : ∀ c ∈ u, p c = true)
    (hbefore : ∀ u₁ u₂, u = u₁ ++ u₂ → u₂ ≠ [] → k (u₂ ++ v) = none) (hk : k v = some b) :
    lazy p k (u ++ v) = some b := by
  induction u with
  | nil =>
    cases v with
    | nil => exact hk
    | cons c v =>
      rw [List.nil_append, lazy, hk]
      rfl
  | cons c u ih =>
    have hnot := hbefore [] (c :: u) rfl (by simp)
    rw [List.cons_append] at hnot ⊢
    rw [lazy, hnot, Option.none_or, if_pos (hu c (List.mem_cons_self ..))]
    refine ih (fun d hd => hu d (List.mem_cons_of_mem _ hd)) fun u₁ u₂ heq hne => ?_
    exact hbefore (c :: u₁) u₂ (by rw [heq, List.cons_append]) hne

/-- What it takes, and that less would not do. -/
theorem exists_of_lazy {s : List Char} {b : β} (h : lazy p k s = some b) :
    ∃ u v, s = u ++ v ∧ (∀ c ∈ u, p c = true) ∧ k v = some b ∧
      ∀ u₁ u₂, u = u₁ ++ u₂ → u₂ ≠ [] → k (u₂ ++ v) = none := by
  induction s with
  | nil => exact ⟨[], [], rfl, by simp, h, by simp⟩
  | cons c s ih =>
    rw [lazy] at h
    cases hk : k (c :: s) with
    | some b' =>
      rw [hk] at h
      exact ⟨[], c :: s, rfl, by simp, hk.trans h, by simp⟩
    | none =>
      rw [hk, Option.none_or] at h
      by_cases hc : p c = true
      · rw [if_pos hc] at h
        obtain ⟨u, v, rfl, hu, hv, hbefore⟩ := ih h
        refine ⟨c :: u, v, rfl, by simpa [hc] using hu, hv, fun u₁ u₂ heq hne => ?_⟩
        rcases List.cons_eq_append_iff.mp heq with ⟨rfl, rfl⟩ | ⟨u₁', rfl, heq'⟩
        · exact hk
        · exact hbefore u₁' u₂ heq' hne
      · rw [if_neg hc] at h
        cases h

end Loops

/-! ### Patterns -/

/-- Patterns with groups that do not nest. -/
inductive Pattern where
  | text (word : List Char)
  | char (p : Char → Bool)
  | many (p : Char → Bool)
  | manyLazy (p : Char → Bool)
  | seq (first second : Pattern)
  | group (inner : Pattern)

namespace Pattern

/-- One or more. -/
def plus (p : Char → Bool) : Pattern := .seq (.char p) (.many p)

/-- The groups that are captured before, and what is left to match. -/
def run : Pattern → (List (List Char) → List Char → Option β) → List (List Char) → List Char →
    Option β
  | text word, k, groups, s =>
      if word.isPrefixOf s then k groups (s.drop word.length) else none
  | char _, _, _, [] => none
  | char p, k, groups, c :: s => if p c then k groups s else none
  | many p, k, groups, s => greedy p (k groups) s
  | manyLazy p, k, groups, s => lazy p (k groups) s
  | seq first second, k, groups, s => first.run (second.run k) groups s
  | group inner, k, groups, s =>
      inner.run (fun groups' rest => k (groups' ++ [s.take (s.length - rest.length)]) rest) groups s

/-- The match at the beginning of a text, and what is left. -/
def first (r : Pattern) (s : List Char) : Option (List (List Char) × List Char) :=
  r.run (fun groups rest => some (groups, rest)) [] s

variable {k : List (List Char) → List Char → Option β} {groups : List (List Char)} {b : β}
  {p : Char → Bool} {s : List Char}

@[simp] theorem run_seq (r₁ r₂ : Pattern) :
    (seq r₁ r₂).run k groups s = r₁.run (r₂.run k) groups s :=
  rfl

/-- A literal matches itself. -/
theorem run_text_append (word s : List Char) :
    (text word).run k groups (word ++ s) = k groups s := by
  rw [run, if_pos (List.isPrefixOf_iff_prefix.mpr (List.prefix_append ..)), List.drop_left]

/-- A literal matches nothing else. -/
theorem exists_of_text {word : List Char} (h : (text word).run k groups s = some b) :
    ∃ rest, s = word ++ rest ∧ k groups rest = some b := by
  rw [run] at h
  by_cases hword : word.isPrefixOf s = true
  · obtain ⟨rest, rfl⟩ := List.isPrefixOf_iff_prefix.mp hword
    rw [if_pos hword, List.drop_left] at h
    exact ⟨rest, rfl, h⟩
  · rw [if_neg hword] at h
    cases h

/-- A text that begins otherwise does not match. -/
theorem run_text_of_ne {c d : Char} (hne : c ≠ d) (word s : List Char) :
    (text (c :: word)).run k groups (d :: s) = none := by
  rw [run, if_neg]
  simp [hne]

/-- A repetition of at least one character. -/
theorem run_plus_append {u v : List Char} (hne : u ≠ []) (hu : ∀ c ∈ u, p c = true)
    (hv : ∀ c ∈ v.head?, p c = false) (hk : k groups v = some b) :
    (plus p).run k groups (u ++ v) = some b := by
  cases u with
  | nil => exact absurd rfl hne
  | cons c u =>
    rw [plus, run_seq, List.cons_append, run, if_pos (hu c (List.mem_cons_self ..))]
    exact greedy_append (fun d hd => hu d (List.mem_cons_of_mem _ hd)) hv hk

/-- What it matches. -/
theorem exists_of_plus (h : (plus p).run k groups s = some b) :
    ∃ u v, s = u ++ v ∧ u ≠ [] ∧ (∀ c ∈ u, p c = true) ∧ k groups v = some b := by
  cases s with
  | nil => cases h
  | cons c s =>
    rw [plus, run_seq, run] at h
    by_cases hc : p c = true
    · rw [if_pos hc] at h
      obtain ⟨u, v, rfl, hu, hk⟩ := exists_of_greedy h
      exact ⟨c :: u, v, rfl, by simp, by simpa [hc] using hu, hk⟩
    · rw [if_neg hc] at h
      cases h

/-! ### Groups -/

/-- What a group captures of a text that is matched up to `v`. -/
theorem take_length_sub (u v : List Char) : (u ++ v).take ((u ++ v).length - v.length) = u := by
  rw [List.length_append, Nat.add_sub_cancel, List.take_left]

/-- A captured greedy repetition. -/
theorem run_group_many_append {u v : List Char} (hu : ∀ c ∈ u, p c = true)
    (hv : ∀ c ∈ v.head?, p c = false) (hk : k (groups ++ [u]) v = some b) :
    (group (many p)).run k groups (u ++ v) = some b := by
  refine greedy_append hu hv ?_
  show k (groups ++ [(u ++ v).take ((u ++ v).length - v.length)]) v = some b
  rw [take_length_sub, hk]

/-- What it captures. -/
theorem exists_of_group_many (h : (group (many p)).run k groups s = some b) :
    ∃ u v, s = u ++ v ∧ (∀ c ∈ u, p c = true) ∧ k (groups ++ [u]) v = some b := by
  obtain ⟨u, v, rfl, hu, hk⟩ := exists_of_greedy h
  change k (groups ++ [(u ++ v).take ((u ++ v).length - v.length)]) v = some b at hk
  rw [take_length_sub] at hk
  exact ⟨u, v, rfl, hu, hk⟩

/-- A captured lazy repetition. -/
theorem run_group_manyLazy_append {u v : List Char} (hu : ∀ c ∈ u, p c = true)
    (hbefore : ∀ u₁ u₂, u = u₁ ++ u₂ → u₂ ≠ [] → k (groups ++ [u₁]) (u₂ ++ v) = none)
    (hk : k (groups ++ [u]) v = some b) :
    (group (manyLazy p)).run k groups (u ++ v) = some b := by
  refine lazy_append hu (fun u₁ u₂ heq hne => ?_) ?_
  · show k (groups ++ [(u ++ v).take ((u ++ v).length - (u₂ ++ v).length)]) (u₂ ++ v) = none
    rw [heq, List.append_assoc, take_length_sub]
    exact hbefore u₁ u₂ heq hne
  · show k (groups ++ [(u ++ v).take ((u ++ v).length - v.length)]) v = some b
    rw [take_length_sub, hk]

/-- What it captures, and that less would not do. -/
theorem exists_of_group_manyLazy (h : (group (manyLazy p)).run k groups s = some b) :
    ∃ u v, s = u ++ v ∧ (∀ c ∈ u, p c = true) ∧ k (groups ++ [u]) v = some b ∧
      ∀ u₁ u₂, u = u₁ ++ u₂ → u₂ ≠ [] → k (groups ++ [u₁]) (u₂ ++ v) = none := by
  obtain ⟨u, v, rfl, hu, hk, hbefore⟩ := exists_of_lazy h
  change k (groups ++ [(u ++ v).take ((u ++ v).length - v.length)]) v = some b at hk
  rw [take_length_sub] at hk
  refine ⟨u, v, rfl, hu, hk, fun u₁ u₂ heq hne => ?_⟩
  have hnone :
      k (groups ++ [(u ++ v).take ((u ++ v).length - (u₂ ++ v).length)]) (u₂ ++ v) = none :=
    hbefore u₁ u₂ heq hne
  rwa [heq, List.append_assoc, take_length_sub] at hnone

/-- A captured repetition of at least one character. -/
theorem run_group_plus_append {u v : List Char} (hne : u ≠ []) (hu : ∀ c ∈ u, p c = true)
    (hv : ∀ c ∈ v.head?, p c = false) (hk : k (groups ++ [u]) v = some b) :
    (group (plus p)).run k groups (u ++ v) = some b := by
  refine run_plus_append hne hu hv ?_
  rw [take_length_sub, hk]

/-- What it captures. -/
theorem exists_of_group_plus (h : (group (plus p)).run k groups s = some b) :
    ∃ u v, s = u ++ v ∧ u ≠ [] ∧ (∀ c ∈ u, p c = true) ∧ k (groups ++ [u]) v = some b := by
  obtain ⟨u, v, rfl, hne, hu, hk⟩ := exists_of_plus h
  rw [take_length_sub] at hk
  exact ⟨u, v, rfl, hne, hu, hk⟩

/-! ### All matches -/

/-- The groups of the matches after the next `skip` characters. -/
def finditerFrom (r : Pattern) : ℕ → List Char → List (List (List Char))
  | _, [] => []
  | skip + 1, _ :: s => r.finditerFrom skip s
  | 0, c :: s =>
      match r.first (c :: s) with
      | none => r.finditerFrom 0 s
      | some (groups, rest) => groups :: r.finditerFrom (s.length - rest.length) s

/-- The groups of all matches, from left to right. -/
def finditer (r : Pattern) (s : List Char) : List (List (List Char)) := r.finditerFrom 0 s

variable {r : Pattern}

/-- Characters to be skipped are left out of the search. -/
theorem finditerFrom_eq (skip : ℕ) (s : List Char) :
    r.finditerFrom skip s = r.finditer (s.drop skip) := by
  induction s generalizing skip with
  | nil => simp [finditer, finditerFrom]
  | cons c s ih =>
    cases skip with
    | zero => rfl
    | succ skip => rw [finditerFrom, ih, List.drop_succ_cons]

@[simp] theorem finditer_nil : r.finditer [] = [] := rfl

/-- Where nothing matches the search goes on a character later. -/
theorem finditer_skip {c : Char} (h : r.first (c :: s) = none) :
    r.finditer (c :: s) = r.finditer s := by
  rw [finditer, finditerFrom, h]
  rfl

/-- After a match it goes on behind it. -/
theorem finditer_match {u v : List Char} (hne : u ≠ []) (h : r.first (u ++ v) = some (groups, v)) :
    r.finditer (u ++ v) = groups :: r.finditer v := by
  cases u with
  | nil => exact absurd rfl hne
  | cons c u =>
    rw [List.cons_append] at h ⊢
    rw [finditer, finditerFrom, h]
    show groups :: r.finditerFrom ((u ++ v).length - v.length) (u ++ v) = _
    rw [finditerFrom_eq, List.length_append, Nat.add_sub_cancel, List.drop_left]

/-- Every match is one from some place on. -/
theorem exists_of_mem_finditerFrom {skip : ℕ} (h : groups ∈ r.finditerFrom skip s) :
    ∃ s' rest, r.first s' = some (groups, rest) := by
  induction s generalizing skip with
  | nil => cases skip <;> cases h
  | cons c s ih =>
    cases skip with
    | succ skip => exact ih h
    | zero =>
      rw [finditerFrom] at h
      cases hfirst : r.first (c :: s) with
      | none =>
        rw [hfirst] at h
        exact ih h
      | some found =>
        rw [hfirst] at h
        rcases List.mem_cons.mp h with rfl | h
        · exact ⟨c :: s, found.2, hfirst⟩
        · exact ih h

theorem exists_of_mem_finditer (h : groups ∈ r.finditer s) :
    ∃ s' rest, r.first s' = some (groups, rest) :=
  exists_of_mem_finditerFrom h

end Pattern

end AllocationKeys.Regex
