import Mathlib.Data.Int.Notation
import Mathlib.Data.List.Nodup
import Mathlib.Data.Nat.Notation
import Mathlib.Tactic.Common

/-!
# JSON as Python writes and reads it

`json.dumps` with its default escaping, where every character outside the printable ASCII range is
written as an escape, and `json.loads`. Values are without floating point numbers, and strings
without lone surrogates; the parser fails on a text that holds one of these. An object is the list
of its members, which a dictionary holds in order and with one value for each key.

* `parse_print`: what is printed is read back;
* `printable_print`: a printed text is made of printable ASCII characters, one byte each.
-/

namespace AllocationKeys

inductive Json where
  | null
  | bool (b : Bool)
  | int (n : ℤ)
  | str (s : String)
  | arr (items : List Json)
  | obj (members : List (String × Json))

namespace Json

/-! ### Printing -/

/-- The characters with an escape of their own, and its letter. -/
def escapes : List (Char × Char) :=
  [('"', '"'), ('\\', '\\'), ('\n', 'n'), ('\r', 'r'), ('\t', 't'), ('\x08', 'b'), ('\x0c', 'f')]

/-- Four hexadecimal digits. -/
def hex4 (n : ℕ) : List Char :=
  [Nat.digitChar (n / 4096 % 16), Nat.digitChar (n / 256 % 16), Nat.digitChar (n / 16 % 16),
    Nat.digitChar (n % 16)]

/-- `ESCAPE_ASCII`; a character beyond the basic plane is a pair of surrogates. -/
def escape (c : Char) : List Char :=
  match escapes.lookup c with
  | some letter => ['\\', letter]
  | none =>
      if 32 ≤ c.toNat ∧ c.toNat ≤ 126 then [c]
      else if c.toNat < 65536 then '\\' :: 'u' :: hex4 c.toNat
      else '\\' :: 'u' :: (hex4 (55296 + (c.toNat - 65536) / 1024) ++
        '\\' :: 'u' :: hex4 (56320 + (c.toNat - 65536) % 1024))

def printString (s : String) : List Char := '"' :: (s.toList.flatMap escape ++ ['"'])

def printInt (n : ℤ) : List Char :=
  (if n < 0 then ['-'] else []) ++ Nat.toDigits 10 n.natAbs

mutual

/-- `json.dumps`, with `,` and `:` followed by `space`. -/
def print (space : List Char) : Json → List Char
  | .null => ['n', 'u', 'l', 'l']
  | .bool true => ['t', 'r', 'u', 'e']
  | .bool false => ['f', 'a', 'l', 's', 'e']
  | .int n => printInt n
  | .str s => printString s
  | .arr items => '[' :: printItems space true items
  | .obj members => '{' :: printMembers space true members

/-- The items from some place on, and the closing bracket. -/
def printItems (space : List Char) (first : Bool) : List Json → List Char
  | [] => [']']
  | v :: items =>
      (if first then [] else ',' :: space) ++ (print space v ++ printItems space false items)

def printMembers (space : List Char) (first : Bool) : List (String × Json) → List Char
  | [] => ['}']
  | (key, v) :: members =>
      (if first then [] else ',' :: space) ++ (printString key ++
        (':' :: space ++ (print space v ++ printMembers space false members)))

end

/-! ### Parsing -/

def isSpace (c : Char) : Bool := c = ' ' || c = '\t' || c = '\n' || c = '\r'

def skipSpace (cs : List Char) : List Char := cs.dropWhile isSpace

def hexValue (c : Char) : Option ℕ :=
  if '0' ≤ c ∧ c ≤ '9' then some (c.toNat - 48)
  else if 'a' ≤ c ∧ c ≤ 'f' then some (c.toNat - 87)
  else if 'A' ≤ c ∧ c ≤ 'F' then some (c.toNat - 55)
  else none

def scanHex4 : List Char → Option (ℕ × List Char)
  | a :: b :: c :: d :: cs => do
      let a ← hexValue a
      let b ← hexValue b
      let c ← hexValue c
      let d ← hexValue d
      some (a * 4096 + b * 256 + c * 16 + d, cs)
  | _ => none

/-- The second surrogate of a pair. -/
def scanLow : List Char → Option (ℕ × List Char)
  | '\\' :: 'u' :: cs => (scanHex4 cs).filter fun low => 56320 ≤ low.1 && low.1 < 57344
  | _ => none

/-- A character given by its number. -/
def scanUnicode (cs : List Char) : Option (Char × List Char) := do
  let (n, cs) ← scanHex4 cs
  if 55296 ≤ n ∧ n < 56320 then do
    let (low, cs) ← scanLow cs
    some (Char.ofNat (65536 + (n - 55296) * 1024 + (low - 56320)), cs)
  else if 56320 ≤ n ∧ n < 57344 then none
  else some (Char.ofNat n, cs)

/-- The characters that stand for themselves after a backslash are among the letters. -/
def unescape (letter : Char) : Option Char :=
  if letter = '/' then some '/' else (escapes.find? fun e => e.2 = letter).map Prod.fst

/-- What comes after a backslash. -/
def scanEscape : List Char → Option (Char × List Char)
  | [] => none
  | c :: cs => if c = 'u' then scanUnicode cs else (unescape c).map fun d => (d, cs)

/-- One character of a string. -/
def scanChar : List Char → Option (Char × List Char)
  | [] => none
  | c :: cs =>
      if c = '\\' then scanEscape cs else if c.toNat < 32 then none else some (c, cs)

/-- The rest of a string, after its opening quote. -/
def scanString : ℕ → List Char → Option (List Char × List Char)
  | 0, _ => none
  | _ + 1, '"' :: cs => some ([], cs)
  | n + 1, cs => do
      let (c, cs) ← scanChar cs
      let (s, cs) ← scanString n cs
      some (c :: s, cs)

def scanNat (cs : List Char) : Option (ℕ × List Char) :=
  match cs with
  | '0' :: cs => some (0, cs)
  | cs =>
      if cs.takeWhile Char.isDigit = [] then none
      else some (Nat.ofDigitChars 10 (cs.takeWhile Char.isDigit) 0, cs.dropWhile Char.isDigit)

/-- A number goes on with a fraction or an exponent. -/
def isFloat : List Char → Bool
  | '.' :: _ => true
  | 'e' :: _ => true
  | 'E' :: _ => true
  | _ => false

def scanSigned : List Char → Option (ℤ × List Char)
  | '-' :: cs => (scanNat cs).map fun r => (-(r.1 : ℤ), r.2)
  | cs => (scanNat cs).map fun r => ((r.1 : ℤ), r.2)

def scanInt (cs : List Char) : Option (Json × List Char) := do
  let (n, cs) ← scanSigned cs
  if isFloat cs then none else some (.int n, cs)

/-- The rest of a name, after its first letter. -/
def scanWord (word : List Char) (v : Json) (cs : List Char) : Option (Json × List Char) :=
  if cs.take word.length = word then some (v, cs.drop word.length) else none

/-- `dict(pairs)`: a later value replaces an earlier one. -/
def dict (pairs : List (String × Json)) : List (String × Json) :=
  pairs.foldl (fun members (key, v) =>
    if key ∈ members.map Prod.fst then
      members.map fun member => if member.1 = key then (key, v) else member
    else members ++ [(key, v)]) []

/-- A key and the colon. -/
def scanKey : List Char → Option (String × List Char)
  | '"' :: cs => do
      let (key, cs) ← scanString cs.length cs
      match skipSpace cs with
      | ':' :: cs => some (String.ofList key, cs)
      | _ => none
  | _ => none

mutual

def scanValue : ℕ → List Char → Option (Json × List Char)
  | 0, _ => none
  | _, [] => none
  | n + 1, c :: cs =>
      if c = '"' then (scanString cs.length cs).map fun (s, cs) => (.str (String.ofList s), cs)
      else if c = '[' then (scanItems n true cs).map fun (items, cs) => (.arr items, cs)
      else if c = '{' then (scanMembers n true cs).map fun (pairs, cs) => (.obj (dict pairs), cs)
      else if c = 'n' then scanWord ['u', 'l', 'l'] .null cs
      else if c = 't' then scanWord ['r', 'u', 'e'] (.bool true) cs
      else if c = 'f' then scanWord ['a', 'l', 's', 'e'] (.bool false) cs
      else scanInt (c :: cs)

/-- The items from some place on, up to the closing bracket. -/
def scanItems : ℕ → Bool → List Char → Option (List Json × List Char)
  | 0, _, _ => none
  | n + 1, first, cs =>
      match skipSpace cs with
      | [] => none
      | c :: cs =>
          if c = ']' then some ([], cs)
          else do
            let cs ← if first then some (c :: cs) else if c = ',' then some (skipSpace cs) else none
            let (v, cs) ← scanValue n cs
            let (items, cs) ← scanItems n false cs
            some (v :: items, cs)

def scanMembers : ℕ → Bool → List Char → Option (List (String × Json) × List Char)
  | 0, _, _ => none
  | n + 1, first, cs =>
      match skipSpace cs with
      | [] => none
      | c :: cs =>
          if c = '}' then some ([], cs)
          else do
            let cs ← if first then some (c :: cs) else if c = ',' then some (skipSpace cs) else none
            let (key, cs) ← scanKey cs
            let (v, cs) ← scanValue n (skipSpace cs)
            let (members, cs) ← scanMembers n false cs
            some ((key, v) :: members, cs)

end

/-- `json.loads`. -/
def parse (cs : List Char) : Option Json := do
  let (v, cs) ← scanValue cs.length (skipSpace cs)
  if skipSpace cs = [] then some v else none

/-! ### Strings -/

/-- A hexadecimal digit is read back. -/
theorem hexValue_digitChar : ∀ n < 16, hexValue (Nat.digitChar n) = some n := by decide

/-- Four digits are read back as the number they were printed from. -/
theorem scanHex4_hex4 {n : ℕ} (h : n < 65536) (cs : List Char) :
    scanHex4 (hex4 n ++ cs) = some (n, cs) := by
  have hdigit : ∀ m, hexValue (Nat.digitChar (m % 16)) = some (m % 16) := fun m =>
    hexValue_digitChar _ (Nat.mod_lt m (by omega))
  simp only [hex4, List.cons_append, List.nil_append, scanHex4, hdigit, Option.bind_eq_bind,
    Option.bind_some]
  have hvalue : n / 4096 % 16 * 4096 + n / 256 % 16 * 256 + n / 16 % 16 * 16 + n % 16 = n := by
    omega
  rw [hvalue]

/-- A character is outside the surrogates. -/
theorem toNat_scalar (c : Char) : c.toNat < 55296 ∨ 57343 < c.toNat ∧ c.toNat < 1114112 := c.valid

/-- A character below the surrogates' planes is read back from one escape. -/
theorem scanUnicode_basic {c : Char} (h : c.toNat < 65536) (cs : List Char) :
    scanUnicode (hex4 c.toNat ++ cs) = some (c, cs) := by
  have hscalar := toNat_scalar c
  simp only [scanUnicode, scanHex4_hex4 h, Option.bind_eq_bind, Option.bind_some]
  rw [if_neg (by omega), if_neg (by omega), Char.ofNat_toNat]

/-- Two escapes of a surrogate pair are one character. -/
theorem scanUnicode_surrogates {high low : ℕ} (hhigh : 55296 ≤ high ∧ high < 56320)
    (hlow : 56320 ≤ low ∧ low < 57344) (cs : List Char) :
    scanUnicode (hex4 high ++ '\\' :: 'u' :: (hex4 low ++ cs)) =
      some (Char.ofNat (65536 + (high - 55296) * 1024 + (low - 56320)), cs) := by
  have hscan : scanLow ('\\' :: 'u' :: (hex4 low ++ cs)) = some (low, cs) := by
    rw [scanLow, scanHex4_hex4 (by omega)]
    simp only [Option.filter, Bool.and_eq_true, decide_eq_true_eq]
    rw [if_pos hlow]
  simp only [scanUnicode, scanHex4_hex4 (show high < 65536 by omega), Option.bind_eq_bind,
    Option.bind_some]
  rw [if_pos hhigh, hscan]
  rfl

/-- A character beyond the first plane is read back from its two escapes. -/
theorem scanUnicode_pair {c : Char} (h : 65536 ≤ c.toNat) (cs : List Char) :
    scanUnicode (hex4 (55296 + (c.toNat - 65536) / 1024) ++
      '\\' :: 'u' :: (hex4 (56320 + (c.toNat - 65536) % 1024) ++ cs)) = some (c, cs) := by
  have hscalar := toNat_scalar c
  rw [scanUnicode_surrogates (by omega) (by omega)]
  have hvalue : 65536 + (55296 + (c.toNat - 65536) / 1024 - 55296) * 1024 +
      (56320 + (c.toNat - 65536) % 1024 - 56320) = c.toNat := by omega
  rw [hvalue, Char.ofNat_toNat]

/-- What an escape begins with ends no string. -/
theorem escape_eq (c : Char) : ∃ d ds, escape c = d :: ds ∧ d ≠ '"' ∧
    ∀ cs, scanChar (escape c ++ cs) = some (c, cs) := by
  by_cases hescape : c ∈ escapes.map Prod.fst
  · simp only [escapes, List.map_cons, List.map_nil, List.mem_cons, List.not_mem_nil, or_false]
      at hescape
    rcases hescape with rfl | rfl | rfl | rfl | rfl | rfl | rfl
    all_goals exact ⟨_, _, rfl, by decide, fun _ => rfl⟩
  · have hnone : escapes.lookup c = none := by
      rw [List.lookup_eq_none_iff]
      intro e he
      simp only [bne_iff_ne, ne_eq]
      exact fun heq => hescape (heq ▸ List.mem_map_of_mem he)
    have hplain : c ≠ '"' ∧ c ≠ '\\' := by
      constructor
      · rintro rfl
        exact hescape (by decide)
      · rintro rfl
        exact hescape (by decide)
    simp only [escape, hnone]
    by_cases hprintable : 32 ≤ c.toNat ∧ c.toNat ≤ 126
    · rw [if_pos hprintable]
      refine ⟨c, [], rfl, hplain.1, fun cs => ?_⟩
      simp only [List.cons_append, List.nil_append, scanChar]
      rw [if_neg hplain.2, if_neg (by omega)]
    · rw [if_neg hprintable]
      by_cases hbasic : c.toNat < 65536
      · rw [if_pos hbasic]
        refine ⟨_, _, rfl, by decide, fun cs => ?_⟩
        simp only [List.cons_append, scanChar, scanEscape, if_true]
        exact scanUnicode_basic hbasic cs
      · rw [if_neg hbasic]
        refine ⟨_, _, rfl, by decide, fun cs => ?_⟩
        simp only [List.cons_append, List.append_assoc, scanChar, scanEscape, if_true]
        exact scanUnicode_pair (by omega) cs

/-- Escaped characters are read back up to the closing quote. -/
theorem scanString_escape (s cs : List Char) {n : ℕ} (hn : s.length < n) :
    scanString n (s.flatMap escape ++ '"' :: cs) = some (s, cs) := by
  induction s generalizing n with
  | nil =>
    obtain ⟨n, rfl⟩ := Nat.exists_eq_add_of_lt hn
    rfl
  | cons c s ih =>
    obtain ⟨n, rfl⟩ : ∃ m, n = m + 1 := ⟨n - 1, by omega⟩
    obtain ⟨d, ds, hescape, hquote, hscan⟩ := escape_eq c
    have hstep := hscan (s.flatMap escape ++ '"' :: cs)
    rw [List.flatMap_cons, List.append_assoc]
    rw [hescape, List.cons_append] at hstep ⊢
    rw [scanString]
    · simp only [hstep, Option.bind_eq_bind, Option.bind_some]
      rw [ih (by simpa using hn)]
      rfl
    · exact fun _ heq => hquote (List.cons.inj heq).1

theorem length_flatMap_escape (s : List Char) : s.length ≤ (s.flatMap escape).length := by
  induction s with
  | nil => exact Nat.le_refl 0
  | cons c s ih =>
    obtain ⟨d, ds, hescape, -⟩ := escape_eq c
    simp only [List.flatMap_cons, List.length_append, List.length_cons, hescape]
    omega

/-- A printed string is read back. -/
theorem scanString_printString (s : String) (cs : List Char) :
    scanString (s.toList.flatMap escape ++ '"' :: cs).length
      (s.toList.flatMap escape ++ '"' :: cs) = some (s.toList, cs) := by
  have hlength := length_flatMap_escape s.toList
  refine scanString_escape s.toList cs ?_
  simp only [List.length_append, List.length_cons]
  omega

/-- The printed key of a member is read back, up to its value. -/
theorem scanKey_printString (key : String) (space cs : List Char) :
    scanKey (printString key ++ (':' :: space ++ cs)) = some (key, space ++ cs) := by
  have hskip : skipSpace (':' :: space ++ cs) = ':' :: space ++ cs := rfl
  simp only [printString, List.cons_append, List.append_assoc, List.nil_append, scanKey,
    scanString_printString, Option.bind_eq_bind, Option.bind_some] at hskip ⊢
  simp only [hskip, String.ofList_toList]

/-! ### Numbers -/

/-- What can come after a number that is not a fraction. -/
def Ends (cs : List Char) : Prop := ∀ c ∈ cs.head?, c.isDigit = false ∧ isFloat cs = false

/-- A positive number does not begin with a zero. -/
theorem head_toDigits (n : ℕ) (h : 0 < n) :
    ∃ d ds, Nat.toDigits 10 n = d :: ds ∧ d ≠ '0' ∧ d.isDigit = true := by
  induction n using Nat.strongRecOn with
  | _ n ih =>
    by_cases hn : n < 10
    · have hdigit : ∀ m < 10, 0 < m → Nat.digitChar m ≠ '0' ∧ (Nat.digitChar m).isDigit = true := by
        decide
      rw [Nat.toDigits_of_lt_base hn]
      exact ⟨_, _, rfl, hdigit n hn h⟩
    · obtain ⟨d, ds, heq, hd⟩ := ih (n / 10) (by omega) (by omega)
      rw [Nat.toDigits_of_base_le (by omega) (by omega), heq]
      exact ⟨d, _, rfl, hd⟩

/-- The digits end where something else begins. -/
theorem takeWhile_digits {ds cs : List Char} (hds : ∀ d ∈ ds, d.isDigit = true) (hcs : Ends cs) :
    (ds ++ cs).takeWhile Char.isDigit = ds ∧ (ds ++ cs).dropWhile Char.isDigit = cs := by
  induction ds with
  | nil =>
    cases cs with
    | nil => exact ⟨rfl, rfl⟩
    | cons c cs =>
      have hc := (hcs c rfl).1
      simp only [List.nil_append, List.takeWhile_cons, List.dropWhile_cons, hc, Bool.false_eq_true,
        if_false, and_self]
  | cons d ds ih =>
    obtain ⟨htake, hdrop⟩ := ih fun d' hd' => hds d' (List.mem_cons_of_mem d hd')
    have hd := hds d (List.mem_cons_self ..)
    simp only [List.cons_append, List.takeWhile_cons, List.dropWhile_cons, hd, if_true, htake,
      hdrop, and_self]

/-- A printed natural number is read back. -/
theorem scanNat_toDigits (n : ℕ) {cs : List Char} (hcs : Ends cs) :
    scanNat (Nat.toDigits 10 n ++ cs) = some (n, cs) := by
  rcases Nat.eq_zero_or_pos n with rfl | hpos
  · rw [Nat.toDigits_zero]
    rfl
  · obtain ⟨d, ds, heq, hzero, -⟩ := head_toDigits n hpos
    have hdigits : ∀ d ∈ Nat.toDigits 10 n, d.isDigit = true := fun d hd =>
      Nat.isDigit_of_mem_toDigits (by omega) (by omega) hd
    obtain ⟨htake, hdrop⟩ := takeWhile_digits hdigits hcs
    rw [heq] at htake hdrop ⊢
    rw [List.cons_append] at htake hdrop ⊢
    rw [scanNat]
    · rw [htake, hdrop, if_neg (by simp), ← heq, Nat.ofDigitChars_ten_toDigits]
    · exact fun _ hcons => hzero (List.cons.inj hcons).1

/-- The first character of a printed number. -/
theorem head_printInt (n : ℤ) : ∃ c ds, printInt n = c :: ds ∧ (c = '-' ∨ c.isDigit = true) := by
  by_cases hneg : n < 0
  · exact ⟨'-', Nat.toDigits 10 n.natAbs, by rw [printInt, if_pos hneg]; rfl, Or.inl rfl⟩
  · rw [printInt, if_neg hneg, List.nil_append]
    rcases Nat.eq_zero_or_pos n.natAbs with hzero | hpos
    · rw [hzero, Nat.toDigits_zero]
      exact ⟨'0', [], rfl, Or.inr rfl⟩
    · obtain ⟨d, ds, heq, -, hdigit⟩ := head_toDigits n.natAbs hpos
      exact ⟨d, ds, heq, Or.inr hdigit⟩

/-- A printed integer is read back. -/
theorem scanInt_printInt (n : ℤ) {cs : List Char} (hcs : Ends cs) :
    scanInt (printInt n ++ cs) = some (.int n, cs) := by
  have hfloat : isFloat cs = false := by
    cases cs with
    | nil => rfl
    | cons c cs => exact (hcs c rfl).2
  have hsigned : scanSigned (printInt n ++ cs) = some (n, cs) := by
    by_cases hneg : n < 0
    · rw [printInt, if_pos hneg, List.cons_append, List.nil_append, List.cons_append, scanSigned,
        scanNat_toDigits _ hcs]
      simp only [Option.map_some]
      have hvalue : -(n.natAbs : ℤ) = n := by omega
      rw [hvalue]
    · obtain ⟨c, ds, heq, hc⟩ := head_printInt n
      have hminus : c ≠ '-' := by
        rintro rfl
        rw [printInt, if_neg hneg, List.nil_append] at heq
        have hdigit := Nat.isDigit_of_mem_toDigits (c := '-') (b := 10) (n := n.natAbs) (by omega)
          (by omega) (heq ▸ List.mem_cons_self ..)
        cases hdigit
      have hscan : scanNat (printInt n ++ cs) = some (n.natAbs, cs) := by
        rw [printInt, if_neg hneg, List.nil_append]
        exact scanNat_toDigits _ hcs
      rw [heq, List.cons_append] at hscan ⊢
      rw [scanSigned]
      · rw [hscan]
        simp only [Option.map_some]
        have hvalue : (n.natAbs : ℤ) = n := by omega
        rw [hvalue]
      · exact fun _ hcons => hminus (List.cons.inj hcons).1
  simp only [scanInt, hsigned, Option.bind_eq_bind, Option.bind_some, hfloat, Bool.false_eq_true,
    if_false]

/-! ### Values -/

mutual

/-- The keys of every object are distinct, as those of a dictionary are. -/
def Valid : Json → Prop
  | .arr items => ValidItems items
  | .obj members => (members.map Prod.fst).Nodup ∧ ValidMembers members
  | _ => True

def ValidItems : List Json → Prop
  | [] => True
  | v :: items => v.Valid ∧ ValidItems items

def ValidMembers : List (String × Json) → Prop
  | [] => True
  | (_, v) :: members => v.Valid ∧ ValidMembers members

end

mutual

/-- The calls that parsing the value nests. -/
def depth : Json → ℕ
  | .arr items => 1 + depthItems items
  | .obj members => 1 + depthMembers members
  | _ => 1

def depthItems : List Json → ℕ
  | [] => 1
  | v :: items => 1 + max v.depth (depthItems items)

def depthMembers : List (String × Json) → ℕ
  | [] => 1
  | (_, v) :: members => 1 + max v.depth (depthMembers members)

end

/-- Members with different keys are not merged. -/
theorem dict_eq {pairs : List (String × Json)} (h : (pairs.map Prod.fst).Nodup) :
    dict pairs = pairs := by
  have hfold : ∀ pairs members : List (String × Json),
      ((members ++ pairs).map Prod.fst).Nodup →
      pairs.foldl (fun members (key, v) =>
        if key ∈ members.map Prod.fst then
          members.map fun member => if member.1 = key then (key, v) else member
        else members ++ [(key, v)]) members = members ++ pairs := by
    intro pairs
    induction pairs with
    | nil => exact fun members _ => (List.append_nil members).symm
    | cons pair pairs ih =>
      intro members hnodup
      have hnew : pair.1 ∉ members.map Prod.fst := by
        rw [List.map_append, List.nodup_append] at hnodup
        exact fun hmem => hnodup.2.2 _ hmem _ (List.mem_cons_self ..) rfl
      rw [List.foldl_cons]
      simp only [hnew, if_false]
      rw [ih _ (by simpa using hnodup), List.append_assoc, List.singleton_append]
  exact hfold pairs [] h

/-- The keys of a dictionary are distinct, and its members are some of the pairs. -/
theorem nodup_dict (pairs : List (String × Json)) :
    ((dict pairs).map Prod.fst).Nodup ∧ ∀ member ∈ dict pairs, member ∈ pairs := by
  have hfold : ∀ pairs members : List (String × Json), (members.map Prod.fst).Nodup →
      ((pairs.foldl (fun members (key, v) =>
        if key ∈ members.map Prod.fst then
          members.map fun member => if member.1 = key then (key, v) else member
        else members ++ [(key, v)]) members).map Prod.fst).Nodup ∧
      ∀ member ∈ pairs.foldl (fun members (key, v) =>
        if key ∈ members.map Prod.fst then
          members.map fun member => if member.1 = key then (key, v) else member
        else members ++ [(key, v)]) members, member ∈ members ∨ member ∈ pairs := by
    intro pairs
    induction pairs with
    | nil => exact fun members hnodup => ⟨hnodup, fun member hmember => Or.inl hmember⟩
    | cons pair pairs ih =>
      intro members hnodup
      rw [List.foldl_cons]
      by_cases hold : pair.1 ∈ members.map Prod.fst
      · -- a name that is there keeps its place and gets the new value
        simp only [hold, if_true]
        have hkeys : (members.map fun member => if member.1 = pair.1 then (pair.1, pair.2)
            else member).map Prod.fst = members.map Prod.fst := by
          rw [List.map_map]
          refine List.map_congr_left fun member _ => ?_
          by_cases heq : member.1 = pair.1
          · simp only [Function.comp_apply, if_pos heq]
            exact heq.symm
          · simp only [Function.comp_apply, if_neg heq]
        obtain ⟨hnodup', hmem⟩ := ih _ (hkeys ▸ hnodup)
        refine ⟨hnodup', fun member hmember => ?_⟩
        rcases hmem member hmember with hmember | hmember
        · obtain ⟨old, hold', rfl⟩ := List.mem_map.mp hmember
          by_cases heq : old.1 = pair.1
          · rw [if_pos heq]
            exact Or.inr (List.mem_cons_self ..)
          · rw [if_neg heq]
            exact Or.inl hold'
        · exact Or.inr (List.mem_cons_of_mem pair hmember)
      · -- a new name comes last
        simp only [hold, if_false]
        obtain ⟨hnodup', hmem⟩ := ih (members ++ [(pair.1, pair.2)]) (by
          rw [List.map_append, List.nodup_append]
          refine ⟨hnodup, List.nodup_singleton _, fun key hkey key' hkey' heq => hold ?_⟩
          rw [List.map_cons, List.map_nil, List.mem_singleton] at hkey'
          rw [← hkey', ← heq]
          exact hkey)
        refine ⟨hnodup', fun member hmember => ?_⟩
        rcases hmem member hmember with hmember | hmember
        · rcases List.mem_append.mp hmember with hmember | hmember
          · exact Or.inl hmember
          · rw [List.mem_singleton.mp hmember]
            exact Or.inr (List.mem_cons_self ..)
        · exact Or.inr (List.mem_cons_of_mem pair hmember)
  obtain ⟨hnodup, hmem⟩ := hfold pairs [] List.nodup_nil
  exact ⟨hnodup, fun member hmember => (hmem member hmember).resolve_left (List.not_mem_nil)⟩

/-- A digit begins no other value, and no space. -/
theorem not_space_of_digit {c : Char} (h : c.isDigit = true) : isSpace c = false ∧ c ≠ ']' ∧
    c ≠ '}' ∧ c ≠ '"' ∧ c ≠ '[' ∧ c ≠ '{' ∧ c ≠ 'n' ∧ c ≠ 't' ∧ c ≠ 'f' := by
  refine ⟨?_, ?_, ?_, ?_, ?_, ?_, ?_, ?_, ?_⟩
  · by_contra hspace
    simp only [isSpace, Bool.not_eq_false, Bool.or_eq_true, decide_eq_true_eq] at hspace
    rcases hspace with ((rfl | rfl) | rfl) | rfl <;> cases h
  all_goals
    rintro rfl
    cases h

variable {space : List Char}

/-- What a printed value begins with. -/
theorem head_print (space : List Char) (v : Json) :
    ∃ c cs, print space v = c :: cs ∧ isSpace c = false ∧ c ≠ ']' := by
  cases v with
  | null => exact ⟨'n', _, by rw [print], rfl, by decide⟩
  | bool b => cases b <;> exact ⟨_, _, by rw [print], rfl, by decide⟩
  | int n =>
    obtain ⟨c, ds, heq, rfl | hdigit⟩ := head_printInt n
    · exact ⟨'-', ds, by rw [print, heq], rfl, by decide⟩
    · obtain ⟨hspace, hbracket, -⟩ := not_space_of_digit hdigit
      exact ⟨c, ds, by rw [print, heq], hspace, hbracket⟩
  | str s => exact ⟨'"', _, by rw [print, printString], rfl, by decide⟩
  | arr items => exact ⟨'[', _, by rw [print], rfl, by decide⟩
  | obj members => exact ⟨'{', _, by rw [print], rfl, by decide⟩

theorem skipSpace_cons {c : Char} (h : isSpace c = false) (cs : List Char) :
    skipSpace (c :: cs) = c :: cs := by
  rw [skipSpace, List.dropWhile_cons, h, if_neg Bool.false_ne_true]

/-- No value begins with a space. -/
theorem skipSpace_print (hspace : ∀ c ∈ space, isSpace c = true) (v : Json) (cs : List Char) :
    skipSpace (space ++ (print space v ++ cs)) = print space v ++ cs := by
  obtain ⟨c, ds, heq, hc, -⟩ := head_print space v
  rw [skipSpace, List.dropWhile_append_of_pos hspace, heq, List.cons_append]
  exact skipSpace_cons hc _

/-- A number ends at a character that continues none. -/
theorem ends_cons {c : Char} {cs : List Char} (h : c.isDigit = false)
    (hfloat : c ≠ '.' ∧ c ≠ 'e' ∧ c ≠ 'E') : Ends (c :: cs) := by
  intro d hd
  cases hd
  refine ⟨h, ?_⟩
  unfold isFloat
  split
  · rename_i heq
    exact absurd (List.cons.inj heq).1 hfloat.1
  · rename_i heq
    exact absurd (List.cons.inj heq).1 hfloat.2.1
  · rename_i heq
    exact absurd (List.cons.inj heq).1 hfloat.2.2
  · rfl

/-- A number ends where the next item or the bracket begins. -/
theorem ends_printItems (items : List Json) (cs : List Char) :
    Ends (printItems space false items ++ cs) := by
  cases items with
  | nil =>
    rw [printItems]
    exact ends_cons rfl (by decide)
  | cons v items =>
    rw [printItems, if_neg Bool.false_ne_true]
    exact ends_cons rfl (by decide)

/-- A number ends where the next member or the brace begins. -/
theorem ends_printMembers (members : List (String × Json)) (cs : List Char) :
    Ends (printMembers space false members ++ cs) := by
  cases members with
  | nil =>
    rw [printMembers]
    exact ends_cons rfl (by decide)
  | cons member members =>
    rw [printMembers, if_neg Bool.false_ne_true]
    exact ends_cons rfl (by decide)

mutual

/-- A printed value is scanned back, and what follows it is left. -/
theorem scanValue_print (hspace : ∀ c ∈ space, isSpace c = true) :
    ∀ (v : Json), v.Valid → ∀ {n : ℕ} {cs : List Char}, v.depth ≤ n → Ends cs →
      scanValue n (print space v ++ cs) = some (v, cs)
  | .null, _, 0, _, hn, _ => by simp only [depth] at hn; omega
  | .null, _, n + 1, cs, _, _ => by
    simp only [print, List.cons_append, List.nil_append, scanValue]
    rfl
  | .bool b, _, 0, _, hn, _ => by simp only [depth] at hn; omega
  | .bool true, _, n + 1, cs, _, _ => by
    simp only [print, List.cons_append, List.nil_append, scanValue]
    rfl
  | .bool false, _, n + 1, cs, _, _ => by
    simp only [print, List.cons_append, List.nil_append, scanValue]
    rfl
  | .int m, _, 0, _, hn, _ => by simp only [depth] at hn; omega
  | .int m, _, n + 1, cs, _, hcs => by
    have hscan := scanInt_printInt m hcs
    rw [print]
    obtain ⟨c, ds, heq, hc⟩ := head_printInt m
    have hplain : c ≠ '"' ∧ c ≠ '[' ∧ c ≠ '{' ∧ c ≠ 'n' ∧ c ≠ 't' ∧ c ≠ 'f' := by
      rcases hc with rfl | hdigit
      · decide
      · exact (not_space_of_digit hdigit).2.2.2
    rw [heq, List.cons_append] at hscan ⊢
    simp only [scanValue, hplain, if_false, hscan]
  | .str s, _, 0, _, hn, _ => by simp only [depth] at hn; omega
  | .str s, _, n + 1, cs, _, _ => by
    simp only [print, printString, List.cons_append, List.append_assoc, List.nil_append, scanValue,
      if_true, scanString_printString, Option.map_some, String.ofList_toList]
  | .arr items, _, 0, _, hn, _ => by simp only [depth] at hn; omega
  | .arr items, hvalid, n + 1, cs, hn, _ => by
    simp only [Valid] at hvalid
    simp only [depth] at hn
    have hitems : scanItems n true (printItems space true items ++ cs) = some (items, cs) :=
      scanItems_print hspace items hvalid true (by omega)
    rw [print, List.cons_append, scanValue, if_neg (by decide), if_pos rfl, hitems]
    rfl
  | .obj members, _, 0, _, hn, _ => by simp only [depth] at hn; omega
  | .obj members, hvalid, n + 1, cs, hn, _ => by
    simp only [Valid] at hvalid
    simp only [depth] at hn
    have hmembers : scanMembers n true (printMembers space true members ++ cs) =
        some (members, cs) := scanMembers_print hspace members hvalid.2 true (by omega)
    rw [print, List.cons_append, scanValue, if_neg (by decide), if_neg (by decide), if_pos rfl,
      hmembers]
    simp only [Option.map_some, dict_eq hvalid.1]

/-- Printed items are read back; the induction is on the items. -/
theorem scanItems_print (hspace : ∀ c ∈ space, isSpace c = true) :
    ∀ (items : List Json), ValidItems items → ∀ (first : Bool) {n : ℕ} {cs : List Char},
      depthItems items ≤ n →
      scanItems n first (printItems space first items ++ cs) = some (items, cs)
  | [], _, _, 0, _, hn => by simp only [depthItems] at hn; omega
  | [], _, first, n + 1, cs, _ => by
    rw [printItems, List.cons_append, scanItems, skipSpace_cons rfl]
    rfl
  | v :: items, _, _, 0, _, hn => by simp only [depthItems] at hn; omega
  | v :: items, hvalid, first, n + 1, cs, hn => by
    simp only [ValidItems] at hvalid
    simp only [depthItems] at hn
    have hvalue : scanValue n (print space v ++ (printItems space false items ++ cs)) = _ :=
      scanValue_print hspace v hvalid.1 (by omega) (ends_printItems items cs)
    have hrest : scanItems n false (printItems space false items ++ cs) = some (items, cs) :=
      scanItems_print hspace items hvalid.2 false (by omega)
    obtain ⟨c, ds, heq, hc, hbracket⟩ := head_print space v
    cases first with
    | true =>
      rw [printItems, if_pos rfl, List.nil_append, List.append_assoc, scanItems]
      rw [heq, List.cons_append] at hvalue ⊢
      simp only [skipSpace_cons hc, hbracket, if_false, if_true, Option.bind_eq_bind,
        Option.bind_some, hvalue, hrest]
    | false =>
      have hskip := skipSpace_print hspace v (printItems space false items ++ cs)
      rw [printItems, if_neg Bool.false_ne_true, List.append_assoc, List.append_assoc,
        List.cons_append, scanItems, skipSpace_cons rfl]
      simp only [Char.reduceEq, if_false, if_true, Bool.false_eq_true, Option.bind_eq_bind,
        Option.bind_some, hskip, hvalue, hrest]

/-- Printed members are read back; the induction is on the members. -/
theorem scanMembers_print (hspace : ∀ c ∈ space, isSpace c = true) :
    ∀ (members : List (String × Json)), ValidMembers members → ∀ (first : Bool) {n : ℕ}
      {cs : List Char}, depthMembers members ≤ n →
      scanMembers n first (printMembers space first members ++ cs) = some (members, cs)
  | [], _, _, 0, _, hn => by simp only [depthMembers] at hn; omega
  | [], _, first, n + 1, cs, _ => by
    rw [printMembers, List.cons_append, scanMembers, skipSpace_cons rfl]
    rfl
  | (key, v) :: members, _, _, 0, _, hn => by simp only [depthMembers] at hn; omega
  | (key, v) :: members, hvalid, first, n + 1, cs, hn => by
    simp only [ValidMembers] at hvalid
    simp only [depthMembers] at hn
    have hvalue : scanValue n (print space v ++ (printMembers space false members ++ cs)) = _ :=
      scanValue_print hspace v hvalid.1 (by omega) (ends_printMembers members cs)
    have hrest : scanMembers n false (printMembers space false members ++ cs) =
        some (members, cs) := scanMembers_print hspace members hvalid.2 false (by omega)
    have hskip := skipSpace_print hspace v (printMembers space false members ++ cs)
    have hkey := scanKey_printString key space
      (print space v ++ (printMembers space false members ++ cs))
    have hmembers : printMembers space first ((key, v) :: members) ++ cs =
        (if first then [] else ',' :: space) ++ (printString key ++ (':' :: space ++
          (print space v ++ (printMembers space false members ++ cs)))) := by
      rw [printMembers]
      simp only [List.append_assoc, List.cons_append]
    have hquote : ∀ cs, skipSpace (printString key ++ cs) = printString key ++ cs := fun cs =>
      skipSpace_cons rfl _
    rw [hmembers]
    cases first with
    | true =>
      -- the first name follows the brace
      rw [if_pos rfl, List.nil_append, scanMembers, hquote]
      rw [printString, List.cons_append] at hkey ⊢
      simp only [Char.reduceEq, if_false, if_true, Option.bind_eq_bind, Option.bind_some, hkey,
        hskip, hvalue, hrest]
    | false =>
      -- the others follow a comma
      have hafter : ∀ cs, skipSpace (space ++ (printString key ++ cs)) = printString key ++ cs := by
        intro cs
        rw [skipSpace, List.dropWhile_append_of_pos hspace]
        exact hquote cs
      rw [if_neg Bool.false_ne_true, List.cons_append, scanMembers, skipSpace_cons rfl]
      simp only [Char.reduceEq, if_false, if_true, Bool.false_eq_true, Option.bind_eq_bind,
        Option.bind_some, hafter, hkey, hskip, hvalue, hrest]

end

mutual

/-- A text is as long as its value is deep, so its length is fuel enough. -/
theorem depth_le_length : ∀ v : Json, v.depth ≤ (print space v).length
  | .null => by simp only [depth, print, List.length_cons]; omega
  | .bool true => by simp only [depth, print, List.length_cons]; omega
  | .bool false => by simp only [depth, print, List.length_cons]; omega
  | .int n => by
    obtain ⟨c, ds, heq, -⟩ := head_printInt n
    simp only [depth, print, heq, List.length_cons]
    omega
  | .str s => by
    simp only [depth, print, printString, List.length_cons]
    omega
  | .arr items => by
    have hitems := depthItems_le_length items true
    simp only [depth, print, List.length_cons]
    omega
  | .obj members => by
    have hmembers := depthMembers_le_length members true
    simp only [depth, print, List.length_cons]
    omega

theorem depthItems_le_length : ∀ (items : List Json) (first : Bool),
    depthItems items ≤ (printItems space first items).length
  | [], _ => by simp only [depthItems, printItems, List.length_cons]; omega
  | v :: items, first => by
    have hvalue := depth_le_length v
    have hitems := depthItems_le_length items false
    obtain ⟨c, cs, heq, -⟩ := head_print space v
    have hfirst : 0 < (print space v).length := by rw [heq]; exact Nat.succ_pos _
    have hrest : 0 < (printItems space false items).length := by
      cases items <;> simp [printItems]
    simp only [depthItems, printItems, List.length_append]
    omega

theorem depthMembers_le_length : ∀ (members : List (String × Json)) (first : Bool),
    depthMembers members ≤ (printMembers space first members).length
  | [], _ => by simp only [depthMembers, printMembers, List.length_cons]; omega
  | (key, v) :: members, first => by
    have hvalue := depth_le_length v
    have hmembers := depthMembers_le_length members false
    simp only [depthMembers, printMembers, List.length_append, List.length_cons]
    omega

end

/-- **What is printed is read back**, whatever spaces follow the separators. -/
theorem parse_print (hspace : ∀ c ∈ space, isSpace c = true) {v : Json} (h : v.Valid) :
    parse (print space v) = some v := by
  have hends : Ends [] := fun c hc => by cases hc
  have hscan : scanValue (print space v).length (print space v ++ []) = some (v, []) :=
    scanValue_print hspace v h (depth_le_length v) hends
  obtain ⟨c, cs, heq, hc, -⟩ := head_print space v
  have hskip : skipSpace (print space v) = print space v := by
    rw [heq]
    exact skipSpace_cons hc cs
  rw [List.append_nil] at hscan
  rw [parse, hskip, hscan]
  rfl

/-! ### The characters of a printed text -/

/-- A printable ASCII character. -/
def Printable (c : Char) : Prop := 32 ≤ c.toNat ∧ c.toNat ≤ 126

instance (c : Char) : Decidable (Printable c) := inferInstanceAs (Decidable (_ ∧ _))

theorem printable_of_all {cs : List Char} (h : cs.all (fun c => decide (Printable c)) = true) :
    ∀ c ∈ cs, Printable c := fun c hc => of_decide_eq_true (List.all_eq_true.mp h c hc)

theorem printable_hex4 (n : ℕ) : ∀ c ∈ hex4 n, Printable c := by
  have hdigit : ∀ m < 16, Printable (Nat.digitChar m) := by decide
  intro c hc
  simp only [hex4, List.mem_cons, List.not_mem_nil, or_false] at hc
  rcases hc with rfl | rfl | rfl | rfl <;> exact hdigit _ (Nat.mod_lt _ (by omega))

/-- What is escaped is printable ASCII. -/
theorem printable_escape (c : Char) : ∀ d ∈ escape c, Printable d := by
  intro d hd
  have hletters : ∀ e ∈ escapes, Printable e.2 := by decide
  have hfixed : Printable '\\' ∧ Printable 'u' := by decide
  unfold escape at hd
  split at hd
  · rename_i letter hlookup
    rcases List.mem_cons.mp hd with rfl | hletter
    · exact hfixed.1
    · rw [List.mem_singleton] at hletter
      subst hletter
      obtain ⟨before, after, heq, -⟩ := List.lookup_eq_some_iff.mp hlookup
      exact hletters (c, d) (heq ▸ List.mem_append_right before (List.mem_cons_self ..))
  · split at hd
    · rename_i hprintable
      rw [List.mem_singleton] at hd
      exact hd ▸ hprintable
    · split at hd
      · rcases List.mem_cons.mp hd with rfl | hd
        · exact hfixed.1
        · rcases List.mem_cons.mp hd with rfl | hd
          · exact hfixed.2
          · exact printable_hex4 _ d hd
      · rcases List.mem_cons.mp hd with rfl | hd
        · exact hfixed.1
        · rcases List.mem_cons.mp hd with rfl | hd
          · exact hfixed.2
          · rcases List.mem_append.mp hd with hd | hd
            · exact printable_hex4 _ d hd
            · rcases List.mem_cons.mp hd with rfl | hd
              · exact hfixed.1
              · rcases List.mem_cons.mp hd with rfl | hd
                · exact hfixed.2
                · exact printable_hex4 _ d hd

theorem printable_printString (s : String) : ∀ c ∈ printString s, Printable c := by
  have hquote : Printable '"' := by decide
  intro c hc
  rcases List.mem_cons.mp hc with rfl | hc
  · exact hquote
  · rcases List.mem_append.mp hc with hc | hc
    · obtain ⟨d, -, hd⟩ := List.mem_flatMap.mp hc
      exact printable_escape d c hd
    · rw [List.mem_singleton] at hc
      exact hc ▸ hquote

theorem printable_printInt (n : ℤ) : ∀ c ∈ printInt n, Printable c := by
  have hdigit : ∀ c : Char, c.isDigit = true → Printable c := by
    intro c hc
    simp only [Char.isDigit, Bool.and_eq_true, decide_eq_true_eq] at hc
    have hlow : 48 ≤ c.toNat := hc.1
    have hhigh : c.toNat ≤ 57 := hc.2
    exact ⟨by omega, by omega⟩
  intro c hc
  rcases List.mem_append.mp hc with hc | hc
  · split at hc
    · rw [List.mem_singleton] at hc
      subst hc
      decide
    · cases hc
  · exact hdigit c (Nat.isDigit_of_mem_toDigits (by omega) (by omega) hc)

mutual

/-- A printed value is printable ASCII, if the space is. -/
theorem printable_print (hspace : ∀ c ∈ space, Printable c) :
    ∀ v : Json, ∀ c ∈ print space v, Printable c
  | .null => by rw [print]; exact printable_of_all rfl
  | .bool true => by rw [print]; exact printable_of_all rfl
  | .bool false => by rw [print]; exact printable_of_all rfl
  | .int n => by rw [print]; exact printable_printInt n
  | .str s => by rw [print]; exact printable_printString s
  | .arr items => by
    rw [print]
    exact List.forall_mem_cons.mpr ⟨by decide, printable_printItems hspace items true⟩
  | .obj members => by
    rw [print]
    exact List.forall_mem_cons.mpr ⟨by decide, printable_printMembers hspace members true⟩

theorem printable_printItems (hspace : ∀ c ∈ space, Printable c) :
    ∀ (items : List Json) (first : Bool), ∀ c ∈ printItems space first items, Printable c
  | [], _ => by rw [printItems]; exact printable_of_all rfl
  | v :: items, first => by
    rw [printItems]
    refine List.forall_mem_append.mpr ⟨?_, List.forall_mem_append.mpr
      ⟨printable_print hspace v, printable_printItems hspace items false⟩⟩
    cases first with
    | true => exact fun _ h => by cases h
    | false => exact List.forall_mem_cons.mpr ⟨by decide, hspace⟩

theorem printable_printMembers (hspace : ∀ c ∈ space, Printable c) :
    ∀ (members : List (String × Json)) (first : Bool),
      ∀ c ∈ printMembers space first members, Printable c
  | [], _ => by rw [printMembers]; exact printable_of_all rfl
  | (key, v) :: members, first => by
    rw [printMembers]
    refine List.forall_mem_append.mpr ⟨?_, List.forall_mem_append.mpr ⟨printable_printString key,
      List.forall_mem_append.mpr ⟨List.forall_mem_cons.mpr ⟨by decide, hspace⟩,
        List.forall_mem_append.mpr
          ⟨printable_print hspace v, printable_printMembers hspace members false⟩⟩⟩⟩
    cases first with
    | true => exact fun _ h => by cases h
    | false => exact List.forall_mem_cons.mpr ⟨by decide, hspace⟩

end

end Json

end AllocationKeys
