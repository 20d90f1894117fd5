import Mathlib.Data.List.TakeWhile
import Mathlib.Data.Nat.Digits.Lemmas

/-!
# Decimal numerals

Numbers in texts of bytes: white space, a sign and decimal digits.  A reader takes the longest
beginning of a text that is a numeral; a printer writes a number in its shortest form.

* `IsNumeral` — the texts that are numerals, with their numbers; `IsNumeral.unique`.
* `scan` — the numeral at the beginning of a text.
* `scan_append` — what is read when a numeral goes on, or does not; from it
  `scan_eq_some_iff` and `scan_eq_none_iff`: **the longest numeral is read**.
* `print` — the digits of a number, `printInt` with its sign; `isNumeral_printInt` — **what is
  printed is a numeral for the same number**, `length_printInt_le` — how long it is.
-/

namespace Rtp.Numeral

/-! ## Characters -/

/-- White space. -/
def isSpace (b : BitVec 8) : Bool := b.toNat = 32 ∨ 9 ≤ b.toNat ∧ b.toNat ≤ 13

/-- A decimal digit. -/
def isDigit (b : BitVec 8) : Bool := 48 ≤ b.toNat ∧ b.toNat ≤ 57

/-- The value of a digit. -/
def digitValue (b : BitVec 8) : ℕ := b.toNat - 48

/-- The character of a digit. -/
def digit (d : ℕ) : BitVec 8 := BitVec.ofNat 8 (48 + d)

/-- The value of digits, the first of them the highest. -/
def value (ds : List (BitVec 8)) : ℕ := Nat.ofDigits 10 (ds.map digitValue).reverse

/-- A sign, or none. -/
inductive Sign where
  | none
  | plus
  | minus
  deriving DecidableEq, Repr

namespace Sign

/-- How the sign is written. -/
def text : Sign → List (BitVec 8)
  | .none => []
  | .plus => [43#8]
  | .minus => [45#8]

/-- A number with the sign. -/
def apply (m : ℕ) : Sign → ℤ
  | .none => m
  | .plus => m
  | .minus => -m

end Sign

variable {b : BitVec 8}

theorem isDigit_iff : isDigit b ↔ 48 ≤ b.toNat ∧ b.toNat ≤ 57 := by
  simp [isDigit]

theorem isSpace_iff : isSpace b ↔ b.toNat = 32 ∨ 9 ≤ b.toNat ∧ b.toNat ≤ 13 := by
  simp [isSpace]

theorem not_isSpace_of_isDigit (h : isDigit b) : isSpace b = false := by
  rw [isDigit_iff] at h
  rw [← Bool.not_eq_true, isSpace_iff]
  omega

/-! ## Numerals -/

/-- The text is white space, a sign or none, and digits, with the number `z`. -/
def IsNumeral (text : List (BitVec 8)) (z : ℤ) : Prop :=
  ∃ spaces sign digits, text = spaces ++ (Sign.text sign ++ digits) ∧
    (∀ b ∈ spaces, isSpace b) ∧ digits ≠ [] ∧ (∀ b ∈ digits, isDigit b) ∧
    z = sign.apply (value digits)

theorem IsNumeral.ne_nil {text : List (BitVec 8)} {z : ℤ} (h : IsNumeral text z) : text ≠ [] := by
  obtain ⟨spaces, sign, digits, rfl, -, hne, -⟩ := h
  simp [hne]

/-- The sign at the beginning of a text, and the rest of it. -/
def scanSign : List (BitVec 8) → Sign × List (BitVec 8)
  | [] => (.none, [])
  | b :: rest =>
    if b = 45#8 then (.minus, rest)
    else if b = 43#8 then (.plus, rest)
    else (.none, b :: rest)

/-- The numeral at the beginning of a text: where it ends, and its number. -/
def scan (text : List (BitVec 8)) : Option (ℕ × ℤ) :=
  let spaces := text.takeWhile isSpace
  let (sign, rest) := scanSign (text.dropWhile isSpace)
  let digits := rest.takeWhile isDigit
  if digits = [] then none
  else some (spaces.length + sign.text.length + digits.length, sign.apply (value digits))

section Scan

variable {spaces digits rest text : List (BitVec 8)} {sign : Sign} {z z' : ℤ} {n : ℕ}

theorem scanSign_text_append (hne : digits ≠ []) (hdigits : ∀ b ∈ digits, isDigit b) :
    scanSign (sign.text ++ (digits ++ rest)) = (sign, digits ++ rest) := by
  cases sign with
  | none =>
    obtain ⟨b, ds, rfl⟩ := List.exists_cons_of_ne_nil hne
    have hb := isDigit_iff.mp (hdigits b List.mem_cons_self)
    have h45 : b ≠ 45#8 := by rintro rfl; simp at hb
    have h43 : b ≠ 43#8 := by rintro rfl; simp at hb
    simp [scanSign, Sign.text, h45, h43]
  | plus => rfl
  | minus => rfl

theorem scanSign_append (text : List (BitVec 8)) :
    (scanSign text).1.text ++ (scanSign text).2 = text := by
  cases text with
  | nil => rfl
  | cons b rest =>
    by_cases h45 : b = 45#8
    · simp [scanSign, Sign.text, h45]
    · by_cases h43 : b = 43#8
      · simp [scanSign, Sign.text, h43]
      · simp [scanSign, Sign.text, h45, h43]

/-- No white space after the sign. -/
theorem exists_cons_not_isSpace (hne : digits ≠ []) (hdigits : ∀ b ∈ digits, isDigit b) :
    ∃ b tail, sign.text ++ (digits ++ rest) = b :: tail ∧ isSpace b = false := by
  cases sign with
  | none =>
    obtain ⟨b, ds, rfl⟩ := List.exists_cons_of_ne_nil hne
    exact ⟨b, ds ++ rest, rfl, not_isSpace_of_isDigit (hdigits b List.mem_cons_self)⟩
  | plus => exact ⟨43#8, digits ++ rest, rfl, by decide⟩
  | minus => exact ⟨45#8, digits ++ rest, rfl, by decide⟩

/-- A numeral is read together with the digits that follow it. -/
theorem scan_append (hspaces : ∀ b ∈ spaces, isSpace b) (hne : digits ≠ [])
    (hdigits : ∀ b ∈ digits, isDigit b) :
    scan (spaces ++ (sign.text ++ (digits ++ rest))) =
      some ((spaces ++ (sign.text ++ digits)).length + (rest.takeWhile isDigit).length,
        sign.apply (value (digits ++ rest.takeWhile isDigit))) := by
  obtain ⟨b, tail, htail, hb⟩ := @exists_cons_not_isSpace digits rest sign hne hdigits
  have htake : (spaces ++ (sign.text ++ (digits ++ rest))).takeWhile isSpace = spaces := by
    rw [List.takeWhile_append_of_pos hspaces, htail, List.takeWhile_cons_of_neg (by simp [hb]),
      List.append_nil]
  have hdrop : (spaces ++ (sign.text ++ (digits ++ rest))).dropWhile isSpace =
      sign.text ++ (digits ++ rest) := by
    rw [List.dropWhile_append_of_pos hspaces, htail, List.dropWhile_cons_of_neg (by simp [hb])]
  unfold scan
  rw [htake, hdrop, scanSign_text_append hne hdigits]
  dsimp only
  rw [List.takeWhile_append_of_pos hdigits, if_neg (by simp [hne])]
  simp [Nat.add_assoc]

/-- The parts of a text that the reader goes by. -/
theorem exists_scan_eq (text : List (BitVec 8)) :
    ∃ spaces sign rest, text = spaces ++ (Sign.text sign ++ rest) ∧ (∀ b ∈ spaces, isSpace b) ∧
      scan text = if rest.takeWhile isDigit = [] then none
        else some ((spaces ++ (sign.text ++ rest.takeWhile isDigit)).length,
          sign.apply (value (rest.takeWhile isDigit))) := by
  refine ⟨text.takeWhile isSpace, (scanSign (text.dropWhile isSpace)).1,
    (scanSign (text.dropWhile isSpace)).2, ?_, fun b => List.mem_takeWhile_imp, ?_⟩
  · rw [scanSign_append, List.takeWhile_append_dropWhile]
  · rw [List.length_append, List.length_append, ← Nat.add_assoc]
    rfl

/-- What is read is a numeral, and no digit follows it. -/
theorem isNumeral_of_scan (h : scan text = some (n, z)) :
    n ≤ text.length ∧ IsNumeral (text.take n) z ∧ ∀ b, text[n]? = some b → isDigit b = false := by
  obtain ⟨spaces, sign, rest, htext, hspaces, hscan⟩ := exists_scan_eq text
  rw [h] at hscan
  split at hscan
  · simp at hscan
  next hne =>
    obtain ⟨rfl, rfl⟩ := Prod.mk.inj (Option.some.inj hscan)
    -- the text again, with the digits apart from what follows them
    have hparts : text = spaces ++ (sign.text ++ rest.takeWhile isDigit) ++
        rest.dropWhile isDigit := by
      rw [htext, List.append_assoc, List.append_assoc, List.takeWhile_append_dropWhile]
    rw [hparts]
    refine ⟨?_, ?_, fun b hb => ?_⟩
    · rw [@List.length_append _ _ (rest.dropWhile isDigit)]
      exact Nat.le_add_right _ _
    · rw [List.take_left]
      exact ⟨spaces, sign, rest.takeWhile isDigit, rfl, hspaces, hne,
        fun b => List.mem_takeWhile_imp, rfl⟩
    · rw [List.getElem?_append_right le_rfl, Nat.sub_self, ← List.head?_eq_getElem?] at hb
      have := List.head?_dropWhile_not isDigit rest
      rw [hb] at this
      exact this

/-- A numeral at the beginning of a text is read, with the digits that follow it. -/
theorem IsNumeral.scan_append (h : IsNumeral text z) (rest : List (BitVec 8)) :
    ∃ z', scan (text ++ rest) = some (text.length + (rest.takeWhile isDigit).length, z') ∧
      (rest.takeWhile isDigit = [] → z' = z) := by
  obtain ⟨spaces, sign, digits, rfl, hspaces, hne, hdigits, rfl⟩ := h
  rw [List.append_assoc, List.append_assoc, Numeral.scan_append hspaces hne hdigits]
  refine ⟨_, rfl, fun hnil => ?_⟩
  rw [hnil, List.append_nil]

theorem IsNumeral.scan_eq (h : IsNumeral text z) (hrest : rest.takeWhile isDigit = []) :
    scan (text ++ rest) = some (text.length, z) := by
  obtain ⟨z', hscan, hz⟩ := h.scan_append rest
  rw [hscan, hz hrest, hrest, List.length_nil, Nat.add_zero]

theorem IsNumeral.unique (h : IsNumeral text z) (h' : IsNumeral text z') : z = z' := by
  have heq := (h.scan_eq List.takeWhile_nil).symm.trans (h'.scan_eq List.takeWhile_nil)
  exact (Prod.mk.inj (Option.some.inj heq)).2

/-- Nothing is read if no beginning of the text is a numeral. -/
theorem scan_eq_none_iff : scan text = none ↔ ∀ k z, ¬IsNumeral (text.take k) z := by
  constructor
  · intro h k z hk
    obtain ⟨z', hscan, -⟩ := hk.scan_append (text.drop k)
    rw [List.take_append_drop, h] at hscan
    simp at hscan
  · intro h
    cases hscan : scan text with
    | none => rfl
    | some p => exact absurd (isNumeral_of_scan hscan).2.1 (h p.1 p.2)

/-- The longest beginning that is a numeral is read. -/
theorem scan_eq_some_iff :
    scan text = some (n, z) ↔ n ≤ text.length ∧ IsNumeral (text.take n) z ∧
      ∀ k z', n < k → k ≤ text.length → ¬IsNumeral (text.take k) z' := by
  have hlongest : ∀ {n z k z'}, scan text = some (n, z) → k ≤ text.length →
      IsNumeral (text.take k) z' → k ≤ n := by
    intro n z k z' hscan hk hnum
    obtain ⟨z'', hscan', -⟩ := hnum.scan_append (text.drop k)
    rw [List.take_append_drop, hscan, List.length_take_of_le hk] at hscan'
    obtain ⟨rfl, -⟩ := Prod.mk.inj (Option.some.inj hscan')
    exact Nat.le_add_right _ _
  constructor
  · intro h
    obtain ⟨hle, hnum, -⟩ := isNumeral_of_scan h
    exact ⟨hle, hnum, fun k z' hlt hk hnum' => absurd (hlongest h hk hnum') (by omega)⟩
  · rintro ⟨hle, hnum, hmax⟩
    cases hscan : scan text with
    | none => exact absurd hnum (scan_eq_none_iff.mp hscan n z)
    | some p =>
      obtain ⟨n', z'⟩ := p
      obtain ⟨hle', hnum', -⟩ := isNumeral_of_scan hscan
      have hle₁ := hlongest hscan hle hnum
      have hle₂ : n' ≤ n := Nat.not_lt.mp fun hlt => hmax n' z' hlt hle' hnum'
      obtain rfl := Nat.le_antisymm hle₁ hle₂
      rw [hnum.unique hnum']

end Scan

/-! ## Printing -/

/-- The digits of a number. -/
def print (n : ℕ) : List (BitVec 8) :=
  if n = 0 then [digit 0] else (Nat.digits 10 n).reverse.map digit

/-- A number with its sign. -/
def printInt (z : ℤ) : List (BitVec 8) :=
  if z < 0 then Sign.text .minus ++ print z.natAbs else print z.natAbs

theorem toNat_digit {d : ℕ} (h : d < 10) : (digit d).toNat = 48 + d := by
  rw [digit, BitVec.toNat_ofNat]
  exact Nat.mod_eq_of_lt (by omega)

theorem isDigit_digit {d : ℕ} (h : d < 10) : isDigit (digit d) := by
  rw [isDigit_iff, toNat_digit h]
  omega

theorem digitValue_digit {d : ℕ} (h : d < 10) : digitValue (digit d) = d := by
  rw [digitValue, toNat_digit h]
  omega

theorem print_ne_nil (n : ℕ) : print n ≠ [] := by
  unfold print
  split
  · exact List.cons_ne_nil _ _
  next hn => simpa [Nat.digits_eq_nil_iff_eq_zero] using hn

theorem isDigit_of_mem_print {n : ℕ} (h : b ∈ print n) : isDigit b := by
  unfold print at h
  split at h
  · rw [List.mem_singleton.mp h]
    exact isDigit_digit (by decide)
  · obtain ⟨d, hd, rfl⟩ := List.mem_map.mp h
    exact isDigit_digit (Nat.digits_lt_base (by decide) (List.mem_reverse.mp hd))

theorem value_print (n : ℕ) : value (print n) = n := by
  unfold value print
  split
  next hn => rw [hn]; decide
  next hn =>
    have hmap : (Nat.digits 10 n).map (digitValue ∘ digit) = Nat.digits 10 n := by
      conv_rhs => rw [← List.map_id (Nat.digits 10 n)]
      refine List.map_congr_left fun d hd => ?_
      exact digitValue_digit (Nat.digits_lt_base (by decide) hd)
    rw [List.map_map, List.map_reverse, List.reverse_reverse, hmap, Nat.ofDigits_digits]

/-- What is printed is a numeral for the same number. -/
theorem isNumeral_printInt (z : ℤ) : IsNumeral (printInt z) z := by
  unfold printInt
  split
  next hz =>
    refine ⟨[], .minus, print z.natAbs, rfl, by simp, print_ne_nil _,
      fun b => isDigit_of_mem_print, ?_⟩
    rw [value_print, Sign.apply]
    omega
  next hz =>
    refine ⟨[], .none, print z.natAbs, rfl, by simp, print_ne_nil _,
      fun b => isDigit_of_mem_print, ?_⟩
    rw [value_print, Sign.apply]
    omega

/-- The length of what is printed. -/
theorem length_printInt_le {z : ℤ} {k : ℕ} (hk : 0 < k) (h : z.natAbs < 10 ^ k) :
    (printInt z).length ≤ k + 1 := by
  have hprint : (print z.natAbs).length ≤ k := by
    unfold print
    split
    · exact hk
    · rw [List.length_map, List.length_reverse]
      exact (Nat.digits_length_le_iff (by decide) _).mpr h
  unfold printInt
  split
  · rw [List.length_append]
    show 1 + _ ≤ _
    omega
  · omega

end Rtp.Numeral
