import Rtp.Lib.Bytes
import Rtp.Lib.Search

/-!
# Searching in a string piece

`orc::StringPiece` (`orc/util/string_piece.cc`): a part of somebody's memory with the searches
of `std::string`.  `Search.find`, `Search.findElem` and `Search.findAny` are the functions
`find` and `find_first_of` of `std::string`; a position that is not there, `npos`, is `none`.

* `find`, `findChar`, `findFirstOf`, `findFirstOfChar` — the searches of the class.
* `finds_findChar`, `finds_findFirstOf` — what they find; the table of all bytes is a set.
* `finds_find` — what `find` finds, if the needle is not empty or the position not the end.
* `searches_eq_std_iff` — **the searches agree with those of `std::string`** in exactly that case.
-/

namespace Rtp.Util.StringPiece

open Search

/-! ## The searches -/

/-- `std::search`: where the needle first stands in the range, or the end of the range. -/
def stdSearch (needle : List Byte) : List Byte → ℕ
  | [] => 0
  | c :: rest => if needle.isPrefixOf (c :: rest) then 0 else stdSearch needle rest + 1

/-- `find` of a character. -/
def findChar (text : List Byte) (c : Byte) (pos : ℕ) : Option ℕ :=
  if pos ≥ text.length then none
  else
    let res := pos + (text.drop pos).findIdx (· == c)
    if res ≠ text.length then some res else none

/-- `find` of a string. -/
def find (text needle : List Byte) (pos : ℕ) : Option ℕ :=
  if pos ≥ text.length then none
  else
    let xret := pos + stdSearch needle (text.drop pos)
    if xret + needle.length ≤ text.length then some xret else none

/-- `find_first_of` of a character. -/
def findFirstOfChar (text : List Byte) (c : Byte) (pos : ℕ) : Option ℕ := findChar text c pos

/-- The table of all bytes, with those of the needle marked. -/
def lookup (needle : List Byte) : Byte → Bool :=
  needle.foldl (fun table c => Function.update table c true) fun _ => false

/-- The loop over the text. -/
def firstMarked (table : Byte → Bool) (text : List Byte) (i : ℕ) : Option ℕ :=
  if h : i < text.length then
    if table text[i] then some i else firstMarked table text (i + 1)
  else none
termination_by text.length - i

/-- `find_first_of` of a string. -/
def findFirstOf (text needle : List Byte) (pos : ℕ) : Option ℕ :=
  if text.length = 0 ∨ needle.length = 0 then none
  else if h : needle.length = 1 then findChar text needle[0] pos
  else firstMarked (lookup needle) text pos

/-! ## Characters -/

variable {text needle : List Byte} {pos : ℕ}

/-- `find` of a character finds its first place. -/
theorem finds_findChar (text : List Byte) (c : Byte) (pos : ℕ) :
    Finds (fun i => text[i]? = some c) pos (findChar text c pos) := by
  unfold findChar
  split
  next hpos =>
    intro j hj hc
    have := (List.getElem?_eq_some_iff.mp hc).1
    omega
  next hpos =>
    dsimp only
    generalize hn : (text.drop pos).findIdx (· == c) = n
    have hbefore : ∀ k, k < n → text[pos + k]? ≠ some c := by
      intro k hk hc
      rw [← hn] at hk
      have hne := List.not_of_lt_findIdx hk
      rw [← List.getElem?_drop] at hc
      rw [(List.getElem?_eq_some_iff.mp hc).2] at hne
      simp at hne
    have hle : n ≤ text.length - pos := by
      rw [← hn, ← List.length_drop]
      exact List.findIdx_le_length
    split
    next hend =>
      refine ⟨by omega, ?_, fun j hj hlt => ?_⟩
      · have hlt : (text.drop pos).findIdx (· == c) < (text.drop pos).length := by
          rw [hn, List.length_drop]
          omega
        have heq := @List.findIdx_getElem _ _ _ hlt
        rw [beq_iff_eq] at heq
        show text[pos + n]? = some c
        rw [← List.getElem?_drop, ← hn, List.getElem?_eq_getElem hlt, heq]
      · have := hbefore (j - pos) (by omega)
        rwa [Nat.add_sub_cancel' hj] at this
    next hend =>
      intro j hj hc
      have hlt := (List.getElem?_eq_some_iff.mp hc).1
      have := hbefore (j - pos) (by omega)
      rw [Nat.add_sub_cancel' hj] at this
      exact this hc

/-- The table marks the bytes of the needle. -/
theorem lookup_eq_true_iff (needle : List Byte) (c : Byte) :
    lookup needle c = true ↔ c ∈ needle := by
  suffices h : ∀ table : Byte → Bool,
      needle.foldl (fun table c => Function.update table c true) table c = true ↔
        table c = true ∨ c ∈ needle by
    simpa [lookup] using h fun _ => false
  induction needle with
  | nil => simp
  | cons d needle ih =>
    intro table
    rw [List.foldl_cons, ih, Function.update_apply, List.mem_cons]
    by_cases hcd : c = d
    · simp [hcd]
    · simp [hcd]

/-- The loop finds the first marked byte. -/
theorem finds_firstMarked (table : Byte → Bool) (text : List Byte) (pos : ℕ) :
    Finds (fun i => ∃ c, table c ∧ text[i]? = some c) pos (firstMarked table text pos) := by
  fun_induction firstMarked table text pos with
  | case1 i h hmarked =>
    exact ⟨le_rfl, ⟨text[i], hmarked, List.getElem?_eq_getElem h⟩, fun j hj hlt => by omega⟩
  | case2 i h hmarked ih =>
    exact ih.of_succ fun ⟨c, hc, hi⟩ => by
      rw [List.getElem?_eq_getElem h, Option.some.injEq] at hi
      exact hmarked (hi ▸ hc)
  | case3 i h =>
    rintro j hj ⟨c, -, hc⟩
    have := (List.getElem?_eq_some_iff.mp hc).1
    omega

/-- `find_first_of` finds the first place of a byte of the needle. -/
theorem finds_findFirstOf (text needle : List Byte) (pos : ℕ) :
    Finds (fun i => ∃ c ∈ needle, text[i]? = some c) pos (findFirstOf text needle pos) := by
  unfold findFirstOf
  split
  next hempty =>
    rintro j - ⟨c, hmem, hc⟩
    rcases hempty with h | h
    · rw [List.length_eq_zero_iff.mp h] at hc
      simp at hc
    · rw [List.length_eq_zero_iff.mp h] at hmem
      exact List.not_mem_nil hmem
  next hempty =>
    split
    next hone =>
      obtain ⟨c, rfl⟩ := List.length_eq_one_iff.mp hone
      refine (finds_findChar text c pos).congr fun j _ => ?_
      simp
    next hone =>
      refine (finds_firstMarked (lookup needle) text pos).congr fun j _ => ?_
      simp only [lookup_eq_true_iff]

/-! ## Strings -/

theorem stdSearch_le (needle range : List Byte) : stdSearch needle range ≤ range.length := by
  induction range with
  | nil => exact le_rfl
  | cons c rest ih =>
    rw [stdSearch, List.length_cons]
    split <;> omega

theorem not_prefix_of_lt_stdSearch {range : List Byte} {k : ℕ} (h : k < stdSearch needle range) :
    ¬needle <+: range.drop k := by
  induction range generalizing k with
  | nil => exact absurd h (Nat.not_lt_zero k)
  | cons c rest ih =>
    rw [stdSearch] at h
    split at h
    next => exact absurd h (Nat.not_lt_zero k)
    next hhead =>
      cases k with
      | zero => exact fun hpre => hhead (List.isPrefixOf_iff_prefix.mpr hpre)
      | succ k => exact ih (by omega)

theorem prefix_drop_stdSearch {range : List Byte} (h : stdSearch needle range < range.length) :
    needle <+: range.drop (stdSearch needle range) := by
  induction range with
  | nil => exact absurd h (Nat.not_lt_zero _)
  | cons c rest ih =>
    rw [stdSearch] at h ⊢
    split at h
    next hhead =>
      rw [if_pos hhead]
      exact List.isPrefixOf_iff_prefix.mp hhead
    next hhead =>
      rw [if_neg hhead]
      exact ih (by simpa using h)

/-- `find` of a string finds its first place; at the very end of the text it does not find the
empty string. -/
theorem finds_find (h : needle ≠ [] ∨ pos ≠ text.length) :
    Finds (Occurs needle text) pos (find text needle pos) := by
  unfold find
  split
  next hpos =>
    intro j hj hocc
    have hle := hocc.add_length_le
    have hneedle : needle.length = 0 := by omega
    rcases h with h | h
    · exact h (List.length_eq_zero_iff.mp hneedle)
    · omega
  next hpos =>
    have hn := stdSearch_le needle (text.drop pos)
    rw [List.length_drop] at hn
    have hbefore : ∀ j, pos ≤ j → j < pos + stdSearch needle (text.drop pos) →
        ¬Occurs needle text j := by
      intro j hj hlt hocc
      have hlt : j - pos < stdSearch needle (text.drop pos) := by omega
      have hnot := not_prefix_of_lt_stdSearch hlt
      rw [List.drop_drop, Nat.add_sub_cancel' hj] at hnot
      exact hnot hocc.2
    by_cases hend : stdSearch needle (text.drop pos) < text.length - pos
    · -- the needle was found
      have hpre := prefix_drop_stdSearch (by rwa [List.length_drop])
      rw [List.drop_drop] at hpre
      have hocc : Occurs needle text (pos + stdSearch needle (text.drop pos)) :=
        ⟨by omega, hpre⟩
      rw [if_pos hocc.add_length_le]
      exact ⟨by omega, hocc, hbefore⟩
    · -- the search came to the end of the text, so the needle is not empty
      have hne : needle.length ≠ 0 := by
        intro hnil
        have := hbefore pos le_rfl (by omega)
        rw [List.length_eq_zero_iff.mp hnil, occurs_nil_iff] at this
        omega
      rw [if_neg (by omega)]
      intro j hj hocc
      have := hocc.add_length_le
      exact hbefore j hj (by omega) hocc

/-- The searches of the class agree with those of `std::string`, except that the empty string is
not found at the end of the text. -/
theorem searches_eq_std_iff (text needle : List Byte) (c : Byte) (pos : ℕ) :
    (find text needle pos = Search.find needle text pos ∧
      findChar text c pos = findElem c text pos ∧
      findFirstOf text needle pos = findAny needle text pos ∧
      findFirstOfChar text c pos = findElem c text pos) ↔
    needle ≠ [] ∨ pos ≠ text.length := by
  constructor
  · rintro ⟨hfind, -⟩
    by_contra! hends
    obtain ⟨rfl, rfl⟩ := hends
    have hstd : Finds (Occurs [] text) text.length (some text.length) :=
      ⟨le_rfl, occurs_nil_iff.mpr le_rfl, fun j hj hlt => absurd hj (by omega)⟩
    rw [← hstd.unique (Search.finds_find [] text text.length), find, if_pos le_rfl] at hfind
    simp at hfind
  · intro h
    have hchar := (finds_findChar text c pos).unique (finds_findElem c text pos)
    exact ⟨(finds_find h).unique (Search.finds_find needle text pos), hchar,
      (finds_findFirstOf text needle pos).unique (finds_findAny needle text pos), hchar⟩

/-- The empty string is at the end of the empty text, but `find` does not find it there. -/
theorem find_empty_at_end :
    ¬(find [] [] 0 = Search.find ([] : List Byte) [] 0 ∧
      findChar [] 0 0 = findElem (0 : Byte) [] 0 ∧
      findFirstOf [] [] 0 = findAny ([] : List Byte) [] 0 ∧
      findFirstOfChar [] 0 0 = findElem (0 : Byte) [] 0) := by
  decide

end Rtp.Util.StringPiece
