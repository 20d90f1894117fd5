import Mathlib.Data.List.Infix

/-!
# Searching in a text

The first place of a text where a word starts, or where some character stands.  A search is
specified by what it is looking for: it returns the first such place from a given position
on, or nothing if there is none.

* `Finds` — the specification; `Finds.unique` — it leaves no choice.
* `Occurs` — a word stands at a place of a text.
* `find`, `findElem`, `findAny` — the searches for a word, for a character and for any of some
  characters, as the string classes of programming languages have them.
* `finds_find`, `finds_findElem`, `finds_findAny` — **they are what was specified**.
-/

namespace Rtp.Search

/-- What a search from `pos` on returns: the first place with the property, or nothing. -/
def Finds (p : ℕ → Prop) (pos : ℕ) : Option ℕ → Prop
  | some i => pos ≤ i ∧ p i ∧ ∀ j, pos ≤ j → j < i → ¬p j
  | none => ∀ j, pos ≤ j → ¬p j

section Finds

variable {p q : ℕ → Prop} {pos : ℕ} {r r' : Option ℕ}

theorem Finds.unique (h : Finds p pos r) (h' : Finds p pos r') : r = r' := by
  cases r with
  | none =>
    cases r' with
    | none => rfl
    | some i => exact absurd h'.2.1 (h i h'.1)
  | some i =>
    cases r' with
    | none => exact absurd h.2.1 (h' i h.1)
    | some j =>
      obtain ⟨hi, hpi, hbefore⟩ := h
      obtain ⟨hj, hpj, hbefore'⟩ := h'
      rcases Nat.lt_trichotomy i j with hlt | rfl | hlt
      · exact absurd hpi (hbefore' i hi hlt)
      · rfl
      · exact absurd hpj (hbefore j hj hlt)

theorem Finds.congr (h : Finds p pos r) (hpq : ∀ j, pos ≤ j → (p j ↔ q j)) : Finds q pos r := by
  cases r with
  | none => exact fun j hj hq => h j hj ((hpq j hj).mpr hq)
  | some i =>
    obtain ⟨hi, hpi, hbefore⟩ := h
    exact ⟨hi, (hpq i hi).mp hpi, fun j hj hlt hq => hbefore j hj hlt ((hpq j hj).mpr hq)⟩

/-- The first position does not have the property, so the search goes on with the next one. -/
theorem Finds.of_succ (h : Finds p (pos + 1) r) (hpos : ¬p pos) : Finds p pos r := by
  have hne : ∀ j, p j → j ≠ pos := fun j hj heq => hpos (heq ▸ hj)
  cases r with
  | none => exact fun j hj hp => h j (by have := hne j hp; omega) hp
  | some i =>
    obtain ⟨hi, hpi, hbefore⟩ := h
    exact ⟨by omega, hpi, fun j hj hlt hp => hbefore j (by have := hne j hp; omega) hlt hp⟩

/-- A search in which all places are shifted. -/
theorem Finds.shift {n : ℕ} (h : Finds p pos r) (hpq : ∀ j, q (n + j) ↔ p j) :
    Finds q (n + pos) (r.map (n + ·)) := by
  have hback : ∀ j, n + pos ≤ j → (q j ↔ p (j - n)) := by
    intro j hj
    rw [← hpq, Nat.add_sub_cancel' (by omega)]
  cases r with
  | none => exact fun j hj hq => h (j - n) (by omega) ((hback j hj).mp hq)
  | some i =>
    obtain ⟨hi, hpi, hbefore⟩ := h
    refine ⟨Nat.add_le_add_left hi n, (hpq i).mpr hpi, fun j hj hlt hq => ?_⟩
    have hlt : j - n < i := Nat.sub_lt_left_of_lt_add (by omega) hlt
    exact hbefore (j - n) (by omega) hlt ((hback j hj).mp hq)

end Finds

/-! ## Words in a text -/

variable {α : Type*} {word text : List α} {i j : ℕ}

/-- The word stands at the place `i` of the text. -/
def Occurs (word text : List α) (i : ℕ) : Prop := i ≤ text.length ∧ word <+: text.drop i

theorem Occurs.add_length_le (h : Occurs word text i) : i + word.length ≤ text.length := by
  have hle := h.2.length_le
  rw [List.length_drop] at hle
  have := h.1
  omega

/-- The text from the place on: the word, and what comes after it. -/
theorem Occurs.drop_eq (h : Occurs word text i) :
    text.drop i = word ++ text.drop (i + word.length) := by
  obtain ⟨rest, hrest⟩ := h.2
  rw [← List.drop_drop, ← hrest, List.drop_left]

theorem occurs_nil_iff : Occurs ([] : List α) text i ↔ i ≤ text.length :=
  ⟨And.left, fun h => ⟨h, List.nil_prefix⟩⟩

theorem finds_nil_zero : Finds (Occurs ([] : List α) text) 0 (some 0) :=
  ⟨le_rfl, occurs_nil_iff.mpr (Nat.zero_le _), fun _ _ hlt => absurd hlt (Nat.not_lt_zero _)⟩

/-- The places of a word after a beginning of the text. -/
theorem occurs_append_iff (before : List α) :
    Occurs word (before ++ text) (before.length + i) ↔ Occurs word text i := by
  unfold Occurs
  rw [List.length_append, List.drop_length_add_append]
  refine and_congr_left fun _ => ?_
  omega

/-- A word within a part of the text is a word of the text. -/
theorem exists_occurs_of_infix {n : ℕ} (hi : i ≤ text.length)
    (h : word <:+: (text.drop i).take n) :
    ∃ k, k + word.length ≤ n ∧ Occurs word text (i + k) := by
  obtain ⟨a, b, hab⟩ := h
  have hlen := congrArg List.length hab
  rw [List.length_append, List.length_append, List.length_take, List.length_drop] at hlen
  refine ⟨a.length, by omega, by omega, ?_⟩
  have hword : word <+: ((text.drop i).take n).drop a.length := by
    rw [← hab, List.append_assoc, List.drop_left]
    exact List.prefix_append word b
  rw [List.drop_take] at hword
  rw [← List.drop_drop]
  exact hword.trans (List.take_prefix _ _)

/-! ## Searches -/

/-- The first place with a property, from `pos` on and before `bound`. -/
def firstFrom (p : ℕ → Bool) (pos bound : ℕ) : Option ℕ := (List.range' pos (bound - pos)).find? p

theorem finds_firstFrom (p : ℕ → Bool) (pos bound : ℕ) :
    Finds (fun j => j < bound ∧ p j) pos (firstFrom p pos bound) := by
  cases h : firstFrom p pos bound with
  | none =>
    intro j hj hp
    rw [firstFrom, List.find?_range'_eq_none] at h
    have := h j hj (by omega)
    simp [hp.2] at this
  | some i =>
    rw [firstFrom, List.find?_range'_eq_some] at h
    obtain ⟨hp, hmem, hbefore⟩ := h
    rw [List.mem_range'_1] at hmem
    refine ⟨hmem.1, ⟨by omega, hp⟩, fun j hj hlt hpj => ?_⟩
    have := hbefore j hj hlt
    simp [hpj.2] at this

section DecidableEq

variable [DecidableEq α]

/-- The search for a word. -/
def find (word text : List α) (pos : ℕ) : Option ℕ :=
  firstFrom (fun i => word.isPrefixOf (text.drop i)) pos (text.length + 1)

theorem finds_find (word text : List α) (pos : ℕ) :
    Finds (Occurs word text) pos (find word text pos) := by
  refine (finds_firstFrom _ pos _).congr fun j _ => ?_
  rw [List.isPrefixOf_iff_prefix, Nat.lt_succ_iff]
  rfl

theorem find_nil_zero (text : List α) : find [] text 0 = some 0 :=
  (finds_find [] text 0).unique finds_nil_zero

/-- The search for any of some characters. -/
def findAny (chars text : List α) (pos : ℕ) : Option ℕ :=
  firstFrom (fun i => text[i]?.any (· ∈ chars)) pos text.length

theorem finds_findAny (chars text : List α) (pos : ℕ) :
    Finds (fun i => ∃ c ∈ chars, text[i]? = some c) pos (findAny chars text pos) := by
  refine (finds_firstFrom _ pos _).congr fun j _ => ?_
  rw [Option.any_eq_true]
  constructor
  · rintro ⟨-, c, hc, hmem⟩
    exact ⟨c, of_decide_eq_true hmem, hc⟩
  · rintro ⟨c, hmem, hc⟩
    exact ⟨(List.getElem?_eq_some_iff.mp hc).1, c, hc, decide_eq_true hmem⟩

/-- The search for a character. -/
def findElem (c : α) (text : List α) (pos : ℕ) : Option ℕ := findAny [c] text pos

theorem finds_findElem (c : α) (text : List α) (pos : ℕ) :
    Finds (fun i => text[i]? = some c) pos (findElem c text pos) := by
  refine (finds_findAny [c] text pos).congr fun j _ => ?_
  simp

end Rtp.Search.DecidableEq
