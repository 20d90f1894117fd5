import Mathlib.Data.List.Basic
import Mathlib.Tactic.Ring

/-!
# Numbers in a buffer of bytes

A packed layout in memory: numbers of a fixed width, least significant byte first, one
after another.  A buffer is a list of bytes, and what is stored at a position is said by
what is left of the buffer when everything before the position is dropped.

* `toLE`, `ofLE` — a number as `w` bytes, and back; `ofLE_toLE` — what does not fit into
  `w` bytes is lost.
* `readLE` — the number at a position, if the buffer reaches that far.
* `readLE_of_drop`, `readLE_table` — **reading what was laid out**: one number, and one
  entry of a table of numbers of the same width.
* `fill` — a table written entry by entry; an entry that is written once stays.
* `drop_flatten` — where a part of a concatenation starts.
-/

namespace Rtp

/-- A byte. -/
abbrev Byte : Type := BitVec 8

namespace Bytes

/-! ## Little-endian numbers -/

/-- The `w` lowest bytes of a number, least significant first. -/
def toLE : ℕ → ℕ → List Byte
  | 0, _ => []
  | w + 1, n => BitVec.ofNat 8 n :: toLE w (n / 256)

/-- The number with the given bytes, least significant first. -/
def ofLE : List Byte → ℕ
  | [] => 0
  | b :: bs => b.toNat + 256 * ofLE bs

@[simp]
theorem length_toLE (w n : ℕ) : (toLE w n).length = w := by
  induction w generalizing n with
  | zero => rfl
  | succ w ih => simp [toLE, ih]

theorem ofLE_toLE (w n : ℕ) : ofLE (toLE w n) = n % 256 ^ w := by
  induction w generalizing n with
  | zero => simp [toLE, ofLE, Nat.mod_one]
  | succ w ih => rw [toLE, ofLE, ih, BitVec.toNat_ofNat, pow_succ' 256, Nat.mod_mul]

theorem ofLE_lt (l : List Byte) : ofLE l < 256 ^ l.length := by
  induction l with
  | nil => simp [ofLE]
  | cons b l ih =>
    have hb := b.isLt
    rw [ofLE, List.length_cons, pow_succ']
    omega

/-- A list around one of its entries. -/
theorem take_append_cons_drop {α : Type*} {l : List α} {i : ℕ} {a : α} (h : l[i]? = some a) :
    l = l.take i ++ a :: l.drop (i + 1) := by
  obtain ⟨hlt, rfl⟩ := List.getElem?_eq_some_iff.mp h
  rw [← List.drop_eq_getElem_cons hlt, List.take_append_drop]

/-! ## Reading -/

/-- The number in the `w` bytes at a position; nothing, if the buffer ends before. -/
def readLE (w : ℕ) (buffer : List Byte) (position : ℕ) : Option ℕ :=
  let field := (buffer.drop position).take w
  if field.length = w then some (ofLE field) else none

variable {w n position : ℕ} {buffer rest : List Byte}

theorem readLE_of_drop (h : buffer.drop position = toLE w n ++ rest) :
    readLE w buffer position = some (n % 256 ^ w) := by
  have htake : (buffer.drop position).take w = toLE w n := by
    rw [h, List.take_left' (length_toLE w n)]
  rw [readLE, htake, if_pos (length_toLE w n), ofLE_toLE]

/-- What is read fits into the width. -/
theorem lt_of_readLE (h : readLE w buffer position = some n) : n < 256 ^ w := by
  simp only [readLE, Option.ite_none_right_eq_some, Option.some.injEq] at h
  obtain ⟨hlen, rfl⟩ := h
  have hlt := ofLE_lt ((buffer.drop position).take w)
  rwa [hlen] at hlt

/-- A single byte is read as it stands. -/
theorem readLE_one_of_drop {b : BitVec 8} (h : buffer.drop position = b :: rest) :
    readLE 1 buffer position = some b.toNat := by
  simp [readLE, h, ofLE]

theorem length_flatMap_toLE (w : ℕ) (table : List ℕ) :
    (table.flatMap (toLE w)).length = table.length * w := by
  induction table with
  | nil => simp
  | cons n table ih => rw [List.flatMap_cons, List.length_append, ih, length_toLE,
      List.length_cons, Nat.succ_mul, Nat.add_comm]

/-- **One entry of a table.** -/
theorem readLE_table {table : List ℕ} {k : ℕ}
    (h : buffer.drop position = table.flatMap (toLE w) ++ rest) (hk : table[k]? = some n) :
    readLE w buffer (position + k * w) = some (n % 256 ^ w) := by
  have hlt : k < table.length := (List.getElem?_eq_some_iff.mp hk).1
  have hlen : ((table.take k).flatMap (toLE w)).length = k * w := by
    rw [length_flatMap_toLE, List.length_take_of_le hlt.le]
  have hentry : buffer.drop (position + k * w) =
      toLE w n ++ ((table.drop (k + 1)).flatMap (toLE w) ++ rest) := by
    rw [← List.drop_drop, h]
    conv_lhs => rw [take_append_cons_drop hk]
    rw [List.flatMap_append, List.append_assoc, List.drop_left' hlen, List.flatMap_cons,
      List.append_assoc]
  exact readLE_of_drop hentry

/-! ## Filling a table -/

section Fill

variable {α β : Type*}

/-- Entries of a table overwritten one after the other. -/
def fill (index : β → ℕ) (entry : β → α) (l : List β) (table : List α) : List α :=
  l.foldl (fun table b => table.set (index b) (entry b)) table

variable {index : β → ℕ} {entry : β → α} {l : List β} {table : List α}

@[simp]
theorem length_fill : (fill index entry l table).length = table.length := by
  induction l generalizing table with
  | nil => rfl
  | cons b l ih =>
    rw [fill, List.foldl_cons, ← fill, ih, List.length_set]

/-- An entry that is not written stays. -/
theorem getElem?_fill_of_ne {k : ℕ} (h : ∀ b ∈ l, index b ≠ k) :
    (fill index entry l table)[k]? = table[k]? := by
  induction l generalizing table with
  | nil => rfl
  | cons b l ih =>
    rw [fill, List.foldl_cons, ← fill, ih fun b' hb' => h b' (List.mem_cons_of_mem b hb'),
      List.getElem?_set_ne (h b List.mem_cons_self)]

/-- An entry that is written once is what was written. -/
theorem getElem?_fill_of_mem {b : β} (hnodup : (l.map index).Nodup) (hb : b ∈ l)
    (hlt : index b < table.length) :
    (fill index entry l table)[index b]? = some (entry b) := by
  induction l generalizing table with
  | nil => cases hb
  | cons first l ih =>
    rw [List.map_cons, List.nodup_cons] at hnodup
    rw [fill, List.foldl_cons, ← fill]
    rcases List.mem_cons.mp hb with rfl | hb
    · have hne : ∀ b' ∈ l, index b' ≠ index b :=
        fun b' hb' heq => hnodup.1 (heq ▸ List.mem_map_of_mem hb')
      rw [getElem?_fill_of_ne hne, List.getElem?_set_self hlt]
    · exact ih hnodup.2 hb (by rwa [List.length_set])

end Fill

/-! ## Parts of a buffer -/

/-- Dropping the parts before a part leaves it at the front. -/
theorem drop_flatten {parts : List (List Byte)} {i : ℕ} {part : List Byte}
    (h : parts[i]? = some part) :
    parts.flatten.drop ((parts.take i).map List.length).sum =
      part ++ (parts.drop (i + 1)).flatten := by
  have hflat : parts.flatten = (parts.take i).flatten ++ (part ++ (parts.drop (i + 1)).flatten) :=
    calc parts.flatten
        = (parts.take i ++ part :: parts.drop (i + 1)).flatten :=
          congrArg List.flatten (take_append_cons_drop h)
      _ = _ := by rw [List.flatten_append, List.flatten_cons]
  rw [hflat, List.drop_left' List.length_flatten]

end Rtp.Bytes
