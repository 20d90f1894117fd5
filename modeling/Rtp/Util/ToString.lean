import Rtp.Util.Split

/-!
# A vector as a text, and back

`orc::ToString` of a container (`orc/util/to_string.h`): a stream iterator writes the delimiter
after every element, and what is written after the last one is taken off the end again, as one
character.

* `toString` — the text of a vector.
* `splitString_toString_iff` — **what `Split` makes of it**: the last element comes back with
  the rest of its delimiter.
* `split_toString_iff` — the vector comes back if and only if the delimiter is one character.
-/

namespace Rtp.Util

open Splitting

/-- `ToString` of a container; the last position of an empty text is `npos`.  The delimiter is a
`const char*`, which ends at its first zero byte, so that it has none. -/
def toString (c : List (List Byte)) (delimiter : List Byte) : List Byte :=
  let str := c.flatMap (· ++ delimiter)
  str.take (str.length - 1)

/-- The delimiter after the last element loses its last character. -/
theorem toString_append_singleton (init : List (List Byte)) (last delimiter : List Byte)
    (h : delimiter ≠ []) :
    toString (init ++ [last]) delimiter =
      init.flatMap (· ++ delimiter) ++ (last ++ delimiter.dropLast) := by
  unfold toString
  dsimp only
  rw [← List.dropLast_eq_take, List.flatMap_append, List.flatMap_singleton,
    List.dropLast_append_of_ne_nil (by simp [h]), List.dropLast_append_of_ne_nil h]

/-- A delimiter without its last character does not make another delimiter, not even after a
text without the first one. -/
theorem not_infix_append_dropLast {c : Byte} {rest last : List Byte} (h : c ∉ last) :
    ¬(c :: rest) <:+: last ++ (c :: rest).dropLast := by
  rintro ⟨a, b, hab⟩
  have hlen := congrArg List.length hab
  simp only [List.length_append, List.length_cons, List.length_dropLast] at hlen
  -- the first character stands within `last`, where it is not
  have hnot : ¬Search.Occurs (c :: rest) (last ++ (c :: rest).dropLast) a.length :=
    not_occurs_of_notMem h (by omega)
  rw [← hab, List.append_assoc] at hnot
  refine hnot ⟨?_, ?_⟩
  · rw [List.length_append]
    exact Nat.le_add_right _ _
  · rw [List.drop_left]
    exact List.prefix_append _ _

/-- The elements come back, the last one with what is left of its delimiter. -/
theorem splitString_toString_iff {init : List (List Byte)} {last : List Byte} {c : Byte}
    {rest : List Byte} (hinit : ∀ x ∈ init, c ∉ x) (hlast : c ∉ last)
    (result : List (List Byte)) :
    Str.SplitString (toString (init ++ [last]) (c :: rest)) (c :: rest) false [] result ↔
      result = init ++ [last ++ (c :: rest).dropLast] := by
  rw [toString_append_singleton init last (c :: rest) (List.cons_ne_nil c rest)]
  exact Str.splitString_iff (List.cons_ne_nil c rest)
    (splits_append_singleton hinit (not_infix_append_dropLast hlast))

/-- `Split` gives back the vector that `ToString` has written if and only if the delimiter is one
character. -/
theorem split_toString_iff (v : List (List Byte)) (d : List Byte) (hv : v ≠ []) (hd : d ≠ [])
    (hfirst : ∀ x ∈ v, d.head hd ∉ x) :
    Str.SplitString (toString v d) d false [] v ↔ d.length = 1 := by
  obtain ⟨c, rest, rfl⟩ := List.exists_cons_of_ne_nil hd
  rw [List.head_cons] at hfirst
  rw [← List.dropLast_append_getLast hv] at hfirst ⊢
  have hinit : ∀ x ∈ v.dropLast, c ∉ x := fun x hx => hfirst x (List.mem_append_left _ hx)
  have hlast : c ∉ v.getLast hv := hfirst _ (List.mem_append_right _ (List.mem_singleton_self _))
  rw [splitString_toString_iff hinit hlast, List.append_cancel_left_eq, List.cons.injEq,
    List.self_eq_append_right, ← List.length_eq_zero_iff, List.length_dropLast]
  simp

/-- Three words, the last of them empty. -/
theorem split_toString_words :
    (([[97], [98], []] : List (List Byte)) ≠ [] ∧ ([44] : List Byte) ≠ [] ∧
        ∀ x ∈ ([[97], [98], []] : List (List Byte)), (44 : Byte) ∉ x) ∧
      (Str.SplitString (toString [[97], [98], []] [44]) [44] false [] [[97], [98], []] ↔
        ([44] : List Byte).length = 1) :=
  ⟨by decide, split_toString_iff [[97], [98], []] [44] (by decide) (by decide) (by decide)⟩

/-- A delimiter of two characters: the text of `x` with `ab` is `xa`. -/
theorem split_toString_two :
    ¬Str.SplitString (toString [[120]] [97, 98]) [97, 98] false [] [[120]] := by
  intro h
  have hres := (@splitString_toString_iff [] [120] 97 [98] (by decide) (by decide) [[120]]).mp h
  exact absurd hres (by decide)

end Rtp.Util
