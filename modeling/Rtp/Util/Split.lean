import Rtp.Lib.Loop
import Rtp.Lib.Splitting
import Rtp.Util.StringPiece

/-!
# The three ways to split a text

`orc::str::Split` (`orc/util/str_util.h`), a template that is used on `std::string` and on
`StringPiece` with the `find` of each, and `common::StringUtils::split`
(`common/string_utils.cc`), a loop of its own.

* `Str.splitBody`, `StringUtils.splitBody` — one round of each loop.
* `Str.SplitString`, `Str.SplitPiece`, `StringUtils.Split` — what they return.
* `Str.exists_returns`, `StringUtils.exists_returns` — **with a separator** each loop ends with
  the pieces of `Splitting.Splits`, or with those that are not empty.
* `split_eq` — the three agree, and what they return.
* `split_terminates_iff` — **without one** they go round forever, except that the search in an
  empty piece finds nothing.
-/

namespace Rtp.Util

open Search Splitting Loop

/-- The pieces that are kept. -/
def keep (ignoreEmpty : Bool) (pieces : List (List Byte)) : List (List Byte) :=
  if ignoreEmpty then pieces.filter (· ≠ []) else pieces

theorem keep_cons (ignoreEmpty : Bool) (p : List Byte) (ps : List (List Byte)) :
    keep ignoreEmpty (p :: ps) = keep ignoreEmpty [p] ++ keep ignoreEmpty ps := by
  cases ignoreEmpty with
  | true =>
    show (p :: ps).filter (· ≠ []) = [p].filter (· ≠ []) ++ ps.filter (· ≠ [])
    exact List.filter_append [p] ps
  | false => rfl

/-- A piece that is pushed back unless it is empty and such pieces are ignored. -/
theorem push_eq {c : Prop} [Decidable c] {ignoreEmpty : Bool} {p : List Byte}
    {vec : List (List Byte)} (h : c ↔ p ≠ []) :
    (if c ∨ ignoreEmpty = false then vec ++ [p] else vec) = vec ++ keep ignoreEmpty [p] := by
  cases ignoreEmpty with
  | true => by_cases hp : p = [] <;> simp [keep, h, hp]
  | false => simp [keep]

/-- The result of the rounds that are still to come: the pieces from `b` on are pushed back. -/
def Pushes (sep text : List Byte) (ignoreEmpty : Bool) (b : ℕ) (vec result : List (List Byte)) :
    Prop :=
  ∃ ps, Splits sep text b ps ∧ result = vec ++ keep ignoreEmpty ps

section Pushes

variable {sep text : List Byte} {ignoreEmpty : Bool} {b e : ℕ} {vec result : List (List Byte)}

theorem pushes_last (h : Finds (Occurs sep text) b none) :
    Pushes sep text ignoreEmpty b vec (vec ++ keep ignoreEmpty [text.drop b]) :=
  ⟨_, .last h, rfl⟩

theorem pushes_cut (h : Finds (Occurs sep text) b (some e))
    (hrest : Pushes sep text ignoreEmpty (e + sep.length)
      (vec ++ keep ignoreEmpty [(text.drop b).take (e - b)]) result) :
    Pushes sep text ignoreEmpty b vec result := by
  obtain ⟨ps, hps, rfl⟩ := hrest
  refine ⟨_, .cut h hps, ?_⟩
  rw [keep_cons ignoreEmpty _ ps, List.append_assoc]

/-- The part of a text between two positions is empty if they are the same. -/
theorem ne_iff_take_drop_ne_nil (hbe : b ≤ e) (he : e ≤ text.length) :
    b ≠ e ↔ (text.drop b).take (e - b) ≠ [] := by
  rw [ne_eq, ne_eq, ← List.length_eq_zero_iff, List.length_take, List.length_drop]
  omega

end Pushes

/-! ## `orc::str::Split` -/

namespace Str

/-- The variables of the loop. -/
structure State where
  b : ℕ
  e : ℕ
  vec : List (List Byte)

section Template

variable (find : List Byte → ℕ → Option ℕ) (text sep : List Byte) (ignoreEmpty : Bool)

/-- What is pushed back after the loop. -/
def splitRest (s : State) : List (List Byte) :=
  if s.b < text.length then s.vec ++ [(text.drop s.b).take (text.length - s.b)]
  else if ignoreEmpty = false then s.vec ++ [[]]
  else s.vec

/-- One round of the loop. -/
def splitBody (s : State) : State ⊕ List (List Byte) :=
  match find sep s.e with
  | none => .inr (splitRest text ignoreEmpty s)
  | some e => .inl {
      b := e + sep.length
      e := e + sep.length
      vec :=
        if s.b ≠ e ∨ ignoreEmpty = false then s.vec ++ [(text.drop s.b).take (e - s.b)]
        else s.vec }

end Template

/-- `Split` of a `std::string` leaves `result` in the vector. -/
def SplitString (text sep : List Byte) (ignoreEmpty : Bool) (vec result : List (List Byte)) :
    Prop :=
  Returns (splitBody (fun sep => Search.find sep text) text sep ignoreEmpty) ⟨0, 0, vec⟩ result

/-- `Split` of a `StringPiece` leaves `result` in the vector. -/
def SplitPiece (text sep : List Byte) (ignoreEmpty : Bool) (vec result : List (List Byte)) :
    Prop :=
  Returns (splitBody (StringPiece.find text) text sep ignoreEmpty) ⟨0, 0, vec⟩ result

variable {find : List Byte → ℕ → Option ℕ} {text sep : List Byte} {ignoreEmpty : Bool}
  {s : State} {vec : List (List Byte)}

/-- What is left behind the last separator is pushed back like any other piece. -/
theorem splitRest_eq :
    splitRest text ignoreEmpty s = s.vec ++ keep ignoreEmpty [text.drop s.b] := by
  have hne : s.b < text.length ↔ text.drop s.b ≠ [] := by
    rw [ne_eq, List.drop_eq_nil_iff, Nat.not_le]
  rw [← push_eq hne, splitRest, ← List.length_drop, List.take_length]
  by_cases hlt : s.b < text.length
  · rw [if_pos hlt, if_pos (.inl hlt)]
  · simp [hlt, List.drop_eq_nil_of_le (Nat.not_lt.mp hlt)]

/-- Between two rounds nothing behind the last separator was read. -/
def Inv (text : List Byte) (s : State) : Prop := s.b = s.e ∧ s.b ≤ text.length

/-- One round: the last one, or a piece and its separator are behind it. -/
theorem splitBody_step (hsep : sep ≠ []) (hfind : ∀ e, Finds (Occurs sep text) e (find sep e))
    (s : State) (hs : Inv text s) :
    (∃ r, splitBody find text sep ignoreEmpty s = .inr r ∧
      Pushes sep text ignoreEmpty s.b s.vec r) ∨
    ∃ s', splitBody find text sep ignoreEmpty s = .inl s' ∧ Inv text s' ∧
      text.length - s'.b < text.length - s.b ∧
      ∀ r, Pushes sep text ignoreEmpty s'.b s'.vec r → Pushes sep text ignoreEmpty s.b s.vec r := by
  have hpos : 0 < sep.length := List.length_pos_iff.mpr hsep
  obtain ⟨heq, hle⟩ := hs
  have hf := hfind s.e
  rw [← heq] at hf
  unfold splitBody
  rw [← heq]
  cases h : find sep s.b with
  | none =>
    rw [h] at hf
    refine .inl ⟨_, rfl, ?_⟩
    rw [splitRest_eq]
    exact pushes_last hf
  | some e =>
    rw [h] at hf
    have hend := hf.2.1.add_length_le
    refine .inr ⟨_, rfl, ⟨rfl, hend⟩, ?_, fun r hr => pushes_cut hf ?_⟩
    · have := hf.1
      show text.length - (e + sep.length) < text.length - s.b
      omega
    · rwa [push_eq (ne_iff_take_drop_ne_nil hf.1 (by omega))] at hr

/-- With a separator, and with a `find` that finds it, the loop ends with the pieces. -/
theorem exists_returns (hsep : sep ≠ []) (hfind : ∀ e, Finds (Occurs sep text) e (find sep e))
    (ignoreEmpty : Bool) (vec : List (List Byte)) :
    ∃ r, Returns (splitBody find text sep ignoreEmpty) ⟨0, 0, vec⟩ r ∧
      Pushes sep text ignoreEmpty 0 vec r :=
  Loop.exists_returns (fun s : State => text.length - s.b) (splitBody_step hsep hfind)
    (show Inv text ⟨0, 0, vec⟩ from ⟨rfl, Nat.zero_le text.length⟩)

/-- Where an empty separator is found, it is found again. -/
theorem not_returns (h : find [] 0 = some 0) (result : List (List Byte)) :
    ¬Returns (splitBody find text [] ignoreEmpty) ⟨0, 0, vec⟩ result := by
  have hround : ∀ s : State, s.e = 0 →
      ∃ s', splitBody find text [] ignoreEmpty s = .inl s' ∧ s'.e = 0 := by
    intro s hs
    unfold splitBody
    rw [hs, h]
    exact ⟨_, rfl, rfl⟩
  exact Loop.not_returns hround rfl

end Str

/-! ## `common::StringUtils::split` -/

namespace StringUtils

/-- The variables of the loop; `npos` is `none`. -/
structure State where
  n : Option ℕ
  old : ℕ
  vec : List (List Byte)

section Loop

variable (text sep : List Byte) (ignoreEmpty : Bool)

/-- What is pushed back after the loop. -/
def splitRest (s : State) : List (List Byte) :=
  if ignoreEmpty = false ∨ s.old < text.length then
    s.vec ++ [(text.drop s.old).take (text.length - s.old)]
  else s.vec

/-- One round of the loop. -/
def splitBody (s : State) : State ⊕ List (List Byte) :=
  match s.n with
  | none => .inr (splitRest text ignoreEmpty s)
  | some n =>
    match Search.find sep text n with
    | none => .inl { s with n := none }
    | some n => .inl {
        n := some (n + sep.length)
        old := n + sep.length
        vec :=
          if ignoreEmpty = false ∨ n ≠ s.old then s.vec ++ [(text.drop s.old).take (n - s.old)]
          else s.vec }

/-- `split` returns `result`. -/
def Split (result : List (List Byte)) : Prop :=
  Returns (splitBody text sep ignoreEmpty) ⟨some 0, 0, []⟩ result

end Loop

variable {text sep : List Byte} {ignoreEmpty : Bool} {s : State}

theorem splitRest_eq :
    splitRest text ignoreEmpty s = s.vec ++ keep ignoreEmpty [text.drop s.old] := by
  have hne : s.old < text.length ↔ text.drop s.old ≠ [] := by
    rw [ne_eq, List.drop_eq_nil_iff, Nat.not_le]
  rw [← push_eq hne, splitRest, ← List.length_drop, List.take_length]
  exact if_congr or_comm rfl rfl

/-- Between two rounds nothing behind the last separator was read; after `npos` there is none
left. -/
def Inv (text sep : List Byte) (s : State) : Prop :=
  match s.n with
  | some n => n = s.old ∧ n ≤ text.length
  | none => Finds (Occurs sep text) s.old none

/-- How far the loop is from its end. -/
def variant (text : List Byte) (s : State) : ℕ :=
  match s.n with
  | some n => text.length - n + 1
  | none => 0

theorem splitBody_step (hsep : sep ≠ []) (s : State) (hs : Inv text sep s) :
    (∃ r, splitBody text sep ignoreEmpty s = .inr r ∧ Pushes sep text ignoreEmpty s.old s.vec r) ∨
    ∃ s', splitBody text sep ignoreEmpty s = .inl s' ∧ Inv text sep s' ∧
      variant text s' < variant text s ∧
      ∀ r, Pushes sep text ignoreEmpty s'.old s'.vec r →
        Pushes sep text ignoreEmpty s.old s.vec r := by
  have hpos : 0 < sep.length := List.length_pos_iff.mpr hsep
  obtain ⟨n, old, vec⟩ := s
  cases n with
  | none =>
    refine .inl ⟨_, rfl, ?_⟩
    rw [splitRest_eq]
    exact pushes_last hs
  | some n =>
    obtain ⟨rfl, hle⟩ := hs
    have hf := finds_find sep text n
    unfold splitBody
    dsimp only
    cases h : Search.find sep text n with
    | none =>
      rw [h] at hf
      exact .inr ⟨_, rfl, hf, Nat.succ_pos _, fun r hr => hr⟩
    | some e =>
      rw [h] at hf
      have hend := hf.2.1.add_length_le
      refine .inr ⟨_, rfl, ⟨rfl, hend⟩, ?_, fun r hr => pushes_cut hf ?_⟩
      · have := hf.1
        show text.length - (e + sep.length) + 1 < text.length - n + 1
        omega
      · have hne := ne_iff_take_drop_ne_nil hf.1 (by omega : e ≤ text.length)
        rwa [← push_eq (ne_comm.trans hne), if_congr or_comm rfl rfl]

theorem exists_returns (hsep : sep ≠ []) (ignoreEmpty : Bool) :
    ∃ r, Split text sep ignoreEmpty r ∧ Pushes sep text ignoreEmpty 0 [] r :=
  Loop.exists_returns (variant text) (splitBody_step hsep)
    (show Inv text sep ⟨some 0, 0, []⟩ from ⟨rfl, Nat.zero_le text.length⟩)

/-- Where an empty separator is found, it is found again. -/
theorem not_split_nil (result : List (List Byte)) : ¬Split text [] ignoreEmpty result := by
  have hround : ∀ s : State, s.n = some 0 →
      ∃ s', splitBody text [] ignoreEmpty s = .inl s' ∧ s'.n = some 0 := by
    intro s hs
    unfold splitBody
    rw [hs]
    dsimp only
    rw [find_nil_zero]
    exact ⟨_, rfl, rfl⟩
  exact Loop.not_returns hround rfl

end StringUtils

/-! ## All three -/

/-- There is only one way to split the text, so that a loop which ends with the pieces of some
splitting ends with these. -/
theorem returns_iff_of_pushes {S : Type*} {body : S → S ⊕ List (List Byte)} {s : S}
    {text sep : List Byte} {ignoreEmpty : Bool} {ps vec result : List (List Byte)}
    (hps : Splits sep text 0 ps)
    (h : ∃ r, Returns body s r ∧ Pushes sep text ignoreEmpty 0 vec r) :
    Returns body s result ↔ result = vec ++ keep ignoreEmpty ps := by
  obtain ⟨r, hr, ps', hps', rfl⟩ := h
  rw [hps.unique hps']
  exact hr.iff_eq

section Together

variable {text sep : List Byte} {ignoreEmpty : Bool} {ps vec result : List (List Byte)}

theorem Str.splitString_iff (hsep : sep ≠ []) (hps : Splits sep text 0 ps) :
    Str.SplitString text sep ignoreEmpty vec result ↔ result = vec ++ keep ignoreEmpty ps :=
  returns_iff_of_pushes hps (Str.exists_returns hsep (finds_find sep text) ignoreEmpty vec)

theorem Str.splitPiece_iff (hsep : sep ≠ []) (hps : Splits sep text 0 ps) :
    Str.SplitPiece text sep ignoreEmpty vec result ↔ result = vec ++ keep ignoreEmpty ps :=
  returns_iff_of_pushes hps
    (Str.exists_returns hsep (fun _ => StringPiece.finds_find (.inl hsep)) ignoreEmpty vec)

theorem StringUtils.split_iff (hsep : sep ≠ []) (hps : Splits sep text 0 ps) :
    StringUtils.Split text sep ignoreEmpty result ↔ result = keep ignoreEmpty ps :=
  returns_iff_of_pushes hps (StringUtils.exists_returns hsep ignoreEmpty)

theorem exists_splits (text : List Byte) (hsep : sep ≠ []) : ∃ ps, Splits sep text 0 ps := by
  obtain ⟨-, -, ps, hps, -⟩ := @StringUtils.exists_returns text sep hsep false
  exact ⟨ps, hps⟩

end Together

/-- With a separator the three return the same: the pieces between the separators, or those of
them that are not empty. -/
theorem split_eq (text sep : List Byte) (hsep : sep ≠ []) :
    ∃ ps, sep.intercalate ps = text ∧ (∀ p ∈ ps, ¬sep <:+: p) ∧
      ∀ ignoreEmpty result,
        (Str.SplitString text sep ignoreEmpty [] result ↔ result = keep ignoreEmpty ps) ∧
        (Str.SplitPiece text sep ignoreEmpty [] result ↔ result = keep ignoreEmpty ps) ∧
        (StringUtils.Split text sep ignoreEmpty result ↔ result = keep ignoreEmpty ps) := by
  obtain ⟨ps, hps⟩ := exists_splits text hsep
  refine ⟨ps, hps.intercalate_eq, hps.not_infix hsep (Nat.zero_le _), ?_⟩
  intro ignoreEmpty result
  exact ⟨Str.splitString_iff hsep hps, Str.splitPiece_iff hsep hps,
    StringUtils.split_iff hsep hps⟩

/-- A text that begins and ends with the separator. -/
theorem split_eq_slashes :
    ([47] : List Byte) ≠ [] ∧
      ∃ ps, ([47] : List Byte).intercalate ps = [47, 97, 47] ∧
        (∀ p ∈ ps, ¬([47] : List Byte) <:+: p) ∧
        ∀ ignoreEmpty result,
          (Str.SplitString [47, 97, 47] [47] ignoreEmpty [] result ↔
            result = keep ignoreEmpty ps) ∧
          (Str.SplitPiece [47, 97, 47] [47] ignoreEmpty [] result ↔
            result = keep ignoreEmpty ps) ∧
          (StringUtils.Split [47, 97, 47] [47] ignoreEmpty result ↔
            result = keep ignoreEmpty ps) :=
  ⟨List.cons_ne_nil _ _, split_eq [47, 97, 47] [47] (List.cons_ne_nil _ _)⟩

/-! ## No separator -/

theorem StringPiece.find_nil_of_ne_nil {text : List Byte} (h : text ≠ []) :
    StringPiece.find text [] 0 = some 0 := by
  have hne : 0 ≠ text.length := fun h0 => h (List.length_eq_zero_iff.mp h0.symm)
  exact (StringPiece.finds_find (.inr hne)).unique finds_nil_zero

/-- In an empty piece the loop looks for the separator once. -/
theorem Str.splitPiece_nil_nil (ignoreEmpty : Bool) (vec : List (List Byte)) :
    Str.SplitPiece [] [] ignoreEmpty vec (Str.splitRest [] ignoreEmpty ⟨0, 0, vec⟩) :=
  .done rfl

/-- The `Split` of a `StringPiece` ends if there is a separator, or nothing to split. -/
theorem Str.splitPiece_terminates_iff (text sep : List Byte) (ignoreEmpty : Bool)
    (vec : List (List Byte)) :
    (∃ r, Str.SplitPiece text sep ignoreEmpty vec r) ↔ sep ≠ [] ∨ text = [] := by
  constructor
  · rintro ⟨r, hr⟩
    by_contra! h
    obtain ⟨rfl, htext⟩ := h
    exact Str.not_returns (StringPiece.find_nil_of_ne_nil htext) r hr
  · rintro (hsep | rfl)
    · obtain ⟨ps, hps⟩ := exists_splits text hsep
      exact ⟨_, (Str.splitPiece_iff hsep hps).mpr rfl⟩
    · by_cases hsep : sep = []
      · rw [hsep]
        exact ⟨_, Str.splitPiece_nil_nil ignoreEmpty vec⟩
      · obtain ⟨ps, hps⟩ := exists_splits [] hsep
        exact ⟨_, (Str.splitPiece_iff hsep hps).mpr rfl⟩

/-- All three end if and only if there is a separator. -/
theorem split_terminates_iff (text sep : List Byte) (ignoreEmpty : Bool)
    (vec : List (List Byte)) :
    ((∃ r, Str.SplitString text sep ignoreEmpty vec r) ∧
      (∃ r, Str.SplitPiece text sep ignoreEmpty vec r) ∧
      ∃ r, StringUtils.Split text sep ignoreEmpty r) ↔ sep ≠ [] := by
  constructor
  · rintro ⟨-, -, r, hr⟩ rfl
    exact StringUtils.not_split_nil r hr
  · intro hsep
    obtain ⟨ps, hps⟩ := exists_splits text hsep
    exact ⟨⟨_, (Str.splitString_iff hsep hps).mpr rfl⟩,
      ⟨_, (Str.splitPiece_iff hsep hps).mpr rfl⟩, ⟨_, (StringUtils.split_iff hsep hps).mpr rfl⟩⟩

/-- Without a separator none of the three comes to an end on a text of one character. -/
theorem split_no_separator :
    (¬∃ r, Str.SplitString [97] [] false [] r) ∧ (¬∃ r, Str.SplitPiece [97] [] false [] r) ∧
      ¬∃ r, StringUtils.Split [97] [] false r := by
  refine ⟨?_, ?_, ?_⟩
  · rintro ⟨r, hr⟩
    exact Str.not_returns (find_nil_zero [97]) r hr
  · rintro ⟨r, hr⟩
    exact Str.not_returns (StringPiece.find_nil_of_ne_nil (List.cons_ne_nil 97 [])) r hr
  · rintro ⟨r, hr⟩
    exact StringUtils.not_split_nil r hr

end Rtp.Util
