import Rtp.Lib.Search

/-!
# Splitting a text at a separator

The pieces of a text between the places where a separator stands.  Such places may overlap;
the first one counts, and the search for the next one starts behind it.

* `Splits` — the pieces of a text from a position on; `Splits.unique` — there is only one way.
* `Splits.intercalate_eq` — joined by the separator, the pieces are the text.
* `Splits.not_infix` — the separator is in no piece.
* `splits_append_singleton` — **what was joined is split into the same pieces**, if the first
  character of the separator is in none of them but perhaps the last.
-/

namespace Rtp.Splitting

open Search

variable {α : Type*} {sep text : List α} {b : ℕ} {ps ps' : List (List α)}

/-- The pieces of the text from the position `b` on. -/
inductive Splits (sep text : List α) : ℕ → List (List α) → Prop
  | last {b : ℕ} (h : Finds (Occurs sep text) b none) : Splits sep text b [text.drop b]
  | cut {b e : ℕ} {ps : List (List α)} (h : Finds (Occurs sep text) b (some e))
      (hps : Splits sep text (e + sep.length) ps) :
      Splits sep text b ((text.drop b).take (e - b) :: ps)

theorem Splits.unique (h : Splits sep text b ps) (h' : Splits sep text b ps') : ps = ps' := by
  induction h generalizing ps' with
  | last h =>
    cases h' with
    | last => rfl
    | cut h' _ => exact absurd (h.unique h') (by simp)
  | cut h _ ih =>
    cases h' with
    | last h' => exact absurd (h.unique h') (by simp)
    | cut h' hps' =>
      obtain rfl := Option.some.inj (h.unique h')
      rw [ih hps']

theorem Splits.ne_nil (h : Splits sep text b ps) : ps ≠ [] := by
  cases h with
  | last | cut => exact List.cons_ne_nil _ _

/-- Joined by the separator, the pieces are the text. -/
theorem Splits.intercalate_eq (h : Splits sep text b ps) : sep.intercalate ps = text.drop b := by
  induction h with
  | last => simp
  | @cut b e ps h hps ih =>
    obtain ⟨hle, hocc, -⟩ := h
    obtain ⟨p, ps, rfl⟩ := List.exists_cons_of_ne_nil hps.ne_nil
    rw [List.intercalate_cons_cons, ih, List.append_assoc, ← hocc.drop_eq]
    conv_rhs => rw [← List.take_append_drop (e - b) (text.drop b), List.drop_drop,
      Nat.add_sub_cancel' hle]

/-- The separator is in no piece. -/
theorem Splits.not_infix (h : Splits sep text b ps) (hsep : sep ≠ []) (hb : b ≤ text.length) :
    ∀ p ∈ ps, ¬sep <:+: p := by
  have hpos : 0 < sep.length := List.length_pos_iff.mpr hsep
  induction h with
  | @last b h =>
    intro p hp hinf
    rw [List.mem_singleton.mp hp, ← List.take_length (l := text.drop b)] at hinf
    obtain ⟨k, -, hocc⟩ := exists_occurs_of_infix hb hinf
    exact h (b + k) (Nat.le_add_right b k) hocc
  | @cut b e ps h _ ih =>
    obtain ⟨hle, hocc, hbefore⟩ := h
    intro p hp hinf
    rcases List.mem_cons.mp hp with rfl | hp
    · obtain ⟨k, hk, hocc'⟩ := exists_occurs_of_infix hb hinf
      exact hbefore (b + k) (Nat.le_add_right b k) (by omega) hocc'
    · exact ih hocc.add_length_le p hp hinf

/-- A beginning of the text shifts the positions. -/
theorem Splits.append_left (before : List α) (h : Splits sep text b ps) :
    Splits sep (before ++ text) (before.length + b) ps := by
  have hfinds : ∀ {pos r}, Finds (Occurs sep text) pos r →
      Finds (Occurs sep (before ++ text)) (before.length + pos) (r.map (before.length + ·)) := by
    intro pos r hr
    exact hr.shift fun j => occurs_append_iff before
  have hdrop : ∀ b, text.drop b = (before ++ text).drop (before.length + b) := by
    intro b
    rw [List.drop_length_add_append]
  induction h with
  | @last b h =>
    rw [hdrop b]
    exact .last (hfinds h)
  | @cut b e ps h _ ih =>
    rw [hdrop b, show e - b = before.length + e - (before.length + b) by omega]
    exact .cut (hfinds h) (by rwa [Nat.add_assoc])

/-! ## Splitting what was joined -/

/-- A word does not stand where its first character does not. -/
theorem not_occurs_of_notMem {c : α} {rest p after : List α} {j : ℕ} (hc : c ∉ p)
    (hj : j < p.length) : ¬Occurs (c :: rest) (p ++ after) j := by
  rintro ⟨-, hpre⟩
  rw [List.drop_append_of_le_length (by omega), List.drop_eq_getElem_cons hj, List.cons_append,
    List.cons_prefix_cons] at hpre
  exact hc (hpre.1 ▸ List.getElem_mem hj)

/-- What was joined by a separator is split into the same pieces. -/
theorem splits_append_singleton {c : α} {rest : List α} {init : List (List α)} {last : List α}
    (hinit : ∀ p ∈ init, c ∉ p) (hlast : ¬(c :: rest) <:+: last) :
    Splits (c :: rest) (init.flatMap (· ++ c :: rest) ++ last) 0 (init ++ [last]) := by
  induction init with
  | nil =>
    refine .last fun j _ hocc => hlast ?_
    exact hocc.2.isInfix.trans (List.drop_suffix j last).isInfix
  | cons p init ih =>
    have ih := ih fun q hq => hinit q (List.mem_cons_of_mem p hq)
    generalize htext : init.flatMap (· ++ c :: rest) ++ last = text at ih
    have hp : c ∉ p := hinit p List.mem_cons_self
    have hfind : Finds (Occurs (c :: rest) (p ++ (c :: rest ++ text))) 0 (some p.length) := by
      refine ⟨Nat.zero_le _, ⟨?_, ?_⟩, fun j _ hj => not_occurs_of_notMem hp hj⟩
      · simp
      · rw [List.drop_left]
        exact List.prefix_append _ _
    have hsplits := (ih.append_left (c :: rest)).append_left p
    rw [Nat.add_zero] at hsplits
    have := Splits.cut hfind hsplits
    rw [List.drop_zero, Nat.sub_zero, List.take_left] at this
    rwa [List.flatMap_cons, List.cons_append, List.append_assoc, List.append_assoc, htext]

end Rtp.Splitting
