import Mathlib.Algebra.Group.Nat.Defs
import Mathlib.Data.List.Basic

/-!
# Joining paths

`ZKWrapper::JoinPath` (`leader/zkwrapper.cc`): two paths with a single slash between them, for
which a slash at the end of the first and one at the beginning of the second are left out.  The
length of the result is an `int`.

* `joinPath` — the function, with its copies into the result; `none` where the length does not
  fit.
* `join` — what it computes; `joinPath_eq` — that it does.
* `join_assoc` — **joining is associative**; the middle path is taken apart at both ends.
* `joinPath_assoc` — so is the function, also where it fails, and the empty path is neutral.
-/

namespace Rtp.Leader.JoinPath

/-! ## The function -/

/-- `memcpy` into the memory of a string. -/
def memcpy (dest : List Char) (pos : ℕ) (src : List Char) : List Char :=
  dest.take pos ++ src ++ dest.drop (pos + src.length)

/-- `JoinPath`; with a length that is not an `int` there is no memory for the result. -/
def joinPath (path1 path2 : List Char) : Option (List Char) :=
  if path1.length = 0 ∨ path2.length = 0 then some (path1 ++ path2)
  else
    let firstTail := if path1[path1.length - 1]? = some '/' then 1 else 0
    let secondHead := if path2[0]? = some '/' then 1 else 0
    let length := path1.length - firstTail + path2.length - secondHead + 1
    if length < 2 ^ 31 then
      let result := List.replicate length '\x00'
      let length := path1.length - firstTail
      let result := memcpy result 0 (path1.take length)
      let result := result.set length '/'
      some (memcpy result (length + 1)
        ((path2.drop secondHead).take (path2.length - secondHead)))
    else none

/-! ## What it computes -/

/-- A path without a slash at its end. -/
def dropTail (path : List Char) : List Char :=
  if path.getLast? = some '/' then path.dropLast else path

/-- A path without a slash at its beginning. -/
def dropHead (path : List Char) : List Char :=
  if path.head? = some '/' then path.tail else path

/-- Two paths with a slash between them. -/
def join (path1 path2 : List Char) : List Char :=
  if path1 = [] then path2
  else if path2 = [] then path1
  else dropTail path1 ++ '/' :: dropHead path2

variable {a b c : List Char}

/-! ## The copies -/

/-- The copies fill the result. -/
theorem memcpy_result (first second : List Char) :
    memcpy ((memcpy (List.replicate (first.length + second.length + 1) '\x00') 0 first).set
      first.length '/') (first.length + 1) second = first ++ '/' :: second := by
  have hfirst : memcpy (List.replicate (first.length + second.length + 1) '\x00') 0 first =
      first ++ '\x00' :: List.replicate second.length '\x00' := by
    have hlen : first.length + second.length + 1 - (0 + first.length) = second.length + 1 := by
      omega
    rw [memcpy, List.take_zero, List.nil_append, List.drop_replicate, hlen, List.replicate_succ]
  rw [hfirst, List.set_append_right _ _ (Nat.le_refl _), Nat.sub_self, List.set_cons_zero, memcpy,
    List.drop_eq_nil_of_le (by simp; omega), List.append_nil, List.take_length_add_append]
  simp

theorem dropTail_eq_take (path : List Char) :
    dropTail path =
      path.take (path.length - if path[path.length - 1]? = some '/' then 1 else 0) := by
  unfold dropTail
  rw [List.getLast?_eq_getElem?]
  split
  · exact List.dropLast_eq_take
  · exact List.take_length.symm

theorem dropHead_eq_drop (path : List Char) :
    dropHead path = path.drop (if path[0]? = some '/' then 1 else 0) := by
  unfold dropHead
  rw [List.head?_eq_getElem?]
  split
  · exact List.drop_one.symm
  · rfl

theorem join_nil_left (a : List Char) : join [] a = a := if_pos rfl

theorem join_nil_right (a : List Char) : join a [] = a := by
  unfold join
  split
  next h => exact h.symm
  next => exact if_pos rfl

theorem join_of_ne_nil (ha : a ≠ []) (hb : b ≠ []) :
    join a b = dropTail a ++ '/' :: dropHead b := by
  rw [join, if_neg ha, if_neg hb]

theorem join_ne_nil (ha : a ≠ []) (hb : b ≠ []) : join a b ≠ [] := by
  rw [join_of_ne_nil ha hb]
  simp

/-- The function joins the paths, if the length fits. -/
theorem joinPath_of_ne_nil (ha : a ≠ []) (hb : b ≠ []) :
    joinPath a b = if (join a b).length < 2 ^ 31 then some (join a b) else none := by
  have hpos : 0 < b.length := List.length_pos_iff.mpr hb
  unfold joinPath
  rw [if_neg (by simp [ha, hb])]
  dsimp only
  have hone : (if b[0]? = some '/' then 1 else 0) ≤ 1 := by split <;> omega
  have hfirst := dropTail_eq_take a
  have hsecond := dropHead_eq_drop b
  generalize (if a[a.length - 1]? = some '/' then 1 else 0) = firstTail at hfirst ⊢
  generalize (if b[0]? = some '/' then 1 else 0) = secondHead at hone hsecond ⊢
  have hlen₁ : a.length - firstTail = (dropTail a).length := by
    rw [hfirst, List.length_take]
    omega
  have hlen₂ : b.length - secondHead = (dropHead b).length := by
    rw [hsecond, List.length_drop]
  have hlen : a.length - firstTail + b.length - secondHead + 1 =
      (dropTail a).length + (dropHead b).length + 1 := by omega
  rw [hlen, ← hfirst, ← hsecond, hlen₁, hlen₂, List.take_length, memcpy_result,
    join_of_ne_nil ha hb, List.length_append, List.length_cons, Nat.add_assoc]

theorem joinPath_nil_left (a : List Char) : joinPath [] a = some a := if_pos (.inl rfl)

theorem joinPath_nil_right (a : List Char) : joinPath a [] = some a := by
  rw [joinPath, if_pos (.inr rfl), List.append_nil]

/-! ## Associativity -/

theorem dropTail_append (a : List Char) (h : b ≠ []) : dropTail (a ++ b) = a ++ dropTail b := by
  unfold dropTail
  rw [List.getLast?_append_of_ne_nil a h]
  split
  · exact List.dropLast_append_of_ne_nil h
  · rfl

theorem dropHead_cons_append (x : Char) (a b : List Char) :
    dropHead (x :: a ++ b) = dropHead [x] ++ (a ++ b) := by
  unfold dropHead
  by_cases hx : x = '/'
  · simp [hx]
  · simp [hx]

/-- A slash is left out at the end of the middle path and at its beginning, in either order; from
a path that is a single slash it is left out only once. -/
theorem dropTail_append_dropHead (h : b ≠ []) (x y : List Char) :
    dropTail (x ++ '/' :: dropHead b) ++ '/' :: y =
      x ++ '/' :: dropHead (dropTail b ++ '/' :: y) := by
  obtain ⟨p, t, rfl⟩ := List.exists_cons_of_ne_nil h
  cases t with
  | nil =>
    by_cases hp : p = '/'
    · simp [hp, dropHead, dropTail]
    · simp [hp, dropHead, dropTail]
  | cons q t =>
    have hne : q :: t ≠ [] := List.cons_ne_nil q t
    have hhead : dropHead (p :: q :: t) = dropHead [p] ++ (q :: t) := by
      simpa using dropHead_cons_append p (q :: t) []
    have htail : dropTail (p :: q :: t) = p :: dropTail (q :: t) := dropTail_append [p] hne
    rw [hhead, htail, dropHead_cons_append, ← List.cons_append, ← List.append_assoc,
      dropTail_append _ hne]
    simp

/-- Joining paths is associative. -/
theorem join_assoc (a b c : List Char) : join (join a b) c = join a (join b c) := by
  by_cases ha : a = []
  · rw [ha, join_nil_left, join_nil_left]
  by_cases hb : b = []
  · rw [hb, join_nil_left, join_nil_right]
  by_cases hc : c = []
  · rw [hc, join_nil_right, join_nil_right]
  calc join (join a b) c
      = dropTail (join a b) ++ '/' :: dropHead c := join_of_ne_nil (join_ne_nil ha hb) hc
    _ = dropTail (dropTail a ++ '/' :: dropHead b) ++ '/' :: dropHead c := by
        rw [join_of_ne_nil ha hb]
    _ = dropTail a ++ '/' :: dropHead (dropTail b ++ '/' :: dropHead c) :=
        dropTail_append_dropHead hb _ _
    _ = dropTail a ++ '/' :: dropHead (join b c) := by rw [join_of_ne_nil hb hc]
    _ = join a (join b c) := (join_of_ne_nil ha (join_ne_nil hb hc)).symm

/-! ## The function is associative -/

theorem length_dropTail (a : List Char) : a.length ≤ (dropTail a).length + 1 ∧
    (dropTail a).length ≤ a.length := by
  unfold dropTail
  split
  · rw [List.length_dropLast]
    omega
  · omega

theorem length_dropHead (a : List Char) : a.length ≤ (dropHead a).length + 1 ∧
    (dropHead a).length ≤ a.length := by
  unfold dropHead
  split
  · rw [List.length_tail]
    omega
  · omega

/-- The result is as long as each of two paths, and longer than both together by one character at
most. -/
theorem length_join (ha : a ≠ []) (hb : b ≠ []) :
    a.length ≤ (join a b).length ∧ b.length ≤ (join a b).length ∧
      (join a b).length ≤ a.length + b.length + 1 := by
  have htail := length_dropTail a
  have hhead := length_dropHead b
  rw [join_of_ne_nil ha hb, List.length_append, List.length_cons]
  omega

theorem length_join_le (a b : List Char) : (join a b).length ≤ a.length + b.length + 1 := by
  by_cases ha : a = []
  · rw [ha, join_nil_left]
    omega
  · by_cases hb : b = []
    · rw [hb, join_nil_right]
      omega
    · exact (length_join ha hb).2.2

theorem joinPath_of_fits (h : a.length + b.length + 1 < 2 ^ 31) :
    joinPath a b = some (join a b) := by
  by_cases ha : a = []
  · rw [ha, joinPath_nil_left, join_nil_left]
  · by_cases hb : b = []
    · rw [hb, joinPath_nil_right, join_nil_right]
    · have hle := length_join_le a b
      rw [joinPath_of_ne_nil ha hb, if_pos (by omega)]

/-- Of two calls one after the other, the length of the second result decides: the first result is
not longer. -/
theorem bind_of_length_le {x y : List Char} {call : List Char → Option (List Char)}
    (hle : x.length ≤ y.length) (hcall : call x = if y.length < 2 ^ 31 then some y else none) :
    (if x.length < 2 ^ 31 then some x else none).bind call =
      if y.length < 2 ^ 31 then some y else none := by
  by_cases hfit : x.length < 2 ^ 31
  · rw [if_pos hfit, Option.bind_some, hcall]
  · rw [if_neg hfit, if_neg (by omega), Option.bind_none]

theorem bind_joinPath (ha : a ≠ []) (hb : b ≠ []) (hc : c ≠ []) :
    (joinPath a b).bind (fun x => joinPath x c) =
      if (join (join a b) c).length < 2 ^ 31 then some (join (join a b) c) else none := by
  have hne := join_ne_nil ha hb
  rw [joinPath_of_ne_nil ha hb]
  exact bind_of_length_le (length_join hne hc).1 (joinPath_of_ne_nil hne hc)

theorem joinPath_bind (ha : a ≠ []) (hb : b ≠ []) (hc : c ≠ []) :
    (joinPath b c).bind (joinPath a) =
      if (join a (join b c)).length < 2 ^ 31 then some (join a (join b c)) else none := by
  have hne := join_ne_nil hb hc
  rw [joinPath_of_ne_nil hb hc]
  exact bind_of_length_le (length_join ha hne).2.1 (joinPath_of_ne_nil ha hne)

/-- `JoinPath` is associative, also where it fails; it does not fail if the lengths and the two
slashes fit into an `int`; and the empty path is neutral on both sides. -/
theorem joinPath_assoc (a b c : List Char) :
    (joinPath a b).bind (fun x => joinPath x c) = (joinPath b c).bind (joinPath a) ∧
      (a.length + b.length + c.length + 2 < 2 ^ 31 →
        (joinPath a b).bind (fun x => joinPath x c) = some (join (join a b) c)) ∧
      joinPath [] a = some a ∧ joinPath a [] = some a := by
  refine ⟨?_, fun hfit => ?_, joinPath_nil_left a, joinPath_nil_right a⟩
  · by_cases ha : a = []
    · rw [ha, joinPath_nil_left, Option.bind_some, funext joinPath_nil_left, Option.bind_fun_some]
    by_cases hb : b = []
    · rw [hb, joinPath_nil_right, joinPath_nil_left, Option.bind_some, Option.bind_some]
    by_cases hc : c = []
    · rw [hc, joinPath_nil_right, funext joinPath_nil_right, Option.bind_fun_some,
        Option.bind_some]
    rw [bind_joinPath ha hb hc, joinPath_bind ha hb hc, join_assoc]
  · have hle := length_join_le a b
    rw [joinPath_of_fits (by omega), Option.bind_some]
    exact joinPath_of_fits (by omega)

example : joinPath ['/', 'a', '/'] ['/', '/', 'b'] = some ['/', 'a', '/', '/', 'b'] := by decide

end Rtp.Leader.JoinPath
