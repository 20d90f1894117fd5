import Mathlib.Data.List.Infix

/-!
# Scanning by the longest match

A scanner is given by a list of rules, each a pattern with an action.  At every point it
takes the longest beginning of the input that some pattern matches, of the rules that match
it the first, and performs that rule's action.  A pattern is the set of texts that it
matches, so nothing depends on how patterns are written.

* `longest` — the longest match and its rule; `scan` — the whole input.
* `longest_append` — a text that no longer one beats.
* `scan_append` — **one step**: what is scanned first does not depend on what follows, as
  long as that does not make it longer.
* `exists_rule_of_mem_scan` — where a token comes from.
-/

namespace Rtp.Scanner

variable {α τ : Type*}

/-- What a rule does with a text: nothing, a token is returned, or the input ends. -/
inductive Action (τ : Type*) where
  | skip
  | token (t : τ)
  | stop
  deriving DecidableEq

/-- A pattern and its action. -/
structure Rule (α τ : Type*) where
  pattern : List α → Bool
  action : List α → Action τ

/-- The tokens of an action and of what comes after it. -/
def Action.before (action : Action τ) (tokens : Option (List τ)) : Option (List τ) :=
  match action with
  | .skip => tokens
  | .token t => tokens.map fun ts => t :: ts
  | .stop => some []

section Scan

variable (rules : List (Rule α τ))

/-- The first rule that matches a text. -/
def ruleFor (text : List α) : Option (Rule α τ) := rules.find? fun rule => rule.pattern text

/-- The longest match among the first `n` characters that is not empty. -/
def longest (input : List α) : ℕ → Option (ℕ × Rule α τ)
  | 0 => none
  | n + 1 =>
    match ruleFor rules (input.take (n + 1)) with
    | some rule => some (n + 1, rule)
    | none => longest input n

/-- All tokens; `none` where no rule matches.  Every step takes a character at least. -/
def scanFrom : ℕ → List α → Option (List τ)
  | _, [] => some []
  | 0, _ :: _ => none
  | fuel + 1, c :: input =>
    match longest rules (c :: input) (input.length + 1) with
    | none => none
    | some (n, rule) =>
      (rule.action ((c :: input).take n)).before (scanFrom fuel ((c :: input).drop n))

/-- The tokens of an input. -/
def scan (input : List α) : Option (List τ) := scanFrom rules input.length input

end Scan

variable {rules : List (Rule α τ)} {input text rest : List α} {rule : Rule α τ}

/-- What is found is a match, and not an empty one. -/
theorem longest_spec {n k : ℕ} (h : longest rules input n = some (k, rule)) :
    0 < k ∧ ruleFor rules (input.take k) = some rule := by
  induction n with
  | zero => simp [longest] at h
  | succ n ih =>
    rw [longest] at h
    cases hrule : ruleFor rules (input.take (n + 1)) with
    | some first =>
      simp only [hrule, Option.some.injEq, Prod.mk.injEq] at h
      obtain ⟨rfl, rfl⟩ := h
      exact ⟨Nat.succ_pos n, hrule⟩
    | none =>
      simp only [hrule] at h
      exact ih h

/-- More fuel than characters makes no difference. -/
theorem scanFrom_eq_scanFrom {fuel fuel' : ℕ} (h : input.length ≤ fuel)
    (h' : input.length ≤ fuel') : scanFrom rules fuel input = scanFrom rules fuel' input := by
  induction fuel generalizing fuel' input with
  | zero =>
    obtain rfl : input = [] := List.length_eq_zero_iff.mp (Nat.le_zero.mp h)
    simp [scanFrom]
  | succ fuel ih =>
    cases input with
    | nil => simp [scanFrom]
    | cons c input =>
      cases fuel' with
      | zero => exact absurd h' (Nat.not_succ_le_zero _)
      | succ fuel' =>
        rw [scanFrom, scanFrom]
        cases hlongest : longest rules (c :: input) (input.length + 1) with
        | none => rfl
        | some first =>
          obtain ⟨n, rule⟩ := first
          have hpos := (longest_spec hlongest).1
          have hlen : ((c :: input).drop n).length ≤ input.length := by
            rw [List.length_drop, List.length_cons]
            omega
          rw [List.length_cons] at h h'
          have hrest : scanFrom rules fuel ((c :: input).drop n) =
              scanFrom rules fuel' ((c :: input).drop n) := ih (by omega) (by omega)
          simp only [hrest]

/-- A match that cannot be made longer is the longest. -/
theorem longest_append (hne : text ≠ []) (hrule : ruleFor rules text = some rule)
    (hmax : ∀ more, more ≠ [] → more <+: rest → ruleFor rules (text ++ more) = none) :
    longest rules (text ++ rest) (text ++ rest).length = some (text.length, rule) := by
  have hpos : 0 < text.length := List.length_pos_iff.mpr hne
  -- any number of characters from the length of the text on
  have hfrom : ∀ k, k ≤ rest.length →
      longest rules (text ++ rest) (text.length + k) = some (text.length, rule) := by
    intro k
    induction k with
    | zero =>
      intro _
      obtain ⟨n, hn⟩ := Nat.exists_eq_add_one.mpr hpos
      rw [Nat.add_zero, hn, longest, ← hn, List.take_left' rfl, hrule]
    | succ k ih =>
      intro hk
      have hnone : ruleFor rules ((text ++ rest).take (text.length + k + 1)) = none := by
        rw [Nat.add_assoc, List.take_length_add_append]
        refine hmax _ (fun hnil => ?_) (List.take_prefix _ _)
        have := congrArg List.length hnil
        rw [List.length_take, List.length_nil] at this
        omega
      rw [← Nat.add_assoc, longest, hnone]
      exact ih (by omega)
  rw [List.length_append]
  exact hfrom rest.length (Nat.le_refl _)

/-- **One step of the scanner.** -/
theorem scan_append (hne : text ≠ []) (hrule : ruleFor rules text = some rule)
    (hmax : ∀ more, more ≠ [] → more <+: rest → ruleFor rules (text ++ more) = none) :
    scan rules (text ++ rest) = (rule.action text).before (scan rules rest) := by
  have hlongest := longest_append hne hrule hmax
  cases text with
  | nil => exact absurd rfl hne
  | cons c text =>
    rw [List.cons_append, List.length_cons] at hlongest
    rw [scan, List.cons_append, List.length_cons, scanFrom, hlongest]
    simp only
    rw [← List.cons_append, List.take_left' rfl, List.drop_left' rfl]
    congr 1
    exact scanFrom_eq_scanFrom (by simp) (Nat.le_refl _)

theorem exists_rule_of_mem_scanFrom {fuel : ℕ} {tokens : List τ} {t : τ}
    (h : scanFrom rules fuel input = some tokens) (ht : t ∈ tokens) :
    ∃ text rule, ruleFor rules text = some rule ∧ rule.action text = .token t := by
  induction fuel generalizing input tokens with
  | zero =>
    cases input with
    | nil =>
      obtain rfl : [] = tokens := by simpa [scanFrom] using h
      cases ht
    | cons c input => simp [scanFrom] at h
  | succ fuel ih =>
    cases input with
    | nil =>
      obtain rfl : [] = tokens := by simpa [scanFrom] using h
      cases ht
    | cons c input =>
      rw [scanFrom] at h
      cases hlongest : longest rules (c :: input) (input.length + 1) with
      | none => simp [hlongest] at h
      | some first =>
        obtain ⟨n, rule⟩ := first
        simp only [hlongest] at h
        cases haction : rule.action ((c :: input).take n) with
        | skip => exact ih (by rwa [haction, Action.before] at h) ht
        | stop =>
          obtain rfl : [] = tokens := by simpa [haction, Action.before] using h
          cases ht
        | token t' =>
          rw [haction, Action.before, Option.map_eq_some_iff] at h
          obtain ⟨tokens', htokens, rfl⟩ := h
          rcases List.mem_cons.mp ht with rfl | ht
          · exact ⟨_, rule, (longest_spec hlongest).2, haction⟩
          · exact ih htokens ht

/-- **Every token is returned by the rule for some text.** -/
theorem exists_rule_of_mem_scan {tokens : List τ} {t : τ} (h : scan rules input = some tokens)
    (ht : t ∈ tokens) :
    ∃ text rule, ruleFor rules text = some rule ∧ rule.action text = .token t :=
  exists_rule_of_mem_scanFrom h ht

end Rtp.Scanner
