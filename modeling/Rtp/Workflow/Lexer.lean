import Rtp.Lib.Scanner

/-!
# The tokens of a workflow file

The rules of `workflow.l`, run by the scanner of `Rtp.Lib.Scanner`: six keywords, names,
white space, which is skipped, and any other character, which stands for itself.  The
parser takes a token that is not positive for the end of its input, and that is what a
character with the code 0 or from 128 on becomes.

* `rules`, `lex` — the lexer.
* `Lexes` — a text with its tokens, whatever comes after it; texts in a row have their
  tokens in a row (`Lexes.append`).
* `lexes_keyword`, `lexes_name`, `lexes_char`, `lexes_space` — the texts of one token, or
  of none.
* `isName_of_mem_lex` — **a name that the lexer returns is an identifier and no keyword.**
-/

namespace Rtp.Workflow

open Scanner

/-- The tokens of `workflow.y`. -/
inductive Token where
  | kwIf
  | kwElse
  | kwDo
  | kwWhile
  | kwWorkflow
  | kwReturn
  | name (str : String)
  | char (c : Char)
  deriving DecidableEq, Repr

namespace Token

/-- The opening brace. -/
@[match_pattern] def lbrace : Token := .char '\x7b'

/-- The closing brace. -/
@[match_pattern] def rbrace : Token := .char '\x7d'

/-- The opening parenthesis. -/
@[match_pattern] def lparen : Token := .char '('

/-- The closing parenthesis. -/
@[match_pattern] def rparen : Token := .char ')'

/-- The exclamation mark. -/
@[match_pattern] def bang : Token := .char '!'

end Token

/-! ## The rules -/

/-- `[A-Za-z0-9_]`. -/
def isWordChar (c : Char) : Bool := c.isAlphanum || c == '_'

/-- `[ \t\n]`. -/
def isSpace (c : Char) : Bool := c == ' ' || c == '\t' || c == '\n'

/-- `[A-Za-z][A-Za-z0-9_]*`. -/
def isIdentifier : List Char → Bool
  | [] => false
  | c :: text => c.isAlpha && text.all isWordChar

/-- The rule of a keyword. -/
def keyword (word : String) (t : Token) : Rule Char Token where
  pattern text := text == word.toList
  action _ := .token t

/-- The rule of a name. -/
def nameRule : Rule Char Token where
  pattern := isIdentifier
  action text := .token (.name (String.ofList text))

/-- `[ \t\n]+`. -/
def spaceRule : Rule Char Token where
  pattern text := !text.isEmpty && text.all isSpace
  action _ := .skip

/-- `.`, which matches one character that is not the end of a line.  The character is
returned as a signed number, and one that is not positive is the end of the input. -/
def charRule : Rule Char Token where
  pattern text :=
    match text with
    | [c] => c != '\n'
    | _ => false
  action text :=
    match text with
    | [c] => if c.toNat = 0 ∨ 128 ≤ c.toNat then .stop else .token (.char c)
    | _ => .skip

/-- The keywords. -/
def keywords : List (String × Token) :=
  [("if", .kwIf), ("else", .kwElse), ("do", .kwDo), ("while", .kwWhile),
    ("workflow", .kwWorkflow), ("return", .kwReturn)]

/-- `workflow.l`. -/
def rules : List (Rule Char Token) :=
  keywords.map (fun p => keyword p.1 p.2) ++ [nameRule, spaceRule, charRule]

/-- The tokens of a text. -/
def lex (text : List Char) : Option (List Token) := scan rules text

/-! ## Texts and their tokens -/

/-- Whatever comes after it, the text has these tokens. -/
def Lexes (text : List Char) (tokens : List Token) : Prop :=
  ∀ rest, lex (text ++ rest) = (lex rest).map fun ts => tokens ++ ts

variable {text text' rest : List Char} {tokens tokens' : List Token} {c : Char}

theorem Lexes.nil : Lexes [] [] := by
  intro rest
  simp

theorem Lexes.append (h : Lexes text tokens) (h' : Lexes text' tokens') :
    Lexes (text ++ text') (tokens ++ tokens') := by
  intro rest
  rw [List.append_assoc, h, h', Option.map_map]
  congr 1
  funext ts
  simp

/-- The tokens of a text at the end of the input. -/
theorem Lexes.lex_eq (h : Lexes text tokens) : lex text = some tokens := by
  have heq := h []
  rw [List.append_nil] at heq
  rw [heq]
  simp [lex, scan, scanFrom]

/-- A rule for which nothing longer is found. -/
theorem lex_append {rule : Rule Char Token} (hne : text ≠ [])
    (hrule : ruleFor rules text = some rule)
    (hmax : ∀ more, more ≠ [] → more <+: rest → ruleFor rules (text ++ more) = none) :
    lex (text ++ rest) = (rule.action text).before (lex rest) :=
  scan_append hne hrule hmax

/-- No rule matches a text that is no word, no white space and not one character. -/
theorem ruleFor_eq_none (hword : text.all isWordChar = false) (hspace : text.all isSpace = false)
    (hlen : text.length ≠ 1) : ruleFor rules text = none := by
  rw [ruleFor, List.find?_eq_none]
  intro rule hrule
  rw [rules, List.mem_append, List.mem_map] at hrule
  rcases hrule with ⟨p, hp, rfl⟩ | hrule
  · -- a keyword consists of word characters
    have hall : ∀ p ∈ keywords, p.1.toList.all isWordChar = true := by decide
    intro heq
    have heq : text = p.1.toList := by simpa [keyword] using heq
    rw [heq, hall p hp] at hword
    exact absurd hword (by decide)
  · simp only [List.mem_cons, List.not_mem_nil, or_false] at hrule
    rcases hrule with rfl | rfl | rfl
    · cases text with
      | nil => simp [nameRule, isIdentifier]
      | cons c text =>
        intro hid
        simp only [nameRule, isIdentifier, Bool.and_eq_true] at hid
        have hc : isWordChar c = true := by simp [isWordChar, Char.isAlphanum, hid.1]
        rw [List.all_cons, hc, hid.2] at hword
        exact absurd hword (by decide)
    · simp [spaceRule, hspace]
    · intro hchar
      simp only [charRule] at hchar
      split at hchar
      · exact hlen rfl
      · exact absurd hchar (by decide)

/-- The rule for a text that is no keyword. -/
theorem ruleFor_of_not_keyword (h : ∀ p ∈ keywords, text ≠ p.1.toList) :
    ruleFor rules text = [nameRule, spaceRule, charRule].find? fun rule => rule.pattern text := by
  rw [ruleFor, rules, List.find?_append, List.find?_eq_none.mpr, Option.none_or]
  intro rule hrule
  obtain ⟨p, hp, rfl⟩ := List.mem_map.mp hrule
  simpa [keyword] using h p hp

variable {p : String × Token}

/-- The rule for a keyword. -/
theorem ruleFor_keyword (hp : p ∈ keywords) :
    ruleFor rules p.1.toList = some (keyword p.1 p.2) := by
  simp only [keywords, List.mem_cons, List.not_mem_nil, or_false] at hp
  rcases hp with rfl | rfl | rfl | rfl | rfl | rfl <;> rfl

theorem isWordChar_eq_false_of_isSpace (h : isSpace c = true) : isWordChar c = false := by
  simp only [isSpace, Bool.or_eq_true, beq_iff_eq] at h
  rcases h with (rfl | rfl) | rfl <;> decide

theorem isSpace_eq_false_of_isAlpha (h : c.isAlpha = true) : isSpace c = false := by
  by_contra hspace
  have hword := isWordChar_eq_false_of_isSpace (Bool.not_eq_false _ ▸ hspace)
  simp [isWordChar, Char.isAlphanum, h] at hword

/-- A keyword consists of letters. -/
theorem isIdentifier_keyword (hp : p ∈ keywords) : isIdentifier p.1.toList = true := by
  have hall : ∀ p ∈ keywords, isIdentifier p.1.toList = true := by decide
  exact hall p hp

/-- A text that does not start with a letter is no keyword. -/
theorem ne_keyword_of_isAlpha (h : c.isAlpha = false) :
    ∀ p ∈ keywords, c :: text ≠ p.1.toList := by
  intro p hp heq
  have hid := isIdentifier_keyword hp
  rw [← heq, isIdentifier, h, Bool.false_and] at hid
  exact absurd hid (by decide)

/-- What is added to a text starts with the character that comes after it. -/
theorem exists_cons_of_prefix {more : List Char} (hne : more ≠ []) (hpre : more <+: c :: rest) :
    ∃ more', more = c :: more' := by
  obtain ⟨tail, htail⟩ := hpre
  cases more with
  | nil => exact absurd rfl hne
  | cons d more =>
    rw [List.cons_append, List.cons.injEq] at htail
    exact ⟨more, by rw [htail.1]⟩

/-! ## White space -/

/-- The rule for white space. -/
theorem ruleFor_spaces (hc : isSpace c = true) (hall : text.all isSpace = true) :
    ruleFor rules (c :: text) = some spaceRule := by
  have hword := isWordChar_eq_false_of_isSpace hc
  have halpha : c.isAlpha = false := by
    by_contra h
    rw [isSpace_eq_false_of_isAlpha (Bool.not_eq_false _ ▸ h)] at hc
    exact absurd hc (by decide)
  rw [ruleFor_of_not_keyword (ne_keyword_of_isAlpha halpha)]
  simp [nameRule, isIdentifier, halpha, spaceRule, hc, hall]

/-- A run of white space is skipped. -/
theorem lex_spaces (hc : isSpace c = true) (hall : text.all isSpace = true)
    (hrest : ∀ d ∈ rest.head?, isSpace d = false) : lex (c :: text ++ rest) = lex rest := by
  refine lex_append (List.cons_ne_nil c text) (ruleFor_spaces hc hall) fun more hne hpre => ?_
  cases rest with
  | nil => exact absurd (List.prefix_nil.mp hpre) hne
  | cons d rest =>
    obtain ⟨more, rfl⟩ := exists_cons_of_prefix hne hpre
    refine ruleFor_eq_none ?_ ?_ (by simp)
    · simp [isWordChar_eq_false_of_isSpace hc]
    · simp [hrest d rfl]

/-- **White space makes no difference.** -/
theorem lex_space (hc : isSpace c = true) (rest : List Char) : lex (c :: rest) = lex rest := by
  have hhead : ∀ d ∈ (rest.dropWhile isSpace).head?, isSpace d = false := by
    intro d hd
    have := List.head?_dropWhile_not isSpace rest
    rw [Option.mem_def.mp hd] at this
    simpa using this
  have hsplit : rest = rest.takeWhile isSpace ++ rest.dropWhile isSpace :=
    List.takeWhile_append_dropWhile.symm
  have hall : (rest.takeWhile isSpace).all isSpace = true := List.all_takeWhile
  have hskip : lex (c :: rest) = lex (rest.dropWhile isSpace) := by
    conv_lhs => rw [hsplit]
    exact lex_spaces hc hall hhead
  rw [hskip]
  cases hrun : rest.takeWhile isSpace with
  | nil =>
    rw [hrun, List.nil_append] at hsplit
    rw [← hsplit]
  | cons d run =>
    rw [hrun, List.all_cons, Bool.and_eq_true] at hall
    conv_rhs => rw [hsplit, hrun]
    exact (lex_spaces hall.1 hall.2 hhead).symm

theorem lexes_space (hc : isSpace c = true) : Lexes [c] [] := by
  intro rest
  rw [List.singleton_append, lex_space hc]
  simp

/-! ## Words and characters -/

/-- A word before white space. -/
theorem lexes_word {rule : Rule Char Token} {t : Token} (hid : isIdentifier text = true)
    (hrule : ruleFor rules text = some rule) (haction : rule.action text = .token t)
    (hc : isSpace c = true) : Lexes (text ++ [c]) [t] := by
  intro rest
  cases text with
  | nil => simp [isIdentifier] at hid
  | cons d text =>
    rw [isIdentifier, Bool.and_eq_true] at hid
    have hstep : lex (d :: text ++ c :: rest) =
        (rule.action (d :: text)).before (lex (c :: rest)) := by
      refine lex_append (List.cons_ne_nil d text) hrule fun more hne hpre => ?_
      obtain ⟨more, rfl⟩ := exists_cons_of_prefix hne hpre
      refine ruleFor_eq_none ?_ ?_ (by simp)
      · simp [isWordChar_eq_false_of_isSpace hc]
      · simp [isSpace_eq_false_of_isAlpha hid.1]
    rw [List.append_assoc, List.singleton_append, hstep, haction, lex_space hc]
    rfl

/-- **A keyword.** -/
theorem lexes_keyword (hp : p ∈ keywords) (hc : isSpace c = true) :
    Lexes (p.1.toList ++ [c]) [p.2] :=
  lexes_word (isIdentifier_keyword hp) (ruleFor_keyword hp) rfl hc

/-- An identifier that is no keyword. -/
def IsName (str : String) : Prop :=
  isIdentifier str.toList = true ∧ ∀ p ∈ keywords, str ≠ p.1

/-- **A name.** -/
theorem lexes_name {str : String} (h : IsName str) (hc : isSpace c = true) :
    Lexes (str.toList ++ [c]) [.name str] := by
  have hrule : ruleFor rules str.toList = some nameRule := by
    rw [ruleFor_of_not_keyword fun p hp heq => h.2 p hp (String.toList_inj.mp heq)]
    simp [nameRule, h.1]
  exact lexes_word h.1 hrule (by simp [nameRule]) hc

/-- **A character that stands for itself.** -/
theorem lexes_char (hword : isWordChar c = false) (hspace : isSpace c = false)
    (hcode : 0 < c.toNat ∧ c.toNat < 128) : Lexes [c] [.char c] := by
  intro rest
  have halpha : c.isAlpha = false := by
    by_contra h
    simp [isWordChar, Char.isAlphanum, h] at hword
  have hline : c ≠ '\n' := by
    rintro rfl
    exact absurd hspace (by decide)
  have hrule : ruleFor rules [c] = some charRule := by
    rw [ruleFor_of_not_keyword (ne_keyword_of_isAlpha halpha)]
    simp [nameRule, isIdentifier, halpha, spaceRule, hspace, charRule, hline]
  have hstep : lex ([c] ++ rest) = (charRule.action [c]).before (lex rest) := by
    refine lex_append (List.cons_ne_nil c []) hrule fun more hne hpre => ?_
    refine ruleFor_eq_none ?_ ?_ ?_
    · simp [hword]
    · simp [hspace]
    · have := List.length_pos_iff.mpr hne
      rw [List.length_append, List.length_singleton]
      omega
  rw [hstep]
  have haction : charRule.action [c] = .token (.char c) := by
    rw [charRule]
    exact if_neg (by omega)
  rw [haction]
  rfl

/-! ## The names of a text -/

/-- **A name that the lexer returns** is an identifier and no keyword. -/
theorem isName_of_mem_lex {str : String} (h : lex text = some tokens)
    (hmem : Token.name str ∈ tokens) : IsName str := by
  obtain ⟨word, rule, hrule, haction⟩ := exists_rule_of_mem_scan h hmem
  have hnot : ∀ p ∈ keywords, word ≠ p.1.toList := by
    rintro p hp rfl
    rw [ruleFor_keyword hp, Option.some.injEq] at hrule
    subst hrule
    have hall : ∀ p ∈ keywords, ∀ str, p.2 ≠ Token.name str := by
      intro p hp
      simp only [keywords, List.mem_cons, List.not_mem_nil, or_false] at hp
      rcases hp with rfl | rfl | rfl | rfl | rfl | rfl <;> simp
    exact hall p hp str (by simpa [keyword] using haction)
  rw [ruleFor_of_not_keyword hnot] at hrule
  have hmatch := List.find?_some hrule
  have hin := List.mem_of_find?_eq_some hrule
  simp only [List.mem_cons, List.not_mem_nil, or_false] at hin
  rcases hin with rfl | rfl | rfl
  · obtain rfl : String.ofList word = str := by simpa [nameRule] using haction
    refine ⟨by simpa [nameRule] using hmatch, fun p hp heq => hnot p hp ?_⟩
    rw [← heq, String.toList_ofList]
  · simp [spaceRule] at haction
  · simp only [charRule] at haction
    split at haction
    · split at haction <;> simp at haction
    · simp at haction

end Rtp.Workflow
