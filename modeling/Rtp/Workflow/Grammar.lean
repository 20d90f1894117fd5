import Rtp.Workflow.Lexer
import Rtp.Workflow.Syntax

/-!
# The grammar of workflow files

The rules of `workflow.y` with their actions, as an inductive definition, and a parser that
decides by the next token.  The parser shows that the grammar is not ambiguous: what can be
derived at all is derived in one way.

* `Derives` — the grammar, one constructor for every rule; the lists are built from the
  left.
* `parse` — the parser, which builds them from the right; `parseSym` is one level of its
  recursion.
* `sound_parse` — what it returns is derived.
* `reads_of_derives` — **what is derived it returns**, where an `if` without `else` is not
  followed by an `else`.
* `derives_iff_parse`, `Derives.unique` — the grammar and the parser, for a whole file.
-/

namespace Rtp.Workflow

open WorkflowSyntax

/-- The nonterminals of `workflow.y`. -/
inductive Sym where
  | workflowlist
  | workflow
  | block
  | stmtlist
  | stmt
  | ifstmt
  | elsestmt
  | whilestmt
  | dowhilestmt
  | returnstmt
  | exp
  deriving DecidableEq, Repr

namespace WorkflowSyntax

/-- `workflow_syntax_add_stmt`, which is called on statement lists. -/
def addStmt : WorkflowSyntax → WorkflowSyntax → WorkflowSyntax
  | stmtList child, stmt => stmtList (child ++ [stmt])
  | self, _ => self

/-- The children of a statement list. -/
def children : WorkflowSyntax → List WorkflowSyntax
  | stmtList child => child
  | _ => []

end WorkflowSyntax

/-- The rules of `workflow.y` and their actions: a nonterminal, the tokens and the tree. -/
inductive Derives : Sym → List Token → WorkflowSyntax → Prop
  | workflowlistEmpty : Derives .workflowlist [] (stmtList [])
  | workflowlistAdd {u v root w} : Derives .workflowlist u root → Derives .workflow v w →
      Derives .workflowlist (u ++ v) (root.addStmt w)
  | workflow {s u b} : Derives .block u b →
      Derives .workflow (.kwWorkflow :: .name s :: u) (.workflow (.name s) b)
  | block {u l} : Derives .stmtlist u l → Derives .block (.lbrace :: u ++ [.rbrace]) l
  | stmtlistEmpty : Derives .stmtlist [] (stmtList [])
  | stmtlistAdd {u v l s} : Derives .stmtlist u l → Derives .stmt v s →
      Derives .stmtlist (u ++ v) (l.addStmt s)
  | stmtIf {u s} : Derives .ifstmt u s → Derives .stmt u s
  | stmtWhile {u s} : Derives .whilestmt u s → Derives .stmt u s
  | stmtDowhile {u s} : Derives .dowhilestmt u s → Derives .stmt u s
  | stmtReturn {u s} : Derives .returnstmt u s → Derives .stmt u s
  | stmtExp {u s} : Derives .exp u s → Derives .stmt u s
  | ifstmt {u v w c t e} : Derives .exp u c → Derives .block v t → Derives .elsestmt w e →
      Derives .ifstmt (.kwIf :: (u ++ (v ++ w))) (.ifStmt c t e)
  | elseEmpty : Derives .elsestmt [] .emptyStmt
  | elseBlock {u b} : Derives .block u b → Derives .elsestmt (.kwElse :: u) b
  | elseIf {u s} : Derives .ifstmt u s → Derives .elsestmt (.kwElse :: u) s
  | whilestmt {u v c b} : Derives .exp u c → Derives .block v b →
      Derives .whilestmt (.kwWhile :: (u ++ v)) (.whileStmt c b)
  | dowhilestmt {u v b c} : Derives .block u b → Derives .exp v c →
      Derives .dowhilestmt (.kwDo :: (u ++ .kwWhile :: v)) (.doWhileStmt b c)
  | returnstmt : Derives .returnstmt [.kwReturn] .returnStmt
  | expNot {u e} : Derives .exp u e → Derives .exp (.bang :: u) (.unopExp .not e)
  | expParen {u e} : Derives .exp u e → Derives .exp (.lparen :: u ++ [.rparen]) e
  | expName {s} : Derives .exp [.name s] (.name s)

/-! ## A parser -/

/-- A statement starts with this token. -/
def startsStmt : Token → Bool
  | .kwIf | .kwWhile | .kwDo | .kwReturn | .name _ | .bang | .lparen => true
  | _ => false

/-- The kind of statement that starts with a token. -/
def stmtSym : Option Token → Sym
  | some .kwIf => .ifstmt
  | some .kwWhile => .whilestmt
  | some .kwDo => .dowhilestmt
  | some .kwReturn => .returnstmt
  | _ => .exp

/-- One expected token. -/
def expect (t : Token) : List Token → Option (List Token)
  | [] => none
  | u :: tokens => if u = t then some tokens else none

/-- A statement in front of a statement list. -/
def consStmt (stmt : WorkflowSyntax) : WorkflowSyntax → WorkflowSyntax
  | stmtList child => stmtList (stmt :: child)
  | self => self

/-- What the parser returns: a tree at the beginning of the tokens, and the tokens that are
left. -/
abbrev Parser : Type := List Token → Option (WorkflowSyntax × List Token)

section Rules

variable (call : Sym → Parser)

/-- A list of `item`, in which one more comes if `more` says so. -/
def parseList (list item : Sym) (more : Bool) : Parser := fun tokens =>
  if more then do
    let (s, tokens) ← call item tokens
    let (l, tokens) ← call list tokens
    return (consStmt s l, tokens)
  else some (stmtList [], tokens)

def parseWorkflow : Parser
  | .kwWorkflow :: .name s :: tokens => do
    let (b, tokens) ← call .block tokens
    return (.workflow (.name s) b, tokens)
  | _ => none

def parseBlock : Parser := fun tokens => do
  let tokens ← expect .lbrace tokens
  let (l, tokens) ← call .stmtlist tokens
  let tokens ← expect .rbrace tokens
  return (l, tokens)

def parseIfstmt : Parser := fun tokens => do
  let tokens ← expect .kwIf tokens
  let (c, tokens) ← call .exp tokens
  let (t, tokens) ← call .block tokens
  let (e, tokens) ← call .elsestmt tokens
  return (.ifStmt c t e, tokens)

def parseElsestmt : Parser
  | .kwElse :: .kwIf :: tokens => call .ifstmt (.kwIf :: tokens)
  | .kwElse :: tokens => call .block tokens
  | tokens => some (.emptyStmt, tokens)

def parseWhilestmt : Parser := fun tokens => do
  let tokens ← expect .kwWhile tokens
  let (c, tokens) ← call .exp tokens
  let (b, tokens) ← call .block tokens
  return (.whileStmt c b, tokens)

def parseDowhilestmt : Parser := fun tokens => do
  let tokens ← expect .kwDo tokens
  let (b, tokens) ← call .block tokens
  let tokens ← expect .kwWhile tokens
  let (c, tokens) ← call .exp tokens
  return (.doWhileStmt b c, tokens)

def parseReturnstmt : Parser := fun tokens => do
  let tokens ← expect .kwReturn tokens
  return (.returnStmt, tokens)

def parseExp : Parser
  | .bang :: tokens => do
    let (e, tokens) ← call .exp tokens
    return (.unopExp .not e, tokens)
  | .lparen :: tokens => do
    let (e, tokens) ← call .exp tokens
    let tokens ← expect .rparen tokens
    return (e, tokens)
  | .name s :: tokens => some (.name s, tokens)
  | _ => none

/-- One level of the recursion: the next token decides which rule is taken. -/
def parseSym : Sym → Parser
  | .workflowlist => fun tokens =>
    parseList call .workflowlist .workflow (!tokens.isEmpty) tokens
  | .workflow => parseWorkflow call
  | .block => parseBlock call
  | .stmtlist => fun tokens =>
    parseList call .stmtlist .stmt (tokens.head?.any startsStmt) tokens
  | .stmt => fun tokens => call (stmtSym tokens.head?) tokens
  | .ifstmt => parseIfstmt call
  | .elsestmt => parseElsestmt call
  | .whilestmt => parseWhilestmt call
  | .dowhilestmt => parseDowhilestmt call
  | .returnstmt => parseReturnstmt
  | .exp => parseExp call

end Rules

/-- The parser for a nonterminal. -/
def parse : ℕ → Sym → Parser
  | 0 => fun _ _ => none
  | fuel + 1 => parseSym (parse fuel)

/-! ## What each rule of the parser returns -/

theorem expect_eq_some {t : Token} {tokens rest : List Token} :
    expect t tokens = some rest ↔ tokens = t :: rest := by
  cases tokens with
  | nil => simp [expect]
  | cons u tokens =>
    rw [expect]
    split
    · next h => simp [h]
    · next h => simp [h]

section Rules

variable {call : Sym → Parser} {tokens rest : List Token} {t : WorkflowSyntax}

theorem parseSym_workflowlist : parseSym call .workflowlist tokens =
    parseList call .workflowlist .workflow (!tokens.isEmpty) tokens := rfl

theorem parseSym_workflow : parseSym call .workflow = parseWorkflow call := rfl

theorem parseSym_stmtlist : parseSym call .stmtlist tokens =
    parseList call .stmtlist .stmt (tokens.head?.any startsStmt) tokens := rfl

theorem parseSym_elsestmt : parseSym call .elsestmt = parseElsestmt call := rfl

theorem parseSym_exp : parseSym call .exp = parseExp call := rfl

theorem parseList_nil {list item : Sym} :
    parseList call list item false tokens = some (t, rest) ↔ t = stmtList [] ∧ tokens = rest := by
  simp [parseList, eq_comm]

theorem parseList_more {list item : Sym} :
    parseList call list item true tokens = some (t, rest) ↔
      ∃ s tokens' l, call item tokens = some (s, tokens') ∧
        call list tokens' = some (l, rest) ∧ t = consStmt s l := by
  simp only [parseList, if_true, Option.bind_eq_bind, Option.bind_eq_some_iff, Prod.exists,
    Option.pure_def, Option.some.injEq, Prod.mk.injEq]
  constructor
  · rintro ⟨s, tokens', hs, l, _, hl, rfl, rfl⟩
    exact ⟨s, tokens', l, hs, hl, rfl⟩
  · rintro ⟨s, tokens', l, hs, hl, rfl⟩
    exact ⟨s, tokens', hs, l, rest, hl, rfl, rfl⟩

theorem parseWorkflow_eq_some :
    parseWorkflow call tokens = some (t, rest) ↔
      ∃ str tokens' b, tokens = .kwWorkflow :: .name str :: tokens' ∧
        call .block tokens' = some (b, rest) ∧ t = .workflow (.name str) b := by
  constructor
  · intro h
    unfold parseWorkflow at h
    split at h
    · next str tokens' =>
      simp only [Option.bind_eq_bind, Option.bind_eq_some_iff, Prod.exists, Option.pure_def,
        Option.some.injEq, Prod.mk.injEq] at h
      obtain ⟨b, _, hb, rfl, rfl⟩ := h
      exact ⟨str, tokens', b, rfl, hb, rfl⟩
    · cases h
  · rintro ⟨str, tokens', b, rfl, hb, rfl⟩
    simp [parseWorkflow, hb]

theorem parseBlock_eq_some :
    parseBlock call tokens = some (t, rest) ↔
      ∃ tokens', tokens = .lbrace :: tokens' ∧
        call .stmtlist tokens' = some (t, .rbrace :: rest) := by
  simp only [parseBlock, Option.bind_eq_bind, Option.bind_eq_some_iff, Prod.exists,
    Option.pure_def, Option.some.injEq, Prod.mk.injEq, expect_eq_some]
  constructor
  · rintro ⟨tokens', rfl, l, _, hl, _, rfl, rfl, rfl⟩
    exact ⟨tokens', rfl, hl⟩
  · rintro ⟨tokens', rfl, hl⟩
    exact ⟨tokens', rfl, t, _, hl, rest, rfl, rfl, rfl⟩

theorem parseIfstmt_eq_some :
    parseIfstmt call tokens = some (t, rest) ↔
      ∃ tokens₁ c tokens₂ b tokens₃ e, tokens = .kwIf :: tokens₁ ∧
        call .exp tokens₁ = some (c, tokens₂) ∧ call .block tokens₂ = some (b, tokens₃) ∧
        call .elsestmt tokens₃ = some (e, rest) ∧ t = .ifStmt c b e := by
  simp only [parseIfstmt, Option.bind_eq_bind, Option.bind_eq_some_iff, Prod.exists,
    Option.pure_def, Option.some.injEq, Prod.mk.injEq, expect_eq_some]
  constructor
  · rintro ⟨tokens₁, rfl, c, tokens₂, hc, b, tokens₃, hb, e, _, he, rfl, rfl⟩
    exact ⟨tokens₁, c, tokens₂, b, tokens₃, e, rfl, hc, hb, he, rfl⟩
  · rintro ⟨tokens₁, c, tokens₂, b, tokens₃, e, rfl, hc, hb, he, rfl⟩
    exact ⟨tokens₁, rfl, c, tokens₂, hc, b, tokens₃, hb, e, rest, he, rfl, rfl⟩

/-- After `else` comes another `if`, or a block. -/
theorem parseElsestmt_eq_some :
    parseElsestmt call tokens = some (t, rest) ↔
      (∃ tokens', tokens = .kwElse :: .kwIf :: tokens' ∧
        call .ifstmt (.kwIf :: tokens') = some (t, rest)) ∨
      (∃ tokens', tokens = .kwElse :: tokens' ∧ tokens'.head? ≠ some .kwIf ∧
        call .block tokens' = some (t, rest)) ∨
      (tokens.head? ≠ some .kwElse ∧ t = .emptyStmt ∧ tokens = rest) := by
  constructor
  · intro h
    unfold parseElsestmt at h
    split at h
    · next tokens' => exact .inl ⟨tokens', rfl, h⟩
    · next tokens' hif =>
      refine .inr (.inl ⟨tokens', rfl, fun hhead => ?_, h⟩)
      obtain ⟨l, rfl⟩ := List.head?_eq_some_iff.mp hhead
      exact hif l rfl
    · next helse =>
      simp only [Option.some.injEq, Prod.mk.injEq] at h
      refine .inr (.inr ⟨fun hhead => ?_, h.1.symm, h.2⟩)
      obtain ⟨l, rfl⟩ := List.head?_eq_some_iff.mp hhead
      exact helse l rfl
  · rintro (⟨tokens', rfl, h⟩ | ⟨tokens', rfl, hif, h⟩ | ⟨helse, rfl, rfl⟩)
    · exact h
    · unfold parseElsestmt
      split
      · simp_all
      · simp_all
      · simp_all
    · unfold parseElsestmt
      split
      · simp at helse
      · simp at helse
      · rfl

theorem parseWhilestmt_eq_some :
    parseWhilestmt call tokens = some (t, rest) ↔
      ∃ tokens₁ c tokens₂ b, tokens = .kwWhile :: tokens₁ ∧
        call .exp tokens₁ = some (c, tokens₂) ∧ call .block tokens₂ = some (b, rest) ∧
        t = .whileStmt c b := by
  simp only [parseWhilestmt, Option.bind_eq_bind, Option.bind_eq_some_iff, Prod.exists,
    Option.pure_def, Option.some.injEq, Prod.mk.injEq, expect_eq_some]
  constructor
  · rintro ⟨tokens₁, rfl, c, tokens₂, hc, b, _, hb, rfl, rfl⟩
    exact ⟨tokens₁, c, tokens₂, b, rfl, hc, hb, rfl⟩
  · rintro ⟨tokens₁, c, tokens₂, b, rfl, hc, hb, rfl⟩
    exact ⟨tokens₁, rfl, c, tokens₂, hc, b, rest, hb, rfl, rfl⟩

theorem parseDowhilestmt_eq_some :
    parseDowhilestmt call tokens = some (t, rest) ↔
      ∃ tokens₁ b tokens₂ c, tokens = .kwDo :: tokens₁ ∧
        call .block tokens₁ = some (b, .kwWhile :: tokens₂) ∧
        call .exp tokens₂ = some (c, rest) ∧ t = .doWhileStmt b c := by
  simp only [parseDowhilestmt, Option.bind_eq_bind, Option.bind_eq_some_iff, Prod.exists,
    Option.pure_def, Option.some.injEq, Prod.mk.injEq, expect_eq_some]
  constructor
  · rintro ⟨tokens₁, rfl, b, _, hb, tokens₂, rfl, c, _, hc, rfl, rfl⟩
    exact ⟨tokens₁, b, tokens₂, c, rfl, hb, hc, rfl⟩
  · rintro ⟨tokens₁, b, tokens₂, c, rfl, hb, hc, rfl⟩
    exact ⟨tokens₁, rfl, b, _, hb, tokens₂, rfl, c, rest, hc, rfl, rfl⟩

theorem parseReturnstmt_eq_some :
    parseReturnstmt tokens = some (t, rest) ↔ tokens = .kwReturn :: rest ∧ t = .returnStmt := by
  simp only [parseReturnstmt, Option.bind_eq_bind, Option.bind_eq_some_iff, Option.pure_def,
    Option.some.injEq, Prod.mk.injEq, expect_eq_some]
  constructor
  · rintro ⟨_, rfl, rfl, rfl⟩
    exact ⟨rfl, rfl⟩
  · rintro ⟨rfl, rfl⟩
    exact ⟨rest, rfl, rfl, rfl⟩

theorem parseExp_eq_some :
    parseExp call tokens = some (t, rest) ↔
      (∃ tokens' e, tokens = .bang :: tokens' ∧ call .exp tokens' = some (e, rest) ∧
        t = .unopExp .not e) ∨
      (∃ tokens', tokens = .lparen :: tokens' ∧ call .exp tokens' = some (t, .rparen :: rest)) ∨
      ∃ str, tokens = .name str :: rest ∧ t = .name str := by
  constructor
  · intro h
    unfold parseExp at h
    split at h
    · next tokens' =>
      simp only [Option.bind_eq_bind, Option.bind_eq_some_iff, Prod.exists, Option.pure_def,
        Option.some.injEq, Prod.mk.injEq] at h
      obtain ⟨e, _, he, rfl, rfl⟩ := h
      exact .inl ⟨tokens', e, rfl, he, rfl⟩
    · next tokens' =>
      simp only [Option.bind_eq_bind, Option.bind_eq_some_iff, Prod.exists, Option.pure_def,
        Option.some.injEq, Prod.mk.injEq, expect_eq_some] at h
      obtain ⟨e, _, he, _, rfl, rfl, rfl⟩ := h
      exact .inr (.inl ⟨tokens', rfl, he⟩)
    · next str tokens' =>
      simp only [Option.some.injEq, Prod.mk.injEq] at h
      obtain ⟨rfl, rfl⟩ := h
      exact .inr (.inr ⟨str, rfl, rfl⟩)
    · cases h
  · rintro (⟨tokens', e, rfl, he, rfl⟩ | ⟨tokens', rfl, he⟩ | ⟨str, rfl, rfl⟩)
    · simp [parseExp, Token.bang, he]
    · simp [parseExp, Token.lparen, expect, he]
    · rfl

end Rules

/-! ## What the parser returns is derived -/

/-- The two lists of the grammar, and what they are lists of. -/
inductive ListOf : Sym → Sym → Prop
  | workflows : ListOf .workflowlist .workflow
  | stmts : ListOf .stmtlist .stmt

theorem consStmt_addStmt (s l s' : WorkflowSyntax) :
    consStmt s (l.addStmt s') = (consStmt s l).addStmt s' := by
  cases l <;> rfl

section Sound

variable {u v tokens rest : List Token} {s l t : WorkflowSyntax} {list item sym : Sym}

theorem Derives.nil (h : ListOf list item) : Derives list [] (stmtList []) := by
  cases h with
  | workflows => exact .workflowlistEmpty
  | stmts => exact .stmtlistEmpty

theorem Derives.add (h : ListOf list item) (hl : Derives list u l) (hs : Derives item v s) :
    Derives list (u ++ v) (l.addStmt s) := by
  cases h with
  | workflows => exact .workflowlistAdd hl hs
  | stmts => exact .stmtlistAdd hl hs

/-- A list is derived from the right as well. -/
theorem Derives.cons (h : ListOf list item) (hs : Derives item v s) (hl : Derives list u l) :
    Derives list (v ++ u) (consStmt s l) := by
  induction hl with
  | workflowlistEmpty | stmtlistEmpty =>
    rw [List.append_nil]
    exact Derives.add h (.nil h) hs
  | workflowlistAdd _ hw ih _ =>
    rw [← List.append_assoc, consStmt_addStmt]
    exact .workflowlistAdd (ih h) hw
  | stmtlistAdd _ hs' ih _ =>
    rw [← List.append_assoc, consStmt_addStmt]
    exact .stmtlistAdd (ih h) hs'
  | _ => cases h

theorem Derives.stmt {first : Option Token} (h : Derives (stmtSym first) u s) :
    Derives .stmt u s := by
  unfold stmtSym at h
  split at h
  · exact .stmtIf h
  · exact .stmtWhile h
  · exact .stmtDowhile h
  · exact .stmtReturn h
  · exact .stmtExp h

/-- What is returned for a nonterminal is derived from it. -/
def Sound (call : Sym → Parser) : Prop :=
  ∀ ⦃sym tokens t rest⦄, call sym tokens = some (t, rest) →
    ∃ u, tokens = u ++ rest ∧ Derives sym u t

theorem Sound.parseList {call : Sym → Parser} (hcall : Sound call) (hlist : ListOf list item)
    {more : Bool} (h : parseList call list item more tokens = some (t, rest)) :
    ∃ u, tokens = u ++ rest ∧ Derives list u t := by
  cases more with
  | false =>
    obtain ⟨rfl, rfl⟩ := parseList_nil.mp h
    exact ⟨[], rfl, .nil hlist⟩
  | true =>
    obtain ⟨s, tokens', l, hs, hl, rfl⟩ := parseList_more.mp h
    obtain ⟨u, rfl, hu⟩ := hcall hs
    obtain ⟨v, rfl, hv⟩ := hcall hl
    exact ⟨u ++ v, (List.append_assoc ..).symm, .cons hlist hu hv⟩

/-- One level of the recursion. -/
theorem Sound.parseSym {call : Sym → Parser} (hcall : Sound call) : Sound (parseSym call) := by
  intro sym tokens t rest h
  cases sym with
  | workflowlist => exact hcall.parseList .workflows h
  | workflow =>
    obtain ⟨str, tokens', b, rfl, hb, rfl⟩ := parseWorkflow_eq_some.mp h
    obtain ⟨u, rfl, hu⟩ := hcall hb
    exact ⟨.kwWorkflow :: .name str :: u, rfl, .workflow hu⟩
  | block =>
    obtain ⟨tokens', rfl, hl⟩ := parseBlock_eq_some.mp h
    obtain ⟨u, rfl, hu⟩ := hcall hl
    exact ⟨.lbrace :: u ++ [.rbrace], by simp, .block hu⟩
  | stmtlist => exact hcall.parseList .stmts h
  | stmt =>
    obtain ⟨u, rfl, hu⟩ := hcall h
    exact ⟨u, rfl, hu.stmt⟩
  | ifstmt =>
    obtain ⟨_, c, _, b, _, e, rfl, hc, hb, he, rfl⟩ := parseIfstmt_eq_some.mp h
    obtain ⟨u, rfl, hu⟩ := hcall hc
    obtain ⟨v, rfl, hv⟩ := hcall hb
    obtain ⟨w, rfl, hw⟩ := hcall he
    exact ⟨.kwIf :: (u ++ (v ++ w)), by simp, .ifstmt hu hv hw⟩
  | elsestmt =>
    obtain ⟨tokens', rfl, hs⟩ | ⟨tokens', rfl, _, hb⟩ | ⟨_, rfl, rfl⟩ :=
      parseElsestmt_eq_some.mp h
    · obtain ⟨u, hu, hd⟩ := hcall hs
      exact ⟨.kwElse :: u, by rw [hu]; rfl, .elseIf hd⟩
    · obtain ⟨u, rfl, hu⟩ := hcall hb
      exact ⟨.kwElse :: u, rfl, .elseBlock hu⟩
    · exact ⟨[], rfl, .elseEmpty⟩
  | whilestmt =>
    obtain ⟨_, c, _, b, rfl, hc, hb, rfl⟩ := parseWhilestmt_eq_some.mp h
    obtain ⟨u, rfl, hu⟩ := hcall hc
    obtain ⟨v, rfl, hv⟩ := hcall hb
    exact ⟨.kwWhile :: (u ++ v), by simp, .whilestmt hu hv⟩
  | dowhilestmt =>
    obtain ⟨_, b, _, c, rfl, hb, hc, rfl⟩ := parseDowhilestmt_eq_some.mp h
    obtain ⟨u, rfl, hu⟩ := hcall hb
    obtain ⟨v, rfl, hv⟩ := hcall hc
    exact ⟨.kwDo :: (u ++ .kwWhile :: v), by simp, .dowhilestmt hu hv⟩
  | returnstmt =>
    obtain ⟨rfl, rfl⟩ := parseReturnstmt_eq_some.mp h
    exact ⟨[.kwReturn], rfl, .returnstmt⟩
  | exp =>
    obtain ⟨tokens', e, rfl, he, rfl⟩ | ⟨tokens', rfl, he⟩ | ⟨str, rfl, rfl⟩ :=
      parseExp_eq_some.mp h
    · obtain ⟨u, rfl, hu⟩ := hcall he
      exact ⟨.bang :: u, rfl, .expNot hu⟩
    · obtain ⟨u, rfl, hu⟩ := hcall he
      exact ⟨.lparen :: u ++ [.rparen], by simp [Token.lparen], .expParen hu⟩
    · exact ⟨[.name str], rfl, .expName⟩

/-- **What the parser returns is derived.** -/
theorem sound_parse (fuel : ℕ) : Sound (parse fuel) := by
  induction fuel with
  | zero =>
    intro sym tokens t rest h
    cases h
  | succ fuel ih => exact ih.parseSym

end Sound

/-! ## What is derived the parser returns -/

/-- With enough fuel the parser returns this. -/
def Yields (sym : Sym) (tokens : List Token) (r : WorkflowSyntax × List Token) : Prop :=
  ∃ least, ∀ fuel, least ≤ fuel → parse fuel sym tokens = some r

section Complete

variable {u v w tokens tokens' tokens'' rest : List Token} {s c b e t : WorkflowSyntax}
  {child : List WorkflowSyntax} {sym : Sym} {str : String}

/-- One level of the recursion. -/
theorem Yields.of_succ (least : ℕ) {r : WorkflowSyntax × List Token}
    (h : ∀ fuel, least ≤ fuel → parseSym (parse fuel) sym tokens = some r) :
    Yields sym tokens r := by
  refine ⟨least + 1, fun fuel hfuel => ?_⟩
  obtain ⟨fuel, rfl⟩ := Nat.exists_eq_add_of_le' hfuel
  exact h (fuel + least) (Nat.le_add_left _ _)

theorem yields_workflowlist_nil : Yields .workflowlist [] (stmtList [], []) := by
  refine .of_succ 0 fun fuel _ => ?_
  rw [parseSym_workflowlist, List.isEmpty_nil, Bool.not_true, parseList_nil]
  exact ⟨rfl, rfl⟩

theorem yields_workflowlist_cons (hne : tokens ≠ []) (hw : Yields .workflow tokens (s, tokens'))
    (hl : Yields .workflowlist tokens' (stmtList child, rest)) :
    Yields .workflowlist tokens (stmtList (s :: child), rest) := by
  obtain ⟨m, hm⟩ := hw
  obtain ⟨n, hn⟩ := hl
  refine .of_succ (max m n) fun fuel hfuel => ?_
  have hmore : (!tokens.isEmpty) = true := by simpa using hne
  rw [parseSym_workflowlist, hmore, parseList_more]
  exact ⟨s, tokens', _, hm fuel (by omega), hn fuel (by omega), rfl⟩

theorem yields_workflow (hb : Yields .block tokens (b, rest)) :
    Yields .workflow (.kwWorkflow :: .name str :: tokens) (.workflow (.name str) b, rest) := by
  obtain ⟨m, hm⟩ := hb
  refine .of_succ m fun fuel hfuel => ?_
  rw [parseSym_workflow, parseWorkflow_eq_some]
  exact ⟨str, tokens, b, rfl, hm fuel hfuel, rfl⟩

theorem yields_block (hl : Yields .stmtlist tokens (t, .rbrace :: rest)) :
    Yields .block (.lbrace :: tokens) (t, rest) := by
  obtain ⟨m, hm⟩ := hl
  refine .of_succ m fun fuel hfuel => parseBlock_eq_some.mpr ?_
  exact ⟨tokens, rfl, hm fuel hfuel⟩

theorem yields_stmtlist_nil (hstart : tokens.head?.any startsStmt = false) :
    Yields .stmtlist tokens (stmtList [], tokens) := by
  refine .of_succ 0 fun fuel _ => ?_
  rw [parseSym_stmtlist, hstart, parseList_nil]
  exact ⟨rfl, rfl⟩

theorem yields_stmtlist_cons (hstart : tokens.head?.any startsStmt = true)
    (hs : Yields .stmt tokens (s, tokens'))
    (hl : Yields .stmtlist tokens' (stmtList child, rest)) :
    Yields .stmtlist tokens (stmtList (s :: child), rest) := by
  obtain ⟨m, hm⟩ := hs
  obtain ⟨n, hn⟩ := hl
  refine .of_succ (max m n) fun fuel hfuel => ?_
  rw [parseSym_stmtlist, hstart, parseList_more]
  exact ⟨s, tokens', _, hm fuel (by omega), hn fuel (by omega), rfl⟩

theorem yields_ifstmt (hc : Yields .exp tokens (c, tokens'))
    (hb : Yields .block tokens' (b, tokens'')) (he : Yields .elsestmt tokens'' (e, rest)) :
    Yields .ifstmt (.kwIf :: tokens) (.ifStmt c b e, rest) := by
  obtain ⟨k, hk⟩ := hc
  obtain ⟨m, hm⟩ := hb
  obtain ⟨n, hn⟩ := he
  refine .of_succ (max k (max m n)) fun fuel hfuel => parseIfstmt_eq_some.mpr ?_
  exact ⟨tokens, c, tokens', b, tokens'', e, rfl, hk fuel (by omega), hm fuel (by omega),
    hn fuel (by omega), rfl⟩

theorem yields_elsestmt_empty (h : tokens.head? ≠ some .kwElse) :
    Yields .elsestmt tokens (.emptyStmt, tokens) := by
  refine .of_succ 0 fun fuel _ => ?_
  rw [parseSym_elsestmt, parseElsestmt_eq_some]
  exact .inr (.inr ⟨h, rfl, rfl⟩)

theorem yields_elsestmt_if (h : Yields .ifstmt (.kwIf :: tokens) (s, rest)) :
    Yields .elsestmt (.kwElse :: .kwIf :: tokens) (s, rest) := by
  obtain ⟨m, hm⟩ := h
  refine .of_succ m fun fuel hfuel => ?_
  rw [parseSym_elsestmt, parseElsestmt_eq_some]
  exact .inl ⟨tokens, rfl, hm fuel hfuel⟩

theorem yields_elsestmt_block (h : Yields .block (.lbrace :: tokens) (b, rest)) :
    Yields .elsestmt (.kwElse :: .lbrace :: tokens) (b, rest) := by
  obtain ⟨m, hm⟩ := h
  refine .of_succ m fun fuel hfuel => ?_
  rw [parseSym_elsestmt, parseElsestmt_eq_some]
  exact .inr (.inl ⟨.lbrace :: tokens, rfl, by simp [Token.lbrace], hm fuel hfuel⟩)

theorem yields_whilestmt (hc : Yields .exp tokens (c, tokens'))
    (hb : Yields .block tokens' (b, rest)) :
    Yields .whilestmt (.kwWhile :: tokens) (.whileStmt c b, rest) := by
  obtain ⟨m, hm⟩ := hc
  obtain ⟨n, hn⟩ := hb
  refine .of_succ (max m n) fun fuel hfuel => parseWhilestmt_eq_some.mpr ?_
  exact ⟨tokens, c, tokens', b, rfl, hm fuel (by omega), hn fuel (by omega), rfl⟩

theorem yields_dowhilestmt (hb : Yields .block tokens (b, .kwWhile :: tokens'))
    (hc : Yields .exp tokens' (c, rest)) :
    Yields .dowhilestmt (.kwDo :: tokens) (.doWhileStmt b c, rest) := by
  obtain ⟨m, hm⟩ := hb
  obtain ⟨n, hn⟩ := hc
  refine .of_succ (max m n) fun fuel hfuel => parseDowhilestmt_eq_some.mpr ?_
  exact ⟨tokens, b, tokens', c, rfl, hm fuel (by omega), hn fuel (by omega), rfl⟩

theorem yields_returnstmt : Yields .returnstmt (.kwReturn :: tokens) (.returnStmt, tokens) :=
  .of_succ 0 fun _ _ => parseReturnstmt_eq_some.mpr ⟨rfl, rfl⟩

theorem yields_exp_not (h : Yields .exp tokens (e, rest)) :
    Yields .exp (.bang :: tokens) (.unopExp .not e, rest) := by
  obtain ⟨m, hm⟩ := h
  refine .of_succ m fun fuel hfuel => ?_
  rw [parseSym_exp, parseExp_eq_some]
  exact .inl ⟨tokens, e, rfl, hm fuel hfuel, rfl⟩

theorem yields_exp_paren (h : Yields .exp tokens (e, .rparen :: rest)) :
    Yields .exp (.lparen :: tokens) (e, rest) := by
  obtain ⟨m, hm⟩ := h
  refine .of_succ m fun fuel hfuel => ?_
  rw [parseSym_exp, parseExp_eq_some]
  exact .inr (.inl ⟨tokens, rfl, hm fuel hfuel⟩)

theorem yields_exp_name : Yields .exp (.name str :: tokens) (.name str, tokens) := by
  refine .of_succ 0 fun fuel _ => ?_
  rw [parseSym_exp, parseExp_eq_some]
  exact .inr (.inr ⟨str, rfl, rfl⟩)

theorem yields_stmt {r : WorkflowSyntax × List Token}
    (h : Yields (stmtSym tokens.head?) tokens r) : Yields .stmt tokens r := by
  obtain ⟨m, hm⟩ := h
  exact .of_succ m hm

/-! ## First tokens -/

theorem Derives.first_workflow (h : Derives .workflow u t) : ∃ v, u = .kwWorkflow :: v := by
  cases h
  exact ⟨_, rfl⟩

theorem Derives.first_block (h : Derives .block u t) : ∃ v, u = .lbrace :: v := by
  cases h
  exact ⟨_, List.cons_append⟩

theorem Derives.first_ifstmt (h : Derives .ifstmt u t) : ∃ v, u = .kwIf :: v := by
  cases h
  exact ⟨_, rfl⟩

/-- The first token of an expression starts a statement, and none but an expression. -/
theorem Derives.first_exp (h : Derives .exp u t) :
    ∃ first v, u = first :: v ∧ startsStmt first = true ∧ stmtSym (some first) = .exp := by
  cases h with
  | expNot => exact ⟨_, _, rfl, rfl, rfl⟩
  | expParen => exact ⟨_, _, List.cons_append, rfl, rfl⟩
  | expName => exact ⟨_, _, rfl, rfl, rfl⟩

/-- **The first token tells the kind of a statement.** -/
theorem Derives.first_stmt (h : Derives .stmt u t) :
    ∃ first v, u = first :: v ∧ startsStmt first = true ∧ Derives (stmtSym (some first)) u t := by
  cases h with
  | stmtIf h => cases h with | ifstmt hu hv hw => exact ⟨_, _, rfl, rfl, .ifstmt hu hv hw⟩
  | stmtWhile h => cases h with | whilestmt hu hv => exact ⟨_, _, rfl, rfl, .whilestmt hu hv⟩
  | stmtDowhile h => cases h with | dowhilestmt hu hv => exact ⟨_, _, rfl, rfl, .dowhilestmt hu hv⟩
  | stmtReturn h => cases h with | returnstmt => exact ⟨_, _, rfl, rfl, .returnstmt⟩
  | stmtExp h =>
    obtain ⟨first, v, rfl, hstart, hsym⟩ := h.first_exp
    exact ⟨first, v, rfl, hstart, by rwa [hsym]⟩

/-! ## Completeness -/

/-- The parser gets through these tokens and returns the tree, whatever comes after them;
after an `if` that may lack its `else`, and so after a statement, no `else` may come.  In a
list it goes on with what comes after. -/
def Reads (sym : Sym) (u : List Token) (t : WorkflowSyntax) : Prop :=
  match sym with
  | .workflowlist => ∃ child, t = stmtList child ∧ ∀ tokens l,
      Yields .workflowlist tokens (stmtList l, []) →
        Yields .workflowlist (u ++ tokens) (stmtList (child ++ l), [])
  | .stmtlist => ∃ child, t = stmtList child ∧ ∀ tokens l rest, tokens.head? ≠ some .kwElse →
      Yields .stmtlist tokens (stmtList l, rest) →
        Yields .stmtlist (u ++ tokens) (stmtList (child ++ l), rest)
  | .stmt | .ifstmt | .elsestmt =>
      ∀ rest, rest.head? ≠ some .kwElse → Yields sym (u ++ rest) (t, rest)
  | _ => ∀ rest, Yields sym (u ++ rest) (t, rest)

/-- **What is derived the parser returns.** -/
theorem reads_of_derives (h : Derives sym u t) : Reads sym u t := by
  induction h with
  | workflowlistEmpty => exact ⟨[], rfl, fun tokens l h => h⟩
  | @workflowlistAdd u v root w _ hw ihl ihw =>
    obtain ⟨child, rfl, hread⟩ := ihl
    refine ⟨child ++ [w], rfl, fun tokens l hl => ?_⟩
    rw [List.append_assoc, List.append_assoc]
    refine hread (v ++ tokens) (w :: l) (yields_workflowlist_cons ?_ (ihw tokens) hl)
    obtain ⟨v, rfl⟩ := hw.first_workflow
    simp
  | workflow _ ih => exact fun rest => yields_workflow (ih rest)
  | block _ ih =>
    obtain ⟨child, rfl, hread⟩ := ih
    intro rest
    have hend : Yields .stmtlist (.rbrace :: rest) (stmtList [], .rbrace :: rest) :=
      yields_stmtlist_nil rfl
    have hlist := hread (.rbrace :: rest) [] (.rbrace :: rest) (by simp [Token.rbrace]) hend
    rw [List.append_nil] at hlist
    rw [List.append_assoc]
    exact yields_block hlist
  | stmtlistEmpty => exact ⟨[], rfl, fun tokens l rest _ h => h⟩
  | @stmtlistAdd u v _ s _ hs ihl ihs =>
    obtain ⟨child, rfl, hread⟩ := ihl
    refine ⟨child ++ [s], rfl, fun tokens l rest hfollow hl => ?_⟩
    obtain ⟨first, v, rfl, hstart, _⟩ := hs.first_stmt
    rw [List.append_assoc, List.append_assoc]
    refine hread _ (s :: l) rest ?_ (yields_stmtlist_cons hstart (ihs tokens hfollow) hl)
    rintro ⟨⟩
    exact absurd hstart (by decide)
  | stmtIf h ih =>
    obtain ⟨v, rfl⟩ := h.first_ifstmt
    exact fun rest hfollow => yields_stmt (ih rest hfollow)
  | stmtWhile h ih | stmtDowhile h ih | stmtReturn h ih =>
    cases h
    exact fun rest _ => yields_stmt (ih rest)
  | stmtExp h ih =>
    obtain ⟨first, v, rfl, _, hsym⟩ := h.first_exp
    refine fun rest _ => yields_stmt ?_
    rw [List.cons_append, List.head?_cons, hsym]
    exact ih rest
  | ifstmt _ hb _ ihc ihb ihe =>
    intro rest hfollow
    rw [List.cons_append, List.append_assoc, List.append_assoc]
    exact yields_ifstmt (ihc _) (ihb _) (ihe rest hfollow)
  | elseEmpty => exact fun rest hfollow => yields_elsestmt_empty hfollow
  | elseBlock h ih =>
    obtain ⟨v, rfl⟩ := h.first_block
    exact fun rest _ => yields_elsestmt_block (ih rest)
  | elseIf h ih =>
    obtain ⟨v, rfl⟩ := h.first_ifstmt
    exact fun rest hfollow => yields_elsestmt_if (ih rest hfollow)
  | whilestmt _ _ ihc ihb =>
    intro rest
    rw [List.cons_append, List.append_assoc]
    exact yields_whilestmt (ihc _) (ihb rest)
  | dowhilestmt _ _ ihb ihc =>
    intro rest
    rw [List.cons_append, List.append_assoc]
    exact yields_dowhilestmt (ihb _) (ihc rest)
  | returnstmt => exact fun rest => yields_returnstmt
  | expNot _ ih => exact fun rest => yields_exp_not (ih rest)
  | expParen _ ih =>
    intro rest
    rw [List.append_assoc]
    exact yields_exp_paren (ih _)
  | expName => exact fun rest => yields_exp_name

/-! ## Whole files -/

/-- The parser returns the tree of a whole file. -/
theorem Derives.yields (h : Derives .workflowlist u t) : Yields .workflowlist u (t, []) := by
  obtain ⟨child, rfl, hread⟩ := reads_of_derives h
  simpa using hread [] [] yields_workflowlist_nil

/-- **The grammar and the parser agree.** -/
theorem derives_iff_parse :
    Derives .workflowlist u t ↔ ∃ fuel, parse fuel .workflowlist u = some (t, []) := by
  constructor
  · intro h
    obtain ⟨least, hleast⟩ := h.yields
    exact ⟨least, hleast least (Nat.le_refl _)⟩
  · rintro ⟨fuel, h⟩
    obtain ⟨v, rfl, hv⟩ := sound_parse fuel h
    rwa [List.append_nil]

/-- **The grammar is not ambiguous.** -/
theorem Derives.unique (h : Derives .workflowlist u s) (h' : Derives .workflowlist u t) :
    s = t := by
  obtain ⟨m, hm⟩ := h.yields
  obtain ⟨n, hn⟩ := h'.yields
  have heq := (hm (max m n) (by omega)).symm.trans (hn (max m n) (by omega))
  simpa using heq

end Complete

end Rtp.Workflow
