import Rtp.Workflow.Grammar

/-!
# Printing a workflow and parsing it again

The model of `workflow_syntax_print_node`, run against the lexer and the grammar.  What is
printed of a workflow is parsed to the same tree.  But the tree of a file is the list of its
workflows, and a list is printed in braces, which a file does not have around it.

* `print` — the printer.
* `Parses` — a text is parsed to the tree of a file.
* `printed` — what is printed of a tree that stands for a nonterminal.
* `printed_derives` — **what is printed has tokens from which the tree is derived**, for
  every nonterminal.
* `parse_print` — the workflows of a file, printed one after the other or each by itself,
  are parsed to the same trees; the tree of the file, printed, is not parsed at all.
* `print_root` — a file with one workflow.
-/

namespace Rtp.Workflow

open WorkflowSyntax

namespace WorkflowSyntax

/-- The characters of a text. -/
@[irreducible]
def chars (text : String) : List Char := text.toList

/-- `workflow_syntax_print_node`. -/
def print : WorkflowSyntax → List Char
  | emptyStmt => []
  | name str => str.toList ++ ['\n']
  | workflow n b => chars "workflow " ++ (n.print ++ b.print)
  | stmtList child => chars "\x7b\n" ++ (printList child ++ chars "\x7d\n")
  | ifStmt condition thenBlock elseBlock =>
    chars "if " ++ (condition.print ++ (thenBlock.print ++
      if elseBlock.isEmpty then [] else chars "else\n" ++ elseBlock.print))
  | whileStmt condition block => chars "while " ++ (condition.print ++ block.print)
  | doWhileStmt block condition =>
    chars "do " ++ (block.print ++ (chars "while " ++ condition.print))
  | returnStmt => chars "return\n"
  | unopExp .not left => '!' :: left.print
where
  /-- The statements of a list. -/
  printList : List WorkflowSyntax → List Char
    | [] => []
    | s :: child => s.print ++ printList child

end WorkflowSyntax

/-- A text is parsed to the tree of a file. -/
def Parses (text : List Char) (root : WorkflowSyntax) : Prop :=
  ∃ tokens, lex text = some tokens ∧ Derives .workflowlist tokens root

/-- What is printed of a tree that stands for a nonterminal: of a list what is between the
braces, of the `else` part with the keyword, if it is there. -/
def printed (sym : Sym) (t : WorkflowSyntax) : List Char :=
  match sym with
  | .workflowlist | .stmtlist => print.printList t.children
  | .elsestmt => if t.isEmpty then [] else chars "else\n" ++ t.print
  | _ => t.print

/-! ## The tokens of what is printed -/

/-- A keyword and the space after it. -/
theorem lexes_chars {p : String × Token} {c : Char} {text : String} (hp : p ∈ keywords)
    (hc : isSpace c = true) (htext : text.toList = p.1.toList ++ [c]) :
    Lexes (chars text) [p.2] := by
  rw [chars, htext]
  exact lexes_keyword hp hc

theorem lexes_if : Lexes (chars "if ") [.kwIf] :=
  lexes_chars (p := ("if", .kwIf)) (c := ' ') (by decide) (by decide) rfl

theorem lexes_else : Lexes (chars "else\n") [.kwElse] :=
  lexes_chars (p := ("else", .kwElse)) (c := '\n') (by decide) (by decide) rfl

theorem lexes_do : Lexes (chars "do ") [.kwDo] :=
  lexes_chars (p := ("do", .kwDo)) (c := ' ') (by decide) (by decide) rfl

theorem lexes_while : Lexes (chars "while ") [.kwWhile] :=
  lexes_chars (p := ("while", .kwWhile)) (c := ' ') (by decide) (by decide) rfl

theorem lexes_workflow : Lexes (chars "workflow ") [.kwWorkflow] :=
  lexes_chars (p := ("workflow", .kwWorkflow)) (c := ' ') (by decide) (by decide) rfl

theorem lexes_return : Lexes (chars "return\n") [.kwReturn] :=
  lexes_chars (p := ("return", .kwReturn)) (c := '\n') (by decide) (by decide) rfl

/-- A character that stands for itself, and the end of the line. -/
theorem lexes_line {c : Char} {text : String} (hword : isWordChar c = false)
    (hspace : isSpace c = false) (hcode : 0 < c.toNat ∧ c.toNat < 128)
    (htext : text.toList = [c] ++ ['\n']) : Lexes (chars text) [.char c] := by
  rw [chars, htext]
  exact (lexes_char hword hspace hcode).append (lexes_space (by decide))

theorem lexes_lbrace : Lexes (chars "\x7b\n") [.lbrace] :=
  lexes_line (by decide) (by decide) (by decide) rfl

theorem lexes_rbrace : Lexes (chars "\x7d\n") [.rbrace] :=
  lexes_line (by decide) (by decide) (by decide) rfl

theorem lexes_bang : Lexes ['!'] [.bang] :=
  lexes_char (by decide) (by decide) (by decide)

/-! ## What is printed, rule by rule -/

section Printed

variable (str : String) (c b e t : WorkflowSyntax) (child : List WorkflowSyntax)

theorem printed_workflow :
    printed .workflow (.workflow (.name str) b) =
      chars "workflow " ++ ((str.toList ++ ['\n']) ++ printed .block b) := rfl

theorem printed_block :
    printed .block (stmtList child) =
      chars "\x7b\n" ++ (printed .stmtlist (stmtList child) ++ chars "\x7d\n") := rfl

theorem printed_ifstmt :
    printed .ifstmt (.ifStmt c b e) =
      chars "if " ++ (printed .exp c ++ (printed .block b ++ printed .elsestmt e)) := rfl

theorem printed_elsestmt (h : t.isEmpty = false) :
    printed .elsestmt t = chars "else\n" ++ t.print := by
  simp only [printed, h, Bool.false_eq_true, if_false]

theorem printed_whilestmt :
    printed .whilestmt (.whileStmt c b) =
      chars "while " ++ (printed .exp c ++ printed .block b) := rfl

theorem printed_dowhilestmt :
    printed .dowhilestmt (.doWhileStmt b c) =
      chars "do " ++ (printed .block b ++ (chars "while " ++ printed .exp c)) := rfl

theorem printed_not : printed .exp (.unopExp .not e) = ['!'] ++ printed .exp e := rfl

theorem printList_cons (s : WorkflowSyntax) :
    print.printList (s :: child) = s.print ++ print.printList child := rfl

/-- A list with one more entry. -/
theorem printList_concat :
    print.printList (child ++ [t]) = print.printList child ++ t.print := by
  induction child with
  | nil => exact List.append_nil _
  | cons s child ih => rw [List.cons_append, printList_cons, printList_cons, ih, List.append_assoc]

end Printed

/-- **What is printed has tokens from which the tree is derived**: those of the tree, in
the order of the grammar, without parentheses. -/
theorem printed_derives {sym : Sym} {u : List Token} {t : WorkflowSyntax} (h : Derives sym u t)
    (hname : ∀ str, Token.name str ∈ u → IsName str) :
    ∃ v, Lexes (printed sym t) v ∧ Derives sym v t := by
  induction h with
  | workflowlistEmpty => exact ⟨[], Lexes.nil, .workflowlistEmpty⟩
  | workflowlistAdd hl _ ihl ihw =>
    obtain ⟨child, rfl, _⟩ := reads_of_derives hl
    obtain ⟨u', hu, hdu⟩ := ihl fun str hmem => hname str (by simp [hmem])
    obtain ⟨v', hv, hdv⟩ := ihw fun str hmem => hname str (by simp [hmem])
    refine ⟨u' ++ v', ?_, .workflowlistAdd hdu hdv⟩
    rw [printed, addStmt, children, printList_concat]
    exact hu.append hv
  | @workflow str u b _ ih =>
    obtain ⟨u', hu, hdu⟩ := ih fun str hmem => hname str (by simp [hmem])
    have hstr := lexes_name (c := '\n') (hname str (by simp)) (by decide)
    refine ⟨[.kwWorkflow] ++ ([.name str] ++ u'), ?_, .workflow hdu⟩
    rw [printed_workflow]
    exact lexes_workflow.append (hstr.append hu)
  | block hl ih =>
    obtain ⟨child, rfl, _⟩ := reads_of_derives hl
    obtain ⟨u', hu, hdu⟩ := ih fun str hmem => hname str (by simp [hmem])
    refine ⟨[.lbrace] ++ (u' ++ [.rbrace]), ?_, .block hdu⟩
    rw [printed_block]
    exact lexes_lbrace.append (hu.append lexes_rbrace)
  | stmtlistEmpty => exact ⟨[], Lexes.nil, .stmtlistEmpty⟩
  | stmtlistAdd hl _ ihl ihs =>
    obtain ⟨child, rfl, _⟩ := reads_of_derives hl
    obtain ⟨u', hu, hdu⟩ := ihl fun str hmem => hname str (by simp [hmem])
    obtain ⟨v', hv, hdv⟩ := ihs fun str hmem => hname str (by simp [hmem])
    refine ⟨u' ++ v', ?_, .stmtlistAdd hdu hdv⟩
    rw [printed, addStmt, children, printList_concat]
    exact hu.append hv
  | stmtIf _ ih =>
    obtain ⟨u', hu, hdu⟩ := ih hname
    exact ⟨u', hu, .stmtIf hdu⟩
  | stmtWhile _ ih =>
    obtain ⟨u', hu, hdu⟩ := ih hname
    exact ⟨u', hu, .stmtWhile hdu⟩
  | stmtDowhile _ ih =>
    obtain ⟨u', hu, hdu⟩ := ih hname
    exact ⟨u', hu, .stmtDowhile hdu⟩
  | stmtReturn _ ih =>
    obtain ⟨u', hu, hdu⟩ := ih hname
    exact ⟨u', hu, .stmtReturn hdu⟩
  | stmtExp _ ih =>
    obtain ⟨u', hu, hdu⟩ := ih hname
    exact ⟨u', hu, .stmtExp hdu⟩
  | ifstmt _ _ _ ihc ihb ihe =>
    obtain ⟨u', hu, hdu⟩ := ihc fun str hmem => hname str (by simp [hmem])
    obtain ⟨v', hv, hdv⟩ := ihb fun str hmem => hname str (by simp [hmem])
    obtain ⟨w', hw, hdw⟩ := ihe fun str hmem => hname str (by simp [hmem])
    refine ⟨[.kwIf] ++ (u' ++ (v' ++ w')), ?_, .ifstmt hdu hdv hdw⟩
    rw [printed_ifstmt]
    exact lexes_if.append (hu.append (hv.append hw))
  | elseEmpty => exact ⟨[], Lexes.nil, .elseEmpty⟩
  | elseBlock hb ih =>
    obtain ⟨u', hu, hdu⟩ := ih fun str hmem => hname str (by simp [hmem])
    refine ⟨[.kwElse] ++ u', ?_, .elseBlock hdu⟩
    cases hb with
    | block hl =>
      obtain ⟨child, rfl, _⟩ := reads_of_derives hl
      rw [printed_elsestmt _ rfl]
      exact lexes_else.append hu
  | elseIf hs ih =>
    obtain ⟨u', hu, hdu⟩ := ih fun str hmem => hname str (by simp [hmem])
    refine ⟨[.kwElse] ++ u', ?_, .elseIf hdu⟩
    cases hs with
    | ifstmt =>
      rw [printed_elsestmt _ rfl]
      exact lexes_else.append hu
  | whilestmt _ _ ihc ihb =>
    obtain ⟨u', hu, hdu⟩ := ihc fun str hmem => hname str (by simp [hmem])
    obtain ⟨v', hv, hdv⟩ := ihb fun str hmem => hname str (by simp [hmem])
    refine ⟨[.kwWhile] ++ (u' ++ v'), ?_, .whilestmt hdu hdv⟩
    rw [printed_whilestmt]
    exact lexes_while.append (hu.append hv)
  | dowhilestmt _ _ ihb ihc =>
    obtain ⟨u', hu, hdu⟩ := ihb fun str hmem => hname str (by simp [hmem])
    obtain ⟨v', hv, hdv⟩ := ihc fun str hmem => hname str (by simp [hmem])
    refine ⟨[.kwDo] ++ (u' ++ ([.kwWhile] ++ v')), ?_, .dowhilestmt hdu hdv⟩
    rw [printed_dowhilestmt]
    exact lexes_do.append (hu.append (lexes_while.append hv))
  | returnstmt => exact ⟨[.kwReturn], lexes_return, .returnstmt⟩
  | expNot _ ih =>
    obtain ⟨u', hu, hdu⟩ := ih fun str hmem => hname str (by simp [hmem])
    refine ⟨[.bang] ++ u', ?_, .expNot hdu⟩
    rw [printed_not]
    exact lexes_bang.append hu
  | expParen _ ih => exact ih fun str hmem => hname str (by simp [hmem])
  | @expName str =>
    exact ⟨[.name str], lexes_name (hname str (by simp)) (by decide), .expName⟩

/-! ## Parsing what was printed -/

section Parse

variable {text : List Char} {u v : List Token} {root : WorkflowSyntax}

theorem printList_eq_flatMap (child : List WorkflowSyntax) :
    print.printList child = child.flatMap print := by
  induction child with
  | nil => rfl
  | cons s child ih => rw [printList_cons, List.flatMap_cons, ih]

/-- Every workflow of a file is derived from tokens of the file. -/
theorem Derives.exists_of_mem (h : Derives .workflowlist u root) :
    ∀ w ∈ root.children, ∃ v, v ⊆ u ∧ Derives .workflow v w := by
  generalize hsym : Sym.workflowlist = sym at h
  induction h with
  | workflowlistEmpty => simp [children]
  | workflowlistAdd hl hw ih _ =>
    obtain ⟨child, rfl, _⟩ := reads_of_derives hl
    intro w hmem
    rcases List.mem_append.mp hmem with hmem | hmem
    · obtain ⟨v, hv, hd⟩ := ih rfl w hmem
      exact ⟨v, fun t ht => List.mem_append_left _ (hv ht), hd⟩
    · rw [List.mem_singleton.mp hmem]
      exact ⟨_, List.subset_append_right _ _, hw⟩
  | _ => cases hsym

/-- A file starts with a workflow. -/
theorem Derives.first_workflowlist (h : Derives .workflowlist u root) :
    u = [] ∨ ∃ v, u = .kwWorkflow :: v := by
  generalize hsym : Sym.workflowlist = sym at h
  induction h with
  | workflowlistEmpty => exact .inl rfl
  | workflowlistAdd _ hw ih _ =>
    right
    obtain ⟨v, rfl⟩ := hw.first_workflow
    rcases ih rfl with rfl | ⟨w, rfl⟩
    · exact ⟨v, rfl⟩
    · exact ⟨_, List.cons_append⟩
  | _ => cases hsym

/-- A text whose tokens are derived is parsed in one way. -/
theorem parses_iff (hlex : Lexes text v) (hd : Derives .workflowlist v root)
    (root' : WorkflowSyntax) : Parses text root' ↔ root' = root := by
  constructor
  · rintro ⟨tokens, htokens, hd'⟩
    obtain rfl : v = tokens := Option.some.inj (hlex.lex_eq.symm.trans htokens)
    exact hd'.unique hd
  · rintro rfl
    exact ⟨v, hlex.lex_eq, hd⟩

/-- What is printed of the tree of a file starts with a brace. -/
theorem not_parses_print (h : Parses text root) (root' : WorkflowSyntax) :
    ¬ Parses root.print root' := by
  obtain ⟨tokens, htokens, hd⟩ := h
  obtain ⟨workflows, rfl, _⟩ := reads_of_derives hd
  obtain ⟨v, hv, _⟩ := printed_derives hd fun str => isName_of_mem_lex htokens
  have hlex : Lexes (stmtList workflows).print ([.lbrace] ++ (v ++ [.rbrace])) := by
    exact lexes_lbrace.append (hv.append lexes_rbrace)
  rintro ⟨tokens', htokens', hd'⟩
  obtain rfl := Option.some.inj (hlex.lex_eq.symm.trans htokens')
  rcases hd'.first_workflowlist with hnil | ⟨w, hw⟩
  · simp at hnil
  · exact absurd (List.cons.inj hw).1 (by decide)

/-- **Printing and parsing again.**  Take any text that is parsed, to the list of its
workflows.  The workflows printed one after the other are parsed to that list and to
nothing else, and so is each of them by itself.  But the list, as `workflow_syntax_print_node`
prints it, is not parsed at all. -/
theorem parse_print (h : Parses text root) :
    ∃ workflows, root = stmtList workflows ∧
      (∀ root', Parses (workflows.flatMap print) root' ↔ root' = root) ∧
      (∀ w ∈ workflows, ∀ root', Parses w.print root' ↔ root' = stmtList [w]) ∧
      ∀ root', ¬ Parses root.print root' := by
  have hnot := not_parses_print h
  obtain ⟨tokens, htokens, hd⟩ := h
  have hname : ∀ str, Token.name str ∈ tokens → IsName str := fun str => isName_of_mem_lex htokens
  obtain ⟨workflows, rfl, _⟩ := reads_of_derives hd
  refine ⟨workflows, rfl, ?_, fun w hw => ?_, hnot⟩
  · obtain ⟨v, hv, hdv⟩ := printed_derives hd hname
    rw [printed, children, printList_eq_flatMap] at hv
    exact parses_iff hv hdv
  · obtain ⟨u, hu, hdw⟩ := hd.exists_of_mem w hw
    obtain ⟨v, hv, hdv⟩ := printed_derives hdw fun str hmem => hname str (hu hmem)
    have hdroot : Derives .workflowlist v (stmtList [w]) := .workflowlistAdd .workflowlistEmpty hdv
    exact parses_iff hv hdroot

end Parse

/-- A file with one workflow that calls one handler. -/
def oneWorkflow : List Char := "workflow w\x7ba\x7d".toList

/-- Its tree. -/
def oneRoot : WorkflowSyntax := stmtList [.workflow (.name "w") (stmtList [.name "a"])]

theorem parses_oneWorkflow : Parses oneWorkflow oneRoot := by
  refine ⟨[.kwWorkflow, .name "w", .lbrace, .name "a", .rbrace], by decide +kernel, ?_⟩
  exact derives_iff_parse.mpr ⟨10, rfl⟩

/-- A file with statements inside of statements. -/
def nestedWorkflow : List Char :=
  ("workflow w\x7bif !a\x7bif b\x7bc\x7d\x7delse if(d)\x7bwhile !(!e)\x7bf\x7d\x7d" ++
    "else\x7breturn\x7d\x7d").toList

/-- Its workflow. -/
def nested : WorkflowSyntax :=
  .workflow (.name "w") (stmtList [.ifStmt (.unopExp .not (.name "a"))
    (stmtList [.ifStmt (.name "b") (stmtList [.name "c"]) .emptyStmt])
    (.ifStmt (.name "d") (stmtList [.whileStmt (.unopExp .not (.unopExp .not (.name "e")))
      (stmtList [.name "f"])]) (stmtList [.returnStmt]))])

theorem parse_print_nested : Parses nestedWorkflow (stmtList [nested]) ∧
    ∀ root', Parses nested.print root' ↔ root' = stmtList [nested] := by
  have h : Parses nestedWorkflow (stmtList [nested]) := by
    refine ⟨[.kwWorkflow, .name "w", .lbrace, .kwIf, .bang, .name "a", .lbrace, .kwIf, .name "b",
      .lbrace, .name "c", .rbrace, .rbrace, .kwElse, .kwIf, .lparen, .name "d", .rparen, .lbrace,
      .kwWhile, .bang, .lparen, .bang, .name "e", .rparen, .lbrace, .name "f", .rbrace, .rbrace,
      .kwElse, .lbrace, .kwReturn, .rbrace, .rbrace], by decide +kernel, ?_⟩
    exact derives_iff_parse.mpr ⟨20, rfl⟩
  obtain ⟨workflows, hroot, -, heach, -⟩ := parse_print h
  obtain rfl : [nested] = workflows := by simpa using hroot
  exact ⟨h, heach nested List.mem_cons_self⟩

/-- The tree of the file is printed with braces around the workflow, and that is not the
text of a file. -/
theorem print_root :
    Parses oneWorkflow oneRoot ∧
      oneRoot.print = "\x7b\nworkflow w\n\x7b\na\n\x7d\n\x7d\n".toList ∧
      ∀ root', ¬ Parses oneRoot.print root' :=
  ⟨parses_oneWorkflow, by decide +kernel, not_parses_print parses_oneWorkflow⟩

end Rtp.Workflow
