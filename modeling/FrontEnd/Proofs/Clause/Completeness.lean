import FrontEnd.Proofs.Clause.Basic
import FrontEnd.Proofs.Phrase.Completeness
import FrontEnd.Proofs.Running

/-!
What the grammar of statements derives is read back without a fault: a statement, a block or a
whole file, with tokens behind it that cannot carry it on, is read off as its own tree.
-/

set_option autoImplicit false

namespace FrontEnd.Grammar

open Phrase

/-! ### Parts of statements -/

theorem terminated_gives {α : Type} {n : Nat} {p : Parsed α n} {value : α} {s : Token}
    {rest : List Token} (h : p.Gives value (s :: rest)) (hs : s.kind = .semicolon) :
    (terminated p).Gives value rest :=
  h.chain fun _ => (expect_cons hs rest).map _

/-- An expression is read up to a token that is no operator. -/
theorem Derives.assignment_gives {w : List Token} {e : Expr} (h : Derives .assignment w e)
    (t : Token) (rest : List Token) (ht : t.kind ∉ expressionExtensions) :
    (assignment (w ++ t :: rest)).Gives e (t :: rest) := h.isRead _ ht

theorem Typed.gives {w : List Token} {name : String} {t : TypeExpr} (h : Typed w name t)
    {rest : List Token} (hr : headKind rest ≠ .scopeResolution) :
    (typed (w ++ rest)).Gives (name, t) rest := by
  cases h with
  | mk hn hc ht =>
    exact (expect_cons hn _).chain fun _ => (expect_cons hc _).chain fun _ =>
      (ht.isRead rest hr).map _

theorem Typed.headKind {w : List Token} {name : String} {t : TypeExpr} (h : Typed w name t) :
    headKind w = .identifier := by
  cases h
  assumption

theorem Initializer.gives {w : List Token} {i : Option Expr} (h : Initializer w i) {s : Token}
    {rest : List Token} (hs : s.kind = .semicolon) :
    (initializer (w ++ s :: rest)).Gives i (s :: rest) := by
  cases h with
  | absent => simp [initializer, accept?_cons, hs, Parsed.Gives]
  | present ho he =>
    have hr : (assignment (_ ++ s :: rest)).Gives _ _ :=
      he.assignment_gives s rest (by rw [hs]; decide)
    simp only [List.cons_append, initializer, accept?_cons, ho, List.mem_singleton, if_true,
      Parsed.Gives, Parsed.result_loose, Front.result_chain]
    exact hr.map _

theorem Fields.gives {w : List Token} {fs : List Field} (h : Fields w fs) {c : Token}
    (hc : c.kind = .rBrace) (rest : List Token) : (fields (w ++ c :: rest)).Gives fs rest := by
  induction h with
  | nil =>
    rw [fields]
    simp [accept?_cons, hc, Parsed.Gives]
  | @cons w v s name t fs hw hs _ ih =>
    have hk : headKind (w ++ s :: (v ++ c :: rest)) = .identifier := by
      rw [headKind_append _ (by simp [hw.headKind]), hw.headKind]
    have ht : (typed (w ++ s :: (v ++ c :: rest))).Gives (name, t) _ := hw.gives (by simp [hs])
    rw [List.append_assoc, List.cons_append, fields, accept?_eq_none (by simp [hk])]
    simp only [hk, reduceCtorEq, if_false]
    exact (terminated_gives ht hs).chain fun _ => ih.map _

theorem memberNumber_gives {i : Token} {value : Int64} (hi : i.kind = .integer)
    (hv : Number.int64? i.value = some value) (rest : List Token) :
    (memberNumber (i :: rest)).Gives value rest := by
  have h := expect_cons hi rest
  unfold memberNumber
  cases he : expect .integer (i :: rest) with
  | failed failure rest' within => simp [he, Parsed.Gives] at h
  | done t rest' shorter =>
    simp only [he, Parsed.Gives, Parsed.result_done, Prod.mk.injEq, Except.ok.injEq] at h
    obtain ⟨rfl, rfl⟩ := h
    simp [hv, Parsed.Gives]

/-- A member is a name and what its value is read from. -/
theorem Member.gives {next : Int64} {w : List Token} {m : EnumMember} (h : Member next w m) :
    ∃ n v, w = n :: v ∧ n.kind = .identifier ∧ n.value = m.name ∧
      ∀ rest, headKind rest ≠ .equals → (memberValue next (v ++ rest)).Gives m.value rest := by
  cases h with
  | counted hn =>
    refine ⟨_, [], rfl, hn, rfl, fun rest hr => ?_⟩
    simp [memberValue, accept?_eq_none, hr, Parsed.Gives]
  | valued hn ho hi hv =>
    refine ⟨_, [_, _], rfl, hn, rfl, fun rest _ => ?_⟩
    simp only [List.cons_append, List.nil_append, memberValue, accept?_cons, ho,
      List.mem_singleton, if_true, Parsed.Gives, Parsed.result_loose, Front.result_chain]
    exact memberNumber_gives hi hv rest

theorem Members.gives {next : Int64} {w : List Token} {ms : List EnumMember}
    (h : Members next w ms) {c : Token} (hc : c.kind = .rBrace) (rest : List Token) :
    (members next (w ++ c :: rest)).Gives ms (c :: rest) := by
  induction h with
  | nil =>
    rw [members]
    simp [hc, Parsed.Gives]
  | last hm =>
    obtain ⟨n, v, rfl, hn, hv, hg⟩ := hm.gives
    rw [members]
    simp only [List.cons_append, headKind_cons, hn, reduceCtorEq, if_false, Parsed.Gives,
      Parsed.result_loose]
    refine (expect_cons hn _).andThen fun _ => (hg (c :: rest) (by simp [hc])).andThen fun _ => ?_
    simp [accept?_cons, hc, Parsed.Gives, hv]
  | more hm ho _ ih =>
    obtain ⟨n, v, rfl, hn, hv, hg⟩ := hm.gives
    rw [List.append_assoc, List.cons_append, List.cons_append, members]
    simp only [headKind_cons, hn, reduceCtorEq, if_false, Parsed.Gives, Parsed.result_loose]
    refine (expect_cons hn _).andThen fun _ => (hg _ (by simp [ho])).andThen fun _ => ?_
    simp only [accept?_cons, ho, List.mem_singleton, if_true, Parsed.Gives, Parsed.result_loose,
      Front.result_andThen, hv]
    exact ih.map _

theorem LocalName.gives {w : List Token} {a : Option String} (h : LocalName w a) {s : Token}
    {rest : List Token} (hs : s.kind = .semicolon) :
    (localName (w ++ s :: rest)).Gives a (s :: rest) := by
  cases h with
  | absent => simp [localName, accept?_cons, hs, Parsed.Gives]
  | present hk hn =>
    simp only [List.cons_append, List.nil_append, localName, accept?_cons, hk, List.mem_singleton,
      if_true, Parsed.Gives, Parsed.result_loose, Front.result_chain]
    exact (expect_cons hn _).map _

theorem operations_gives {w : List Token} (h : ∀ t ∈ w, t.kind = .string) {c : Token}
    (hc : c.kind = .rBrace) (rest : List Token) :
    (operations (w ++ c :: rest)).Gives (w.map (·.value)) rest := by
  induction w with
  | nil =>
    rw [List.nil_append, operations, accept?_eq_none (by simp [hc])]
    exact (expect_cons hc rest).map _
  | cons t w ih =>
    have ht := h t (List.mem_cons_self ..)
    rw [List.cons_append, operations]
    simp only [accept?_cons, ht, List.mem_singleton, if_true, Parsed.Gives, Front.result_chain]
    exact (ih fun u hu => h u (List.mem_cons_of_mem _ hu)).map _

/-! ### Signatures -/

theorem Parameter.gives {w : List Token} {p : Param} (h : Parameter w p) {rest : List Token}
    (hr : headKind rest ≠ .scopeResolution) : (param (w ++ rest)).Gives p rest := by
  cases h with
  | @constant n c w t hn hc ht =>
    have hk : headKind (w ++ rest) ∉ [.kwVar] := by
      have hd : ∀ kind ∈ Phrase.typeExpr.starts, kind ∉ [.kwVar] := by decide
      exact hd _ (headKind_append_mem_starts (by simp) rest ht.headKind_mem_starts)
    have hm : (variableMark (w ++ rest)).Gives false (w ++ rest) := by
      simp only [variableMark, accept?_eq_none hk]
      rfl
    exact (expect_cons hn _).chain fun _ => (expect_cons hc _).andThen fun _ =>
      hm.chain fun _ => (ht.isRead rest hr).map _
  | @marked n c k w t hn hc hk ht =>
    have hm : (variableMark (k :: (w ++ rest))).Gives true (w ++ rest) := by
      simp [variableMark, accept?_cons, hk, Parsed.Gives]
    exact (expect_cons hn _).chain fun _ => (expect_cons hc _).andThen fun _ =>
      hm.chain fun _ => (ht.isRead rest hr).map _

theorem Parameter.headKind {w : List Token} {p : Param} (h : Parameter w p) :
    headKind w = .identifier := by
  cases h <;> assumption

theorem Parameters.headKind {w : List Token} {ps : List Param} (h : Parameters w ps) :
    headKind w = .identifier := by
  cases h with
  | last h => exact h.headKind
  | more h => rw [headKind_append _ (by simp [h.headKind]), h.headKind]

theorem Parameters.gives {w : List Token} {ps : List Param} (h : Parameters w ps)
    {rest : List Token} (hr : Grammar.headKind rest ∉ [.comma, .scopeResolution]) :
    (params (w ++ rest)).Gives ps rest := by
  simp only [List.mem_cons, List.not_mem_nil, or_false, not_or] at hr
  induction h with
  | last hp =>
    rw [params]
    refine (hp.gives hr.2).andThen fun _ => ?_
    simp [accept?_eq_none, hr.1, Parsed.Gives]
  | more hp ho _ ih =>
    rw [params, List.append_assoc, List.cons_append]
    refine (hp.gives (by simp [ho])).andThen fun _ => ?_
    simp only [accept?_cons, ho, List.mem_singleton, if_true, Parsed.Gives, Parsed.result_loose,
      Front.result_chain]
    exact ih.map _

theorem ParameterList.gives {w : List Token} {ps : List Param} (h : ParameterList w ps) {c : Token}
    (hc : c.kind = .rParen) (rest : List Token) : (paramList (w ++ c :: rest)).Gives ps rest := by
  cases h with
  | nil => simp [paramList, accept?_cons, hc, Parsed.Gives]
  | some h =>
    have hk : headKind (w ++ c :: rest) ∉ [.rParen] := by
      simp [headKind_append _ (show headKind w ≠ .eof by simp [h.headKind]), h.headKind]
    rw [paramList, accept?_eq_none hk]
    exact (h.gives (by simp [hc])).chain fun _ => (expect_cons hc rest).map _

theorem ResultType.gives {w : List Token} {t : TypeExpr} (h : ResultType w t) {rest : List Token}
    (hr : headKind rest = .lBrace) : (resultType (w ++ rest)).Gives t rest := by
  cases h with
  | void => simp [resultType, accept?_eq_none, hr, Parsed.Gives]
  | some ho ht =>
    simp only [List.cons_append, resultType, accept?_cons, ho, List.mem_singleton, if_true,
      Parsed.Gives, Parsed.result_loose, Front.result_chain]
    exact ht.isRead rest (by simp [hr])

theorem OwnedName.gives {w : List Token} {owner : Option String} {name : String}
    (h : OwnedName w owner name) {rest : List Token} (hr : headKind rest ≠ .scopeResolution) :
    (ownedName (w ++ rest)).Gives (owner, name) rest := by
  cases h with
  | free hn =>
    refine (expect_cons hn _).andThen fun _ => ?_
    simp [accept?_eq_none, hr, Parsed.Gives]
  | owned hn ho hm =>
    rw [List.cons_append, List.cons_append, List.cons_append, List.nil_append]
    refine (expect_cons hn _).andThen fun _ => ?_
    simp only [accept?_cons, ho, List.mem_singleton, if_true,
      Parsed.Gives, Parsed.result_loose, Front.result_chain]
    exact (expect_cons hm _).map _

theorem signature_gives {w v x rest : List Token} {o c : Token} {owner : Option String}
    {name : String} {ps : List Param} {t : TypeExpr} (hw : OwnedName w owner name)
    (ho : o.kind = .lParen) (hv : ParameterList v ps) (hc : c.kind = .rParen)
    (hx : ResultType x t) (hr : headKind rest = .lBrace) :
    (signature (w ++ o :: (v ++ c :: (x ++ rest)))).Gives (.functionDecl owner name ps t) rest :=
  (hw.gives (by simp [ho])).chain fun _ => (expect_cons ho _).chain fun _ =>
    (hv.gives hc _).andThen fun _ => (hx.gives hr).map _

/-! ### The rule of a statement -/

section

variable {rules : RuleTable} {ts : List Token}

theorem statement_of_rule {rule : Rule} (h : rules (headKind ts) = some rule) :
    statement rules ts = .after (.statement ts.head?) (byRule rules rule ts) := by
  rw [statement]
  split <;> simp_all

theorem statement_of_none (h : rules (headKind ts) = none) :
    statement rules ts = .after (.statement ts.head?) (.silent (expressionStmt ts)) := by
  rw [statement]
  split <;> simp_all

theorem program_of_eof (h : headKind (skipSemicolons ts) = .eof) :
    program rules ts = ⟨[], [], skipSemicolons ts⟩ := by
  rw [program, dif_pos h]

theorem program_of_statement (h : headKind (skipSemicolons ts) ≠ .eof) :
    program rules ts =
      let first := (statement rules (skipSemicolons ts)).recover
      let others := program rules first.rest
      ⟨first.statement?.toList ++ others.file, first.events ++ others.events, others.rest⟩ := by
  rw [program, dif_neg h]

end

theorem skipSemicolons_of_ne {ts : List Token} (h : headKind ts ≠ .semicolon) :
    skipSemicolons ts = ts := by
  cases ts with
  | nil => rfl
  | cons t ts => exact if_neg h

/-! ### First tokens of statements -/

theorem Forms.headKind_block {w : List Token} {b : List Stmt} (h : Forms .block w b) :
    headKind w = .lBrace := by
  cases h
  assumption

/-- No statement starts with a token that ends a sequence, parts it or carries an `if` on. -/
theorem Forms.headKind_statement {w : List Token} {s : Stmt} (h : Forms .statement w s) :
    headKind w ∉ [.eof, .semicolon, .rBrace, .kwElse] := by
  cases h with
  | variableDecl hk => simp only [headKind_cons, hk]; split <;> decide
  | @expression s w e he =>
    have hd : ∀ kind ∈ Phrase.assignment.starts,
        kind ∉ [.eof, .semicolon, .rBrace, .kwElse] := by decide
    exact hd _ (headKind_append_mem_starts (by simp) [s] he.headKind_mem_starts)
  | _ => simp_all

theorem Forms.headKind_sequence {w : List Token} {b : List Stmt} (h : Forms .sequence w b) :
    headKind w ≠ .kwElse := by
  cases h with
  | nil => simp
  | stray hs => simp [hs]
  | @cons w v s b hw =>
    have hk := hw.headKind_statement
    simp only [List.mem_cons, List.not_mem_nil, or_false, not_or] at hk
    rw [headKind_append v hk.1]
    exact hk.2.2.2

/-! ### Statements and blocks -/

/-- The tokens `w` are read as `s`, whatever stands behind them that does not carry them on. -/
def Clause.IsRead : (c : Clause) → List Token → c.Tree → Prop
  | .statement, w, s => ∀ rest, headKind rest ≠ .kwElse →
      (Grammar.statement .standard (w ++ rest)).Gives s rest
  | .block, w, b => ∀ rest, (Grammar.block .standard (w ++ rest)).Gives b rest
  | .sequence, w, b =>
      (∀ (c : Token) (rest : List Token), c.kind = .rBrace →
        (blockTail .standard (w ++ c :: rest)).Gives b rest) ∧
      ∀ rest, headKind rest = .eof →
        (program .standard (w ++ rest)).file = b ∧ Clean (program .standard (w ++ rest)).events
  | .otherwise, w, o => ∀ rest, headKind rest ≠ .kwElse →
      ∀ {u v : List Token} {c : Expr} {b : List Stmt}, Derives .assignment u c →
        headKind v = .lBrace → (∀ rest, (Grammar.block .standard (v ++ rest)).Gives b rest) →
        (ifElse .standard (u ++ (v ++ (w ++ rest)))).Gives (c, b, o) rest

/-- A statement is read by the rule of its first token. -/
theorem statement_gives {k : Token} {ts rest : List Token} {s : Stmt} (rule : Rule)
    (hk : RuleTable.standard k.kind = some rule)
    (h : (byRule .standard rule (k :: ts)).Gives s rest) :
    (statement .standard (k :: ts)).Gives s rest := by
  rw [statement_of_rule hk]
  exact h.after _

/-- A statement whose rule reads it without a block. -/
theorem isRead_byRule {k : Token} {w : List Token} {s : Stmt} (rule : Rule)
    (p : (ts : List Token) → Parsed Stmt ts.length) (hk : RuleTable.standard k.kind = some rule)
    (hb : ∀ ts, byRule .standard rule ts = .skipping ts (.silent (p ts.tail)))
    (h : ∀ rest, (p (w ++ rest)).Gives s rest) : Clause.statement.IsRead (k :: w) s := by
  intro rest hr
  apply statement_gives rule hk
  rw [hb]
  exact (Run.gives_silent (h rest)).skipping

/-- Before a block, an expression ends. -/
theorem Derives.gives_before_block {w v : List Token} {e : Expr} (h : Derives .assignment w e)
    (hv : headKind v = .lBrace) (rest : List Token) :
    (assignment (w ++ (v ++ rest))).Gives e (v ++ rest) := by
  apply h.isRead
  rw [headKind_append rest (by simp [hv]), hv]
  decide

theorem isRead_namespaceDecl {k : Token} {w v : List Token} {name : String} {inner : List String}
    {body : List Stmt} (hk : k.kind = .kwNamespace) (hn : Names w name inner)
    (hv : headKind v = .lBrace) (hb : Clause.block.IsRead v body) :
    Clause.statement.IsRead (k :: (w ++ v)) (nested name inner body) := by
  intro rest hr
  have hs : headKind (v ++ rest) ≠ .scopeResolution := by
    simp [headKind_append rest (show headKind v ≠ .eof by simp [hv]), hv]
  rw [List.cons_append, List.append_assoc]
  apply statement_gives .namespaceDecl (by simp [RuleTable.standard, hk])
  rw [byRule, namespaceDecl]
  exact ((Run.gives_silent (path_gives hn _ hs)).chain fun _ => (hb rest).map _).skipping

theorem isRead_functionDecl {k o c : Token} {w v x y : List Token} {owner : Option String}
    {name : String} {ps : List Param} {t : TypeExpr} {body : List Stmt} (hk : k.kind = .kwFunc)
    (hw : OwnedName w owner name) (ho : o.kind = .lParen) (hv : ParameterList v ps)
    (hc : c.kind = .rParen) (hx : ResultType x t) (hy : headKind y = .lBrace)
    (hb : Clause.block.IsRead y body) :
    Clause.statement.IsRead (k :: (w ++ o :: (v ++ c :: (x ++ y))))
      (.functionDecl owner name ps t body) := by
  intro rest hr
  have hts : k :: (w ++ o :: (v ++ c :: (x ++ y))) ++ rest =
      k :: (w ++ o :: (v ++ c :: (x ++ (y ++ rest)))) := by simp
  have hy' : headKind (y ++ rest) = .lBrace := by rw [headKind_append rest (by simp [hy]), hy]
  rw [hts]
  apply statement_gives .functionDecl (by simp [RuleTable.standard, hk])
  rw [byRule, functionDecl]
  exact ((Run.gives_silent (signature_gives hw ho hv hc hx hy')).chain fun _ =>
    (hb rest).map _).skipping

theorem isRead_variableDecl {k s : Token} {constant : Bool} {w v : List Token} {name : String}
    {t : TypeExpr} {i : Option Expr} (hk : k.kind = if constant then .kwLet else .kwVar)
    (hw : Typed w name t) (hv : Initializer v i) (hs : s.kind = .semicolon) :
    Clause.statement.IsRead (k :: (w ++ (v ++ [s]))) (.variableDecl constant name t i) := by
  intro rest hr
  have hts : k :: (w ++ (v ++ [s])) ++ rest = k :: (w ++ (v ++ s :: rest)) := by simp
  have hv' : headKind (v ++ s :: rest) ≠ .scopeResolution := by
    cases hv <;> simp_all
  have hc : (k.kind == .kwLet) = constant := by
    cases constant <;> simp_all
  rw [hts]
  apply statement_gives .variableDecl
  · cases constant <;> simp_all [RuleTable.standard]
  · rw [byRule]
    simp only [headKind_cons, hc]
    exact (Run.gives_silent (terminated_gives
      ((hw.gives hv').andThen fun _ => (hv.gives hs).map _) hs)).skipping

theorem record_gives {n o c : Token} {w : List Token} {fs : List Field}
    (make : String → List Field → Stmt) (hn : n.kind = .identifier) (ho : o.kind = .lBrace)
    (hw : Fields w fs) (hc : c.kind = .rBrace) (rest : List Token) :
    (record make (n :: o :: (w ++ [c] ++ rest))).Gives (make n.value fs) rest := by
  rw [List.append_assoc]
  exact (expect_cons hn _).chain fun _ => (expect_cons ho _).chain fun _ =>
    (hw.gives hc rest).map _

theorem enumDecl_gives {n o c : Token} {w : List Token} {ms : List EnumMember}
    (hn : n.kind = .identifier) (ho : o.kind = .lBrace) (hw : Members 0 w ms)
    (hc : c.kind = .rBrace) (rest : List Token) :
    (enumDecl (n :: o :: (w ++ [c] ++ rest))).Gives (.enumDecl n.value ms) rest := by
  rw [List.append_assoc]
  exact (expect_cons hn _).chain fun _ => (expect_cons ho _).andThen fun _ =>
    (hw.gives hc rest).chain fun _ => (expect_cons hc rest).map _

theorem usingDecl_gives {n s : Token} {w : List Token} {a : Option String}
    (hn : n.kind = .identifier) (hw : LocalName w a) (hs : s.kind = .semicolon)
    (rest : List Token) :
    (usingDecl (n :: (w ++ [s] ++ rest))).Gives (.usingDecl n.value a) rest := by
  rw [List.append_assoc]
  exact terminated_gives ((expect_cons hn _).andThen fun _ => (hw.gives hs).map _) hs

theorem assembly_gives {o c : Token} {w : List Token} (ho : o.kind = .lBrace)
    (hw : ∀ t ∈ w, t.kind = .string) (hc : c.kind = .rBrace) (rest : List Token) :
    (assembly (o :: (w ++ [c] ++ rest))).Gives (.assembly (w.map (·.value))) rest := by
  rw [List.append_assoc]
  exact (expect_cons ho _).chain fun _ => (operations_gives hw hc rest).map _

theorem returnNothing_gives {s : Token} (hs : s.kind = .semicolon) (rest : List Token) :
    (returnValue (s :: rest)).Gives (.returnValue none) rest := by
  simp [returnValue, accept?_cons, hs, Parsed.Gives]

theorem returnValue_gives {s : Token} {w : List Token} {e : Expr} (hw : Derives .assignment w e)
    (hs : s.kind = .semicolon) (rest : List Token) :
    (returnValue (w ++ [s] ++ rest)).Gives (.returnValue (some e)) rest := by
  have hd : ∀ kind ∈ Phrase.assignment.starts, kind ∉ [.semicolon] := by decide
  have hk := hd _ (headKind_append_mem_starts (by simp) (s :: rest) hw.headKind_mem_starts)
  rw [List.append_assoc, List.singleton_append, returnValue, accept?_eq_none hk]
  exact (terminated_gives (hw.assignment_gives s rest (by rw [hs]; decide)) hs).map _

theorem free_gives {s : Token} {w : List Token} {e : Expr} (hw : Derives .access w e)
    (hs : s.kind = .semicolon) (rest : List Token) :
    (free (w ++ [s] ++ rest)).Gives (.free e) rest := by
  rw [List.append_assoc]
  exact (terminated_gives (hw.isRead (s :: rest) (by rw [headKind_cons, hs]; decide)) hs).map _

theorem isRead_expression {s : Token} {w : List Token} {e : Expr} (hw : Derives .assignment w e)
    (hs : s.kind = .semicolon) : Clause.statement.IsRead (w ++ [s]) (.expression e) := by
  intro rest hr
  have hd : ∀ kind ∈ Phrase.assignment.starts, RuleTable.standard kind = none := by decide
  have hk := hd _ (headKind_append_mem_starts (by simp) (s :: rest) hw.headKind_mem_starts)
  rw [List.append_assoc, List.singleton_append, statement_of_none hk]
  exact (Run.gives_silent ((terminated_gives
    (hw.assignment_gives s rest (by rw [hs]; decide)) hs).map _)).after _

/-! ### Control flow -/

theorem isRead_whileLoop {k : Token} {w v : List Token} {c : Expr} {b : List Stmt}
    (hk : k.kind = .kwWhile) (hw : Derives .assignment w c) (hv : headKind v = .lBrace)
    (hb : Clause.block.IsRead v b) :
    Clause.statement.IsRead (k :: (w ++ v)) (.whileLoop c b) := by
  intro rest hr
  rw [List.cons_append, List.append_assoc]
  apply statement_gives .whileLoop (by simp [RuleTable.standard, hk])
  rw [byRule, whileLoop]
  exact ((Run.gives_silent (hw.gives_before_block hv rest)).chain fun _ =>
    (hb rest).map _).skipping

theorem isRead_doWhile {k l s : Token} {w v : List Token} {c : Expr} {b : List Stmt}
    (hk : k.kind = .kwDo) (hb : Clause.block.IsRead w b) (hl : l.kind = .kwWhile)
    (hv : Derives .assignment v c) (hs : s.kind = .semicolon) :
    Clause.statement.IsRead (k :: (w ++ l :: (v ++ [s]))) (.doWhile b c) := by
  intro rest hr
  have hts : k :: (w ++ l :: (v ++ [s])) ++ rest = k :: (w ++ l :: (v ++ s :: rest)) := by simp
  have hc := hv.assignment_gives s rest (by rw [hs]; decide)
  rw [hts]
  apply statement_gives .doWhile (by simp [RuleTable.standard, hk])
  rw [byRule, doWhile]
  exact ((hb _).chain fun _ => (Run.gives_silent (expect_cons hl _)).chain fun _ =>
    Run.gives_silent ((terminated_gives hc hs).map _)).skipping

theorem isRead_forLoop {k : Token} {w v x y : List Token} {i c : Stmt} {e : Expr} {b : List Stmt}
    (hk : k.kind = .kwFor) (hi : Clause.statement.IsRead w i) (hc : Clause.statement.IsRead v c)
    (hv : headKind v ∉ [.eof, .kwElse]) (he : Derives .assignment x e) (hy : headKind y = .lBrace)
    (hb : Clause.block.IsRead y b) :
    Clause.statement.IsRead (k :: (w ++ (v ++ (x ++ y)))) (.forLoop i c e b) := by
  intro rest hr
  have hts : k :: (w ++ (v ++ (x ++ y))) ++ rest = k :: (w ++ (v ++ (x ++ (y ++ rest)))) := by
    simp
  simp only [List.mem_cons, List.not_mem_nil, or_false, not_or] at hv
  have hv' : headKind (v ++ (x ++ (y ++ rest))) ≠ .kwElse := by
    rw [headKind_append _ hv.1]
    exact hv.2
  have hx : headKind (x ++ (y ++ rest)) ≠ .kwElse := by
    have hd : ∀ kind ∈ Phrase.assignment.starts, kind ≠ .kwElse := by decide
    exact hd _ (headKind_append_mem_starts (by simp) _ he.headKind_mem_starts)
  rw [hts]
  apply statement_gives .forLoop (by simp [RuleTable.standard, hk])
  rw [byRule, forLoop, dif_neg (by simp [RuleTable.standard])]
  exact ((hi _ hv').chain fun _ => (hc _ hx).chain fun _ =>
    (Run.gives_silent (he.gives_before_block hy rest)).chain fun _ => (hb rest).map _).skipping

theorem isRead_nothing : Clause.otherwise.IsRead [] .nothing := by
  intro rest hr u v c b hu hv hb
  rw [List.nil_append, ifElse]
  refine (Run.gives_silent (hu.gives_before_block hv rest)).chain fun _ =>
    (hb rest).andThen fun _ => ?_
  rw [accept?_eq_none (by simpa using hr)]
  exact Run.gives_stay _ _

theorem isRead_elseBlock {k : Token} {w : List Token} {b : List Stmt} (hk : k.kind = .kwElse)
    (hw : headKind w = .lBrace) (hb : Clause.block.IsRead w b) :
    Clause.otherwise.IsRead (k :: w) (.block b) := by
  intro rest hr u v c b' hu hv hb'
  have hn : accept? [.kwIf] (w ++ rest) = none :=
    accept?_eq_none (by simp [headKind_append rest (show headKind w ≠ .eof by simp [hw]), hw])
  rw [ifElse]
  refine (Run.gives_silent (hu.gives_before_block hv _)).chain fun _ =>
    (hb' _).andThen fun _ => ?_
  simp only [List.cons_append, accept?_cons, hk, List.mem_singleton, if_true, Run.gives_loose]
  apply Front.gives_run
  simp only [hn]
  exact (hb rest).map _

theorem isRead_elseIf {k i : Token} {w v x : List Token} {c : Expr} {b : List Stmt} {o : Otherwise}
    (hk : k.kind = .kwElse) (hi : i.kind = .kwIf) (hw : Derives .assignment w c)
    (hv : headKind v = .lBrace) (hb : Clause.block.IsRead v b) (ho : Clause.otherwise.IsRead x o) :
    Clause.otherwise.IsRead (k :: i :: (w ++ (v ++ x))) (.elseIf c b o) := by
  intro rest hr u v' c' b' hu hv' hb'
  have hts : k :: i :: (w ++ (v ++ x)) ++ rest = k :: i :: (w ++ (v ++ (x ++ rest))) := by simp
  rw [hts, ifElse]
  refine (Run.gives_silent (hu.gives_before_block hv' _)).chain fun _ =>
    (hb' _).andThen fun _ => ?_
  simp only [accept?_cons, hk, List.mem_singleton, if_true, Run.gives_loose]
  apply Front.gives_run
  simp only [accept?_cons, hi, List.mem_singleton, if_true]
  exact Front.gives_run ((ho rest hr hw hv hb).map _)

theorem isRead_ifElse {k : Token} {w v x : List Token} {c : Expr} {b : List Stmt} {o : Otherwise}
    (hk : k.kind = .kwIf) (hw : Derives .assignment w c) (hv : headKind v = .lBrace)
    (hb : Clause.block.IsRead v b) (ho : Clause.otherwise.IsRead x o) :
    Clause.statement.IsRead (k :: (w ++ (v ++ x))) (.ifElse c b o) := by
  intro rest hr
  have hts : k :: (w ++ (v ++ x)) ++ rest = k :: (w ++ (v ++ (x ++ rest))) := by simp
  rw [hts]
  apply statement_gives .ifElse (by simp [RuleTable.standard, hk])
  rw [byRule]
  exact ((ho rest hr hw hv hb).map _).skipping

/-! ### Sequences -/

theorem isRead_block {o c : Token} {w : List Token} {b : List Stmt} (ho : o.kind = .lBrace)
    (hw : Clause.sequence.IsRead w b) (hc : c.kind = .rBrace) :
    Clause.block.IsRead (o :: (w ++ [c])) b := by
  intro rest
  have hts : o :: (w ++ [c]) ++ rest = o :: (w ++ c :: rest) := by simp
  rw [hts, block]
  exact (Run.gives_silent (expect_cons ho _)).andThen fun _ => hw.1 c rest hc

theorem blockTail_gives {ts rest : List Token} {b : List Stmt} :
    (blockTail .standard ts).Gives b rest ↔
      (blockRest .standard (skipSemicolons ts)).Gives b rest := by
  rw [blockTail, Run.Gives, Run.Gives, Parsed.Gives, Run.result_trimming]
  exact Iff.rfl

theorem isRead_nil : Clause.sequence.IsRead [] [] := by
  constructor
  · intro c rest hc
    rw [List.nil_append, blockTail_gives, skipSemicolons_of_ne (by simp [hc]), blockRest]
    simp only [accept?_cons, hc, List.mem_singleton, if_true]
    exact Run.gives_silent (by simp [Parsed.Gives])
  · intro rest hr
    have hs : headKind (skipSemicolons rest) = .eof := by
      rw [skipSemicolons_of_ne (by simp [hr]), hr]
    rw [List.nil_append, program_of_eof hs]
    exact ⟨rfl, clean_nil⟩

theorem skipSemicolons_cons {s : Token} (hs : s.kind = .semicolon) (ts : List Token) :
    skipSemicolons (s :: ts) = skipSemicolons ts := if_pos hs

theorem program_cons_semicolon {s : Token} (hs : s.kind = .semicolon) (ts : List Token) :
    program .standard (s :: ts) = program .standard ts := by
  have hskip := skipSemicolons_cons hs ts
  by_cases he : headKind (skipSemicolons ts) = .eof
  · rw [program_of_eof he, program_of_eof (by rwa [hskip]), hskip]
  · rw [program_of_statement he, program_of_statement (by rwa [hskip]), hskip]

theorem isRead_stray {s : Token} {w : List Token} {b : List Stmt} (hs : s.kind = .semicolon)
    (h : Clause.sequence.IsRead w b) : Clause.sequence.IsRead (s :: w) b := by
  constructor
  · intro c rest hc
    rw [List.cons_append, blockTail_gives, skipSemicolons_cons hs, ← blockTail_gives]
    exact h.1 c rest hc
  · intro rest hr
    rw [List.cons_append, program_cons_semicolon hs]
    exact h.2 rest hr

/-- Behind a statement that is read without a fault, reading goes on with what is left. -/
theorem Run.Gives.recover {ts : List Token} {r : Run Stmt ts.length} {s : Stmt}
    {rest : List Token} (h : r.Gives s rest) :
    r.recover.statement? = some s ∧ r.recover.rest = rest ∧ Clean r.recover.events := by
  obtain ⟨events, outcome⟩ := r
  obtain ⟨ho, he⟩ := h
  cases outcome with
  | failed failure rest' within => simp [Parsed.Gives] at ho
  | done value rest' shorter =>
    simp only [Parsed.Gives, Parsed.result_done, Prod.mk.injEq, Except.ok.injEq] at ho
    obtain ⟨rfl, rfl⟩ := ho
    exact ⟨rfl, rfl, he⟩

theorem Recovered.gives_andThen {ts : List Token} {r : Recovered ts} (he : headKind ts ≠ .eof)
    {next : (rest : List Token) → rest.length < ts.length → Run (List Stmt) (rest.length + 1)}
    {b : List Stmt} {rest : List Token} (hc : Clean r.events)
    (hn : (next r.rest (r.progress he)).Gives b rest) :
    (r.andThen he next).Gives (r.statement?.toList ++ b) rest := by
  refine ⟨?_, clean_append.2 ⟨hc, hn.2⟩⟩
  rw [Parsed.Gives, Recovered.andThen, Parsed.result_before]
  exact hn.1.map _

theorem isRead_cons {w v : List Token} {s : Stmt} {b : List Stmt}
    (hk : headKind w ∉ [.eof, .semicolon, .rBrace, .kwElse]) (hv : headKind v ≠ .kwElse)
    (hs : Clause.statement.IsRead w s) (hb : Clause.sequence.IsRead v b) :
    Clause.sequence.IsRead (w ++ v) (s :: b) := by
  simp only [List.mem_cons, List.not_mem_nil, or_false, not_or] at hk
  have hhead : ∀ ts, headKind (w ++ ts) = headKind w := fun ts => headKind_append ts hk.1
  have hskip : ∀ ts, skipSemicolons (w ++ ts) = w ++ ts := fun ts =>
    skipSemicolons_of_ne (by rw [hhead]; exact hk.2.1)
  constructor
  · intro c rest hc
    have hv' : headKind (v ++ c :: rest) ≠ .kwElse := by cases v <;> simp_all
    have he : headKind (w ++ (v ++ c :: rest)) ≠ .eof := by rw [hhead]; exact hk.1
    have hn : headKind (w ++ (v ++ c :: rest)) ∉ [.rBrace] := by
      rw [hhead, List.mem_singleton]
      exact hk.2.2.1
    obtain ⟨h₁, h₂, h₃⟩ := (hs (v ++ c :: rest) hv').recover
    rw [List.append_assoc, blockTail_gives, hskip, blockRest, accept?_eq_none hn]
    dsimp only
    rw [dif_neg he, Run.gives_loose]
    have hg : ((statement .standard (w ++ (v ++ c :: rest))).recover.andThen he
        fun rest _ => blockTail .standard rest).Gives _ rest :=
      Recovered.gives_andThen he h₃ (by rw [h₂]; exact hb.1 c rest hc)
    rwa [h₁] at hg
  · intro rest hr
    have hv' : headKind (v ++ rest) ≠ .kwElse := by cases v <;> simp_all
    have he : headKind (skipSemicolons (w ++ (v ++ rest))) ≠ .eof := by
      rw [hskip, hhead]
      exact hk.1
    obtain ⟨h₁, h₂, h₃⟩ := (hs (v ++ rest) hv').recover
    obtain ⟨h₄, h₅⟩ := hb.2 rest hr
    rw [List.append_assoc, program_of_statement he, hskip]
    dsimp only
    rw [h₁, h₂, h₄]
    exact ⟨rfl, clean_append.2 ⟨h₃, h₅⟩⟩

/-! ### Every clause -/

/-- What the grammar of statements derives is read back without a fault. -/
theorem Forms.isRead {c : Clause} {w : List Token} {s : c.Tree} (h : Forms c w s) :
    c.IsRead w s := by
  induction h with
  | namespaceDecl hk hn hb ih => exact isRead_namespaceDecl hk hn hb.headKind_block ih
  | functionDecl hk hw ho hv hc hx hb ih =>
    exact isRead_functionDecl hk hw ho hv hc hx hb.headKind_block ih
  | variableDecl hk hw hv hs => exact isRead_variableDecl hk hw hv hs
  | structDecl hk hn ho hw hc =>
    refine isRead_byRule .structDecl (record .structDecl) (by simp [RuleTable.standard, hk]) ?_ ?_
    · exact fun ts => by rw [byRule]
    · exact record_gives _ hn ho hw hc
  | unionDecl hk hn ho hw hc =>
    refine isRead_byRule .unionDecl (record .unionDecl) (by simp [RuleTable.standard, hk]) ?_ ?_
    · exact fun ts => by rw [byRule]
    · exact record_gives _ hn ho hw hc
  | enumDecl hk hn ho hw hc =>
    refine isRead_byRule .enumDecl Grammar.enumDecl (by simp [RuleTable.standard, hk]) ?_ ?_
    · exact fun ts => by rw [byRule]
    · exact enumDecl_gives hn ho hw hc
  | usingDecl hk hn hw hs =>
    refine isRead_byRule .usingDecl Grammar.usingDecl (by simp [RuleTable.standard, hk]) ?_ ?_
    · exact fun ts => by rw [byRule]
    · exact usingDecl_gives hn hw hs
  | ifElse hk hw hb _ ihb iho => exact isRead_ifElse hk hw hb.headKind_block ihb iho
  | whileLoop hk hw hb ih => exact isRead_whileLoop hk hw hb.headKind_block ih
  | doWhile hk _ hl hv hs ih => exact isRead_doWhile hk ih hl hv hs
  | forLoop hk _ hc he hb ihi ihc ihb =>
    have hh := hc.headKind_statement
    exact isRead_forLoop hk ihi ihc (by simp_all) he hb.headKind_block ihb
  | breakLoop hk hs =>
    refine isRead_byRule .breakLoop (word .breakLoop) (by simp [RuleTable.standard, hk]) ?_ ?_
    · exact fun ts => by rw [byRule]
    · exact fun rest => (expect_cons hs rest).map _
  | continueLoop hk hs =>
    refine isRead_byRule .continueLoop (word .continueLoop) (by simp [RuleTable.standard, hk]) ?_ ?_
    · exact fun ts => by rw [byRule]
    · exact fun rest => (expect_cons hs rest).map _
  | returnNothing hk hs =>
    refine isRead_byRule .returnValue Grammar.returnValue (by simp [RuleTable.standard, hk]) ?_ ?_
    · exact fun ts => by rw [byRule]
    · exact returnNothing_gives hs
  | returnValue hk hw hs =>
    refine isRead_byRule .returnValue Grammar.returnValue (by simp [RuleTable.standard, hk]) ?_ ?_
    · exact fun ts => by rw [byRule]
    · exact returnValue_gives hw hs
  | free hk hw hs =>
    refine isRead_byRule .free Grammar.free (by simp [RuleTable.standard, hk]) ?_ ?_
    · exact fun ts => by rw [byRule]
    · exact free_gives hw hs
  | assembly hk ho hw hc =>
    refine isRead_byRule .assembly Grammar.assembly (by simp [RuleTable.standard, hk]) ?_ ?_
    · exact fun ts => by rw [byRule]
    · exact assembly_gives ho hw hc
  | expression hw hs => exact isRead_expression hw hs
  | block ho _ hc ih => exact isRead_block ho ih hc
  | nil => exact isRead_nil
  | stray hs _ ih => exact isRead_stray hs ih
  | cons hw hv ihs ihb => exact isRead_cons hw.headKind_statement hv.headKind_sequence ihs ihb
  | nothing => exact isRead_nothing
  | elseBlock hk hb ih => exact isRead_elseBlock hk hb.headKind_block ih
  | elseIf hk hi hw hb _ ihb iho => exact isRead_elseIf hk hi hw hb.headKind_block ihb iho

end FrontEnd.Grammar
