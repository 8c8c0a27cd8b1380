import FrontEnd.Proofs.Phrase.Basic

/-!
What the grammar of expressions and types derives is read back: a phrase, with tokens behind it
that cannot carry it on, is read off as its own tree and leaves those tokens. Where phrases nest to
the left, reading one leads to the loop that looks for the next operator.
-/

set_option autoImplicit false

namespace FrontEnd.Grammar

/-! ### Tokens that carry a phrase on -/

namespace Phrase

/-- The kinds of token that carry a postfix expression on. -/
def accessExtensions : List TokenKind := .scopeResolution :: Precedence.postfixUnary.operators

/-- The kinds of token that carry an operand on when the operators of `levels` apply to it. -/
def binaryExtensions (levels : List Precedence) : List TokenKind :=
  levels.flatMap Precedence.operators ++ .kwAs :: accessExtensions

/-- The kinds of token that carry an expression on. -/
def expressionExtensions : List TokenKind :=
  Precedence.assignment.operators ++ binaryExtensions Precedence.binaryLevels

theorem binaryExtensions_cons (level : Precedence) (levels : List Precedence) :
    binaryExtensions (level :: levels) = level.operators ++ binaryExtensions levels := by
  simp [binaryExtensions]

/-- The operators of a level do not carry an operand of the levels behind it on. -/
theorem operator_not_mem_binaryExtensions {level : Precedence} {levels : List Precedence}
    {kind : TokenKind} (h : level :: levels <:+ Precedence.binaryLevels)
    (hk : kind ∈ level.operators) : kind ∉ binaryExtensions levels := by
  have hd : Precedence.binaryLevels.Pairwise fun l m => ∀ k ∈ l.operators, k ∉ m.operators := by
    decide
  have he : ∀ l ∈ Precedence.binaryLevels, ∀ k ∈ l.operators, k ∉ .kwAs :: accessExtensions := by
    decide
  have hp := List.pairwise_cons.1 (hd.sublist h.sublist)
  intro hm
  rcases List.mem_append.1 hm with hm | hm
  · obtain ⟨m, hml, hkm⟩ := List.mem_flatMap.1 hm
    exact hp.1 m hml kind hk hkm
  · exact he level (h.subset (List.mem_cons_self ..)) kind hk hm

/-- The tokens `w` are read as `e`, whatever stands behind them that does not carry them on. -/
def IsRead : (p : Phrase) → List Token → p.Tree → Prop
  | .assignment, w, e => ∀ rest, headKind rest ∉ expressionExtensions →
      (Grammar.assignment (w ++ rest)).Gives e rest
  | .binary [], w, e | .cast, w, e => ∀ rest, headKind rest ∉ accessExtensions →
      (Grammar.cast (w ++ rest)).result = (castTail e rest).result
  | .binary (kinds :: ladder), w, e => ∀ level levels, kinds = level.operators →
      ladder = levels.map Precedence.operators → level :: levels <:+ Precedence.binaryLevels →
      ∀ rest, headKind rest ∉ binaryExtensions levels →
        (Grammar.binary (level :: levels) (w ++ rest)).result =
          (binaryTail level levels e rest).result
  | .unary, w, e => ∀ rest, headKind rest ∉ accessExtensions →
      (Grammar.unary (w ++ rest)).Gives e rest
  | .access, w, e => ∀ rest, headKind rest ∉ accessExtensions →
      (Grammar.access (w ++ rest)).Gives e rest
  | .chain, w, e => ∀ rest, headKind rest ≠ .scopeResolution →
      (Grammar.access (w ++ rest)).result = (accessTail e rest).result
  | .primary, w, e => ∀ rest, (Grammar.primary (w ++ rest)).Gives e rest
  | .elements, w, es => ∀ rest, headKind rest ∉ .comma :: expressionExtensions →
      (Grammar.elements (w ++ rest)).Gives es rest
  | .list, w, es => ∀ (c : Token) (rest : List Token), c.kind = .rParen ∨ c.kind = .rBracket →
      (listUntil c.kind (w ++ c :: rest)).Gives es rest
  | .typeExpr, w, t => ∀ rest, headKind rest ≠ .scopeResolution →
      (Grammar.typeExpr (w ++ rest)).Gives t rest

end Phrase

open Phrase

/-! ### Loops that find nothing to do -/

theorem binaryTail_stay {level : Precedence} {levels : List Precedence} {e : Expr}
    {rest : List Token} (h : headKind rest ∉ level.operators) :
    (binaryTail level levels e rest).Gives e rest := by
  rw [binaryTail, accept?_eq_none h]
  rfl

theorem castTail_stay {e : Expr} {rest : List Token} (h : headKind rest ≠ .kwAs) :
    (castTail e rest).Gives e rest := by
  rw [castTail, accept?_eq_none (by simpa [Precedence.operators] using h)]
  rfl

theorem accessTail_stay {e : Expr} {rest : List Token}
    (h : headKind rest ∉ Precedence.postfixUnary.operators) :
    (accessTail e rest).Gives e rest := by
  cases rest with
  | nil => rw [accessTail]; rfl
  | cons t rest =>
    simp only [Precedence.operators, headKind_cons, List.mem_cons, List.not_mem_nil, or_false,
      not_or] at h
    rw [accessTail]
    simp only [front?]
    split <;> first | simp_all; done | rfl

/-! ### Binary operators and assignments -/

/-- The operators of the grammar are those of the levels that readers go through. -/
theorem ladder_eq : Phrase.ladder = Precedence.binaryLevels.map Precedence.operators := rfl

theorem assigning_eq : Phrase.assigning = Precedence.assignment.operators := rfl

theorem cast_gives {w rest : List Token} {e : Expr} (h : IsRead .cast w e)
    (hr : headKind rest ∉ .kwAs :: accessExtensions) : (cast (w ++ rest)).Gives e rest := by
  simp only [List.mem_cons, not_or] at hr
  rw [Parsed.Gives, h rest hr.2]
  exact castTail_stay hr.1

theorem binary_gives {levels : List Precedence} {w rest : List Token} {e : Expr}
    (h : IsRead (.binary (levels.map Precedence.operators)) w e)
    (hl : levels <:+ Precedence.binaryLevels)
    (hr : headKind rest ∉ binaryExtensions levels) : (binary levels (w ++ rest)).Gives e rest := by
  cases levels with
  | nil =>
    rw [binary]
    exact cast_gives h (by simpa [binaryExtensions] using hr)
  | cons level levels =>
    rw [binaryExtensions_cons, List.mem_append, not_or] at hr
    rw [Parsed.Gives, h level levels rfl rfl hl rest hr.2]
    exact binaryTail_stay hr.1

theorem isRead_tighter {kinds : List TokenKind} {ladder : List (List TokenKind)} {w : List Token}
    {e : Expr} (h : IsRead (.binary ladder) w e) : IsRead (.binary (kinds :: ladder)) w e := by
  rintro level levels rfl rfl hl rest hr
  rw [binary, Parsed.result_andThen (binary_gives h ((List.suffix_cons _ _).trans hl) hr)]

theorem isRead_operate {kinds : List TokenKind} {ladder : List (List TokenKind)}
    {w v : List Token} {o : Token} {l r : Expr} (hl : IsRead (.binary (kinds :: ladder)) w l)
    (ho : o.kind ∈ kinds) (hr : IsRead (.binary ladder) v r) :
    IsRead (.binary (kinds :: ladder)) (w ++ o :: v) (.binary o.kind l r) := by
  rintro level levels rfl rfl hs rest hrest
  have hok : headKind (o :: (v ++ rest)) ∉ binaryExtensions levels :=
    operator_not_mem_binaryExtensions hs ho
  rw [List.append_assoc, List.cons_append, hl level levels rfl rfl hs _ hok, binaryTail]
  simp only [accept?_cons, ho, if_true, Parsed.result_loose, Front.result_chain]
  rw [Parsed.result_andThen (binary_gives hr ((List.suffix_cons _ _).trans hs) hrest)]

theorem isRead_operand {w : List Token} {e : Expr}
    (h : IsRead (.binary Phrase.ladder) w e) : IsRead .assignment w e := by
  intro rest hr
  rw [expressionExtensions, List.mem_append, not_or] at hr
  have hb := binary_gives (ladder_eq ▸ h) List.suffix_rfl hr.2
  rw [Parsed.Gives, assignment, Parsed.result_andThen hb]
  simp [accept?_eq_none hr.1]

theorem isRead_assign {w v : List Token} {o : Token} {l r : Expr}
    (hl : IsRead (.binary Phrase.ladder) w l) (ho : o.kind ∈ Phrase.assigning)
    (hr : IsRead .assignment v r) :
    IsRead .assignment (w ++ o :: v) (.binary o.kind l r) := by
  intro rest hrest
  rw [assigning_eq] at ho
  have hd : ∀ kind ∈ Precedence.assignment.operators,
      kind ∉ binaryExtensions Precedence.binaryLevels := by decide
  have hok : headKind (o :: (v ++ rest)) ∉ binaryExtensions Precedence.binaryLevels := hd _ ho
  rw [List.append_assoc, List.cons_append, Parsed.Gives, assignment,
    Parsed.result_andThen (binary_gives (ladder_eq ▸ hl) List.suffix_rfl hok)]
  simp only [accept?_cons, ho, if_true, Parsed.result_loose, Front.result_chain]
  exact (hr rest hrest).map _

/-! ### Casts and operators before their operand -/

theorem isRead_uncast {w : List Token} {e : Expr} (h : IsRead .unary w e) : IsRead .cast w e := by
  intro rest hr
  rw [cast, Parsed.result_andThen (h rest hr)]

theorem isRead_castTo {w v : List Token} {o : Token} {e : Expr} {t : TypeExpr}
    (he : IsRead .cast w e) (ho : o.kind = .kwAs) (ht : IsRead .typeExpr v t) :
    IsRead .cast (w ++ o :: v) (.cast e t) := by
  intro rest hr
  have hok : headKind (o :: (v ++ rest)) ∉ accessExtensions := by
    rw [headKind_cons, ho]
    decide
  have hs : headKind rest ≠ .scopeResolution := fun h => hr (by simp [h, accessExtensions])
  rw [List.append_assoc, List.cons_append, he _ hok, castTail]
  simp only [accept?_cons, Precedence.operators, ho, List.mem_singleton, if_true,
    Parsed.result_loose, Front.result_chain]
  rw [Parsed.result_andThen (ht rest hs)]

theorem isRead_unmarked {w : List Token} {e : Expr} (hw : headKind w ∈ Phrase.access.starts)
    (h : IsRead .access w e) : IsRead .unary w e := by
  intro rest hr
  have hd : ∀ kind ∈ Phrase.access.starts, kind ∉ Precedence.prefixUnary.operators := by decide
  have hk := hd _ (headKind_append_mem_starts (by simp) rest hw)
  rw [unary, accept?_eq_none hk]
  exact h rest hr

/-- An operator that stands before its operand says how the operand is read. -/
theorem result_unary_cons {o : Token} (ho : o.kind ∈ Precedence.prefixUnary.operators)
    (ts : List Token) :
    (unary (o :: ts)).result =
      (match o.kind with
        | .ampersand => (access ts).map Expr.addressOf
        | .caret => (access ts).map Expr.dereference
        | .kwNew => (typeExpr ts).map Expr.new
        | kind => (unary ts).map (Expr.unary kind)).result := by
  rw [unary]
  simp only [accept?_cons, ho, if_true]
  exact Front.result_chain ⟨o, ts, _⟩ _

theorem isRead_addressOf {w : List Token} {o : Token} {e : Expr} (ho : o.kind = .ampersand)
    (h : IsRead .access w e) : IsRead .unary (o :: w) (.addressOf e) := by
  intro rest hr
  rw [List.cons_append, Parsed.Gives, result_unary_cons (by simp [Precedence.operators, ho]), ho]
  exact (h rest hr).map _

theorem isRead_dereference {w : List Token} {o : Token} {e : Expr} (ho : o.kind = .caret)
    (h : IsRead .access w e) : IsRead .unary (o :: w) (.dereference e) := by
  intro rest hr
  rw [List.cons_append, Parsed.Gives, result_unary_cons (by simp [Precedence.operators, ho]), ho]
  exact (h rest hr).map _

theorem isRead_new {w : List Token} {o : Token} {t : TypeExpr} (ho : o.kind = .kwNew)
    (h : IsRead .typeExpr w t) : IsRead .unary (o :: w) (.new t) := by
  intro rest hr
  have hs : headKind rest ≠ .scopeResolution := fun h => hr (by simp [h, accessExtensions])
  rw [List.cons_append, Parsed.Gives, result_unary_cons (by simp [Precedence.operators, ho]), ho]
  exact (h rest hs).map _

theorem isRead_marked {w : List Token} {o : Token} {e : Expr}
    (ho : o.kind = .bang ∨ o.kind = .minus) (h : IsRead .unary w e) :
    IsRead .unary (o :: w) (.unary o.kind e) := by
  intro rest hr
  rw [List.cons_append, Parsed.Gives,
    result_unary_cons (by rcases ho with ho | ho <;> simp [Precedence.operators, ho])]
  rcases ho with ho | ho <;> rw [ho] <;> exact (h rest hr).map _

/-! ### Postfix expressions -/

theorem isRead_chained {w : List Token} {e : Expr} (h : IsRead .chain w e) :
    IsRead .access w e := by
  intro rest hr
  simp only [accessExtensions, List.mem_cons, not_or] at hr
  rw [Parsed.Gives, h rest hr.1]
  exact accessTail_stay (by simpa [Precedence.operators] using hr.2)

theorem isRead_member {w v : List Token} {o : Token} {l r : Expr} (hl : IsRead .chain w l)
    (ho : o.kind = .dot) (hr : IsRead .access v r) :
    IsRead .access (w ++ o :: v) (.member l r) := by
  intro rest hrest
  rw [List.append_assoc, List.cons_append, Parsed.Gives, hl _ (by simp [ho]), accessTail]
  simp only [front?, ho, Parsed.result_loose, Front.result_chain]
  exact (hr rest hrest).map _

theorem isRead_arrow {w v : List Token} {o : Token} {l r : Expr} (hl : IsRead .chain w l)
    (ho : o.kind = .arrow) (hr : IsRead .access v r) :
    IsRead .access (w ++ o :: v) (.member (.dereference l) r) := by
  intro rest hrest
  rw [List.append_assoc, List.cons_append, Parsed.Gives, hl _ (by simp [ho]), accessTail]
  simp only [front?, ho, Parsed.result_loose, Front.result_chain]
  exact (hr rest hrest).map _

/-- A postfix expression that does not start with a bracket starts with a primary expression. -/
theorem arrayLiteral_eq_qualified {ts : List Token} (h : headKind ts ≠ .lBracket) :
    (arrayLiteral ts).result = (qualified ts).result := by
  rw [arrayLiteral, accept?_eq_none (by simpa using h)]

theorem headKind_primary_append {w : List Token} (rest : List Token)
    (hw : headKind w ∈ Phrase.primary.starts) : headKind (w ++ rest) ≠ .lBracket := by
  have hd : ∀ kind ∈ Phrase.primary.starts, kind ≠ .lBracket := by decide
  exact hd _ (headKind_append_mem_starts (by simp) rest hw)

theorem isRead_qualified {w v : List Token} {o : Token} {l r : Expr}
    (hw : headKind w ∈ Phrase.primary.starts) (hl : IsRead .primary w l)
    (ho : o.kind = .scopeResolution) (hr : IsRead .access v r) :
    IsRead .access (w ++ o :: v) (.qualified l r) := by
  intro rest hrest
  have hq : (arrayLiteral (w ++ o :: (v ++ rest))).Gives (.qualified l r) rest := by
    rw [Parsed.Gives, arrayLiteral_eq_qualified (headKind_primary_append _ hw), qualified,
      Parsed.result_andThen (hl _)]
    simp only [accept?_cons, ho, List.mem_singleton, if_true, Parsed.result_loose,
      Front.result_chain]
    exact (hr rest hrest).map _
  simp only [accessExtensions, List.mem_cons, not_or] at hrest
  rw [List.append_assoc, List.cons_append, Parsed.Gives, access, Parsed.result_andThen hq]
  exact accessTail_stay (by simpa [Precedence.operators] using hrest.2)

theorem isRead_base {w : List Token} {e : Expr} (hw : headKind w ∈ Phrase.primary.starts)
    (h : IsRead .primary w e) : IsRead .chain w e := by
  intro rest hr
  have hq : (arrayLiteral (w ++ rest)).Gives e rest := by
    rw [Parsed.Gives, arrayLiteral_eq_qualified (headKind_primary_append _ hw), qualified,
      Parsed.result_andThen (h _)]
    simp [accept?_eq_none, hr]
  rw [access, Parsed.result_andThen hq]

theorem isRead_arrayLiteral {w : List Token} {o c : Token} {es : List Expr}
    (ho : o.kind = .lBracket) (h : IsRead .list w es) (hc : c.kind = .rBracket) :
    IsRead .chain (o :: (w ++ [c])) (.arrayLiteral es) := by
  intro rest hr
  have hl := h c rest (Or.inr hc)
  have ha : (arrayLiteral (o :: (w ++ c :: rest))).Gives (.arrayLiteral es) rest := by
    rw [Parsed.Gives, arrayLiteral]
    simp only [accept?_cons, ho, List.mem_singleton, if_true, Front.result_chain]
    rw [hc] at hl
    exact hl.map _
  have hts : o :: (w ++ [c]) ++ rest = o :: (w ++ c :: rest) := by simp
  rw [hts, access, Parsed.result_andThen ha]

theorem isRead_index {w v : List Token} {o c : Token} {a i : Expr} (ha : IsRead .chain w a)
    (ho : o.kind = .lBracket) (hi : IsRead .assignment v i) (hc : c.kind = .rBracket) :
    IsRead .chain (w ++ o :: (v ++ [c])) (.index a i) := by
  intro rest hr
  have hcl : headKind (c :: rest) ∉ expressionExtensions := by
    rw [headKind_cons, hc]
    decide
  have hts : w ++ o :: (v ++ [c]) ++ rest = w ++ o :: (v ++ c :: rest) := by simp
  rw [hts, ha _ (by simp [ho]), accessTail]
  simp only [front?, ho, Parsed.result_loose, Front.result_chain]
  rw [Parsed.result_chain (hi _ hcl), Parsed.result_andThen (expect_cons hc rest)]

theorem isRead_call {w : List Token} {t o c : Token} {es : List Expr}
    (ht : t.kind = .identifier) (ho : o.kind = .lParen) (h : IsRead .list w es)
    (hc : c.kind = .rParen) : IsRead .chain (t :: o :: (w ++ [c])) (.call t.value es) := by
  intro rest hr
  have hb : IsRead .chain [t] (.identifier t.value) := by
    apply isRead_base
    · simp [ht, Phrase.starts, Phrase.primaryStarts]
    · intro rest
      rw [List.cons_append, Parsed.Gives, primary]
      simp [front?, ht]
  have hl := h c rest (Or.inl hc)
  rw [hc] at hl
  have hts : t :: o :: (w ++ [c]) ++ rest = [t] ++ o :: (w ++ c :: rest) := by simp
  rw [hts, hb _ (by simp [ho]), accessTail]
  simp only [front?, ho, Parsed.result_loose, Front.result_chain]
  rw [Parsed.result_andThen hl]

/-! ### Primary expressions and lists -/

theorem isRead_group {w : List Token} {o c : Token} {e : Expr} (ho : o.kind = .lParen)
    (h : IsRead .assignment w e) (hc : c.kind = .rParen) :
    IsRead .primary (o :: (w ++ [c])) (.group e) := by
  intro rest
  have hcl : headKind (c :: rest) ∉ expressionExtensions := by
    rw [headKind_cons, hc]
    decide
  have hts : o :: (w ++ [c]) ++ rest = o :: (w ++ c :: rest) := by simp
  rw [hts, Parsed.Gives, primary]
  simp only [front?, ho, Front.result_chain]
  rw [Parsed.result_chain (h _ hcl)]
  exact (expect_cons hc rest).map _

theorem isRead_last {w : List Token} {e : Expr} (h : IsRead .assignment w e) :
    IsRead .elements w [e] := by
  intro rest hr
  simp only [List.mem_cons, not_or] at hr
  rw [Parsed.Gives, elements, Parsed.result_andThen (h rest hr.2)]
  simp [accept?_eq_none, hr.1]

theorem isRead_more {w v : List Token} {o : Token} {e : Expr} {es : List Expr}
    (he : IsRead .assignment w e) (ho : o.kind = .comma) (hes : IsRead .elements v es) :
    IsRead .elements (w ++ o :: v) (e :: es) := by
  intro rest hr
  have hok : headKind (o :: (v ++ rest)) ∉ expressionExtensions := by
    rw [headKind_cons, ho]
    decide
  rw [List.append_assoc, List.cons_append, Parsed.Gives, elements,
    Parsed.result_andThen (he _ hok)]
  simp only [accept?_cons, ho, List.mem_singleton, if_true, Parsed.result_loose,
    Front.result_chain]
  exact (hes rest hr).map _

theorem isRead_none : IsRead .list [] [] := by
  intro c rest hc
  rw [List.nil_append, Parsed.Gives, listUntil]
  simp [accept?_cons]

theorem isRead_some {w : List Token} {es : List Expr} (hw : headKind w ∈ Phrase.elements.starts)
    (h : IsRead .elements w es) : IsRead .list w es := by
  intro c rest hc
  have hd : ∀ kind ∈ Phrase.elements.starts, kind ≠ .rParen ∧ kind ≠ .rBracket := by decide
  have hk := hd _ (headKind_append_mem_starts (by simp) (c :: rest) hw)
  have hn : headKind (w ++ c :: rest) ∉ [c.kind] := by
    rcases hc with hc | hc <;> simp [hc, hk]
  have hcl : headKind (c :: rest) ∉ .comma :: expressionExtensions := by
    rw [headKind_cons]
    rcases hc with hc | hc <;> rw [hc] <;> decide
  rw [Parsed.Gives, listUntil, accept?_eq_none hn]
  dsimp only
  rw [Parsed.result_chain (h _ hcl)]
  exact (expect_cons rfl rest).map _

/-! ### Types -/

theorem path_gives {w : List Token} {head : String} {tail : List String} (h : Names w head tail)
    (rest : List Token) (hr : headKind rest ≠ .scopeResolution) :
    (path (w ++ rest)).Gives (head, tail) rest := by
  induction h with
  | one ht =>
    rw [List.cons_append, List.nil_append, Parsed.Gives, path,
      Parsed.result_andThen (expect_cons ht rest)]
    simp [accept?_eq_none, hr]
  | more ht ho _ ih =>
    rw [List.cons_append, List.cons_append, Parsed.Gives, path,
      Parsed.result_andThen (expect_cons ht _)]
    simp only [accept?_cons, ho, List.mem_singleton, if_true, Parsed.result_loose,
      Front.result_chain]
    exact ih.map _

theorem isRead_named {w : List Token} {head : String} {tail : List String}
    (h : Names w head tail) : IsRead .typeExpr w (.path head tail) := by
  intro rest hr
  have hk : headKind (w ++ rest) = .identifier := by
    rw [headKind_append rest (by simp [h.headKind]), h.headKind]
  rw [typeExpr, accept?_eq_none (by simp [hk])]
  dsimp only
  rw [pointerType, accept?_eq_none (by simp [hk])]
  exact (path_gives h rest hr).map _

theorem isRead_array {w : List Token} {o c : Token} {t : TypeExpr} (ho : o.kind = .lBracket)
    (h : IsRead .typeExpr w t) (hc : c.kind = .rBracket) :
    IsRead .typeExpr (o :: (w ++ [c])) (.array t) := by
  intro rest hr
  have hts : o :: (w ++ [c]) ++ rest = o :: (w ++ c :: rest) := by simp
  rw [hts, Parsed.Gives, typeExpr]
  simp only [accept?_cons, ho, List.mem_singleton, if_true, Front.result_chain]
  rw [Parsed.result_chain (h _ (by simp [hc]))]
  simp only [accept?_cons, hc, List.mem_singleton, reduceCtorEq, if_false]
  exact (expect_cons hc rest).map _

theorem isRead_sizedArray {w v : List Token} {o s c : Token} {t : TypeExpr} {e : Expr}
    (ho : o.kind = .lBracket) (ht : IsRead .typeExpr w t) (hs : s.kind = .comma)
    (he : IsRead .assignment v e) (hc : c.kind = .rBracket) :
    IsRead .typeExpr (o :: (w ++ s :: (v ++ [c]))) (.sizedArray t e) := by
  intro rest hr
  have hcl : headKind (c :: rest) ∉ expressionExtensions := by
    rw [headKind_cons, hc]
    decide
  have hts : o :: (w ++ s :: (v ++ [c])) ++ rest = o :: (w ++ s :: (v ++ c :: rest)) := by simp
  rw [hts, Parsed.Gives, typeExpr]
  simp only [accept?_cons, ho, List.mem_singleton, if_true, Front.result_chain]
  rw [Parsed.result_chain (ht _ (by simp [hs]))]
  simp only [accept?_cons, hs, List.mem_singleton, if_true, Front.result_chain]
  rw [Parsed.result_chain (he _ hcl)]
  exact (expect_cons hc rest).map _

theorem isRead_pointer {w : List Token} {o : Token} {t : TypeExpr} (ho : o.kind = .caret)
    (h : IsRead .typeExpr w t) : IsRead .typeExpr (o :: w) (.pointer t) := by
  intro rest hr
  rw [List.cons_append, Parsed.Gives, typeExpr, accept?_eq_none (by simp [ho])]
  dsimp only
  rw [pointerType]
  simp only [accept?_cons, ho, List.mem_singleton, if_true, Front.result_chain]
  exact (h rest hr).map _

/-! ### Every phrase -/

/-- What the grammar derives is read back. -/
theorem Derives.isRead {p : Phrase} {w : List Token} {e : p.Tree} (h : Derives p w e) :
    p.IsRead w e := by
  induction h with
  | operand _ ih => exact isRead_operand ih
  | assign _ ho _ ihl ihr => exact isRead_assign ihl ho ihr
  | casted _ ih => exact ih
  | tighter _ ih => exact isRead_tighter ih
  | operate _ ho _ ihl ihr => exact isRead_operate ihl ho ihr
  | uncast _ ih => exact isRead_uncast ih
  | castTo _ ho _ ihe iht => exact isRead_castTo ihe ho iht
  | unmarked h ih => exact isRead_unmarked h.headKind_mem_starts ih
  | addressOf ho _ ih => exact isRead_addressOf ho ih
  | dereference ho _ ih => exact isRead_dereference ho ih
  | new ho _ ih => exact isRead_new ho ih
  | marked ho _ ih => exact isRead_marked ho ih
  | chained _ ih => exact isRead_chained ih
  | member _ ho _ ihl ihr => exact isRead_member ihl ho ihr
  | arrow _ ho _ ihl ihr => exact isRead_arrow ihl ho ihr
  | qualified h ho _ ihl ihr => exact isRead_qualified h.headKind_mem_starts ihl ho ihr
  | base h ih => exact isRead_base h.headKind_mem_starts ih
  | arrayLiteral ho _ hc ih => exact isRead_arrayLiteral ho ih hc
  | index _ ho _ hc iha ihi => exact isRead_index iha ho ihi hc
  | call ht ho _ hc ih => exact isRead_call ht ho ih hc
  | isTrue h | isFalse h | null h | string h | character h | identifier h =>
    intro rest
    rw [List.cons_append, Parsed.Gives, primary]
    simp [front?, h]
  | integer h hv | realNumber h hv =>
    intro rest
    rw [List.cons_append, Parsed.Gives, primary]
    simp [front?, h, literal, hv]
  | group ho _ hc ih => exact isRead_group ho ih hc
  | last _ ih => exact isRead_last ih
  | more _ ho _ ih ihs => exact isRead_more ih ho ihs
  | none => exact isRead_none
  | some h ih => exact isRead_some h.headKind_mem_starts ih
  | named h => exact isRead_named h
  | array ho _ hc ih => exact isRead_array ho ih hc
  | sizedArray ho _ hs _ hc iht ihe => exact isRead_sizedArray ho iht hs ihe hc
  | pointer ho _ ih => exact isRead_pointer ho ih

end FrontEnd.Grammar
