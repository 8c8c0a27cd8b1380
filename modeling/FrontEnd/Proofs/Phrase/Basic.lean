import FrontEnd.Grammar.Expression
import FrontEnd.Proofs.Reading

/-!
The grammar of expressions and types, as productions and apart from any way to read them. A phrase
is a level of the grammar; `Derives` says which token lists write which tree at that level. Binary
operators, casts and subscripts nest to the left, assignments to the right.
-/

set_option autoImplicit false

namespace FrontEnd.Grammar

/-- Names with double colons between them. -/
inductive Names : List Token → String → List String → Prop where
  | one {t : Token} : t.kind = .identifier → Names [t] t.value []
  | more {t o : Token} {w : List Token} {head : String} {tail : List String} :
    t.kind = .identifier → o.kind = .scopeResolution → Names w head tail →
    Names (t :: o :: w) t.value (head :: tail)

/-- The levels of the grammar. A binary level has the operators of `ladder` to join operands with,
the loosest first. A chain is a postfix expression without members, `elements` is a list that is
not empty, and `list` is any list. -/
inductive Phrase where
  | assignment
  | binary (ladder : List (List TokenKind))
  | cast
  | unary
  | access
  | chain
  | primary
  | elements
  | list
  | typeExpr

/-- What the phrases of a level write. -/
abbrev Phrase.Tree : Phrase → Type
  | .elements | .list => List Expr
  | .typeExpr => TypeExpr
  | _ => Expr

/-- The operators that assign. -/
def Phrase.assigning : List TokenKind := [
  .equals, .plusEquals, .minusEquals, .multiplyEquals, .divideEquals, .moduloEquals, .andEquals,
  .orEquals, .xorEquals, .leftShiftEquals, .rightShiftEquals]

/-- The operators that join two operands, the loosest first. -/
def Phrase.ladder : List (List TokenKind) := [
  [.logicalOr],
  [.logicalAnd],
  [.bitwiseOr],
  [.caret],
  [.ampersand],
  [.equalsEquals, .bangEquals],
  [.greater, .greaterEquals, .less, .lessEquals],
  [.bitwiseShiftLeft, .bitwiseShiftRight],
  [.plus, .minus],
  [.asterisk, .slash, .modulo]]

/-- The tokens `w` write the tree `e` at a level of the grammar. -/
inductive Derives : (p : Phrase) → (w : List Token) → (e : p.Tree) → Prop where
  | operand {w : List Token} {e : Expr} :
    Derives (.binary Phrase.ladder) w e → Derives .assignment w e
  | assign {w v : List Token} {o : Token} {l r : Expr} :
    Derives (.binary Phrase.ladder) w l → o.kind ∈ Phrase.assigning →
    Derives .assignment v r → Derives .assignment (w ++ o :: v) (.binary o.kind l r)
  | casted {w : List Token} {e : Expr} : Derives .cast w e → Derives (.binary []) w e
  | tighter {w : List Token} {e : Expr} {kinds : List TokenKind} {ladder : List (List TokenKind)} :
    Derives (.binary ladder) w e → Derives (.binary (kinds :: ladder)) w e
  | operate {w v : List Token} {o : Token} {l r : Expr} {kinds : List TokenKind}
      {ladder : List (List TokenKind)} :
    Derives (.binary (kinds :: ladder)) w l → o.kind ∈ kinds → Derives (.binary ladder) v r →
    Derives (.binary (kinds :: ladder)) (w ++ o :: v) (.binary o.kind l r)
  | uncast {w : List Token} {e : Expr} : Derives .unary w e → Derives .cast w e
  | castTo {w v : List Token} {o : Token} {e : Expr} {t : TypeExpr} :
    Derives .cast w e → o.kind = .kwAs → Derives .typeExpr v t →
    Derives .cast (w ++ o :: v) (.cast e t)
  | unmarked {w : List Token} {e : Expr} : Derives .access w e → Derives .unary w e
  | addressOf {w : List Token} {o : Token} {e : Expr} :
    o.kind = .ampersand → Derives .access w e → Derives .unary (o :: w) (.addressOf e)
  | dereference {w : List Token} {o : Token} {e : Expr} :
    o.kind = .caret → Derives .access w e → Derives .unary (o :: w) (.dereference e)
  | new {w : List Token} {o : Token} {t : TypeExpr} :
    o.kind = .kwNew → Derives .typeExpr w t → Derives .unary (o :: w) (.new t)
  | marked {w : List Token} {o : Token} {e : Expr} :
    o.kind = .bang ∨ o.kind = .minus → Derives .unary w e →
    Derives .unary (o :: w) (.unary o.kind e)
  | chained {w : List Token} {e : Expr} : Derives .chain w e → Derives .access w e
  | member {w v : List Token} {o : Token} {l r : Expr} :
    Derives .chain w l → o.kind = .dot → Derives .access v r →
    Derives .access (w ++ o :: v) (.member l r)
  | arrow {w v : List Token} {o : Token} {l r : Expr} :
    Derives .chain w l → o.kind = .arrow → Derives .access v r →
    Derives .access (w ++ o :: v) (.member (.dereference l) r)
  | qualified {w v : List Token} {o : Token} {l r : Expr} :
    Derives .primary w l → o.kind = .scopeResolution → Derives .access v r →
    Derives .access (w ++ o :: v) (.qualified l r)
  | base {w : List Token} {e : Expr} : Derives .primary w e → Derives .chain w e
  | arrayLiteral {w : List Token} {o c : Token} {es : List Expr} :
    o.kind = .lBracket → Derives .list w es → c.kind = .rBracket →
    Derives .chain (o :: (w ++ [c])) (.arrayLiteral es)
  | index {w v : List Token} {o c : Token} {a i : Expr} :
    Derives .chain w a → o.kind = .lBracket → Derives .assignment v i → c.kind = .rBracket →
    Derives .chain (w ++ o :: (v ++ [c])) (.index a i)
  | call {w : List Token} {t o c : Token} {es : List Expr} :
    t.kind = .identifier → o.kind = .lParen → Derives .list w es → c.kind = .rParen →
    Derives .chain (t :: o :: (w ++ [c])) (.call t.value es)
  | isTrue {t : Token} : t.kind = .kwTrue → Derives .primary [t] (.boolean true)
  | isFalse {t : Token} : t.kind = .kwFalse → Derives .primary [t] (.boolean false)
  | null {t : Token} : t.kind = .kwNull → Derives .primary [t] .null
  | integer {t : Token} {value : Int64} :
    t.kind = .integer → Number.int64? t.value = some value → Derives .primary [t] (.integer value)
  | realNumber {t : Token} {value : Number.Binary64} :
    t.kind = .realNumber → Number.Binary64.ofText? t.value = some value →
    Derives .primary [t] (.realNumber value)
  | string {t : Token} : t.kind = .string → Derives .primary [t] (.string t.value)
  | character {t : Token} : t.kind = .character → Derives .primary [t] (.character t.value)
  | identifier {t : Token} : t.kind = .identifier → Derives .primary [t] (.identifier t.value)
  | group {w : List Token} {o c : Token} {e : Expr} :
    o.kind = .lParen → Derives .assignment w e → c.kind = .rParen →
    Derives .primary (o :: (w ++ [c])) (.group e)
  | last {w : List Token} {e : Expr} : Derives .assignment w e → Derives .elements w [e]
  | more {w v : List Token} {o : Token} {e : Expr} {es : List Expr} :
    Derives .assignment w e → o.kind = .comma → Derives .elements v es →
    Derives .elements (w ++ o :: v) (e :: es)
  | none : Derives .list [] []
  | some {w : List Token} {es : List Expr} : Derives .elements w es → Derives .list w es
  | named {w : List Token} {head : String} {tail : List String} :
    Names w head tail → Derives .typeExpr w (.path head tail)
  | array {w : List Token} {o c : Token} {t : TypeExpr} :
    o.kind = .lBracket → Derives .typeExpr w t → c.kind = .rBracket →
    Derives .typeExpr (o :: (w ++ [c])) (.array t)
  | sizedArray {w v : List Token} {o s c : Token} {t : TypeExpr} {e : Expr} :
    o.kind = .lBracket → Derives .typeExpr w t → s.kind = .comma → Derives .assignment v e →
    c.kind = .rBracket → Derives .typeExpr (o :: (w ++ s :: (v ++ [c]))) (.sizedArray t e)
  | pointer {w : List Token} {o : Token} {t : TypeExpr} :
    o.kind = .caret → Derives .typeExpr w t → Derives .typeExpr (o :: w) (.pointer t)

/-! ### First tokens -/

namespace Phrase

/-- The kinds of token that a primary expression starts with. -/
def primaryStarts : List TokenKind :=
  [.kwTrue, .kwFalse, .kwNull, .integer, .realNumber, .string, .character, .identifier, .lParen]

/-- The kinds of token that a phrase starts with; a list may be empty. -/
def starts : Phrase → List TokenKind
  | .primary => primaryStarts
  | .chain | .access => .lBracket :: primaryStarts
  | .typeExpr => [.identifier, .lBracket, .caret]
  | .list => .eof :: Precedence.prefixUnary.operators ++ .lBracket :: primaryStarts
  | _ => Precedence.prefixUnary.operators ++ .lBracket :: primaryStarts

theorem eof_not_mem_starts {p : Phrase} (h : p ≠ .list) : .eof ∉ p.starts := by
  cases p <;> simp_all [starts, primaryStarts, Precedence.operators]

end Phrase

theorem Names.headKind {w : List Token} {head : String} {tail : List String}
    (h : Names w head tail) : headKind w = .identifier := by
  cases h <;> assumption

theorem headKind_append_mem_starts {p : Phrase} (hp : p ≠ .list) {w : List Token}
    (v : List Token) (h : headKind w ∈ p.starts) : headKind (w ++ v) ∈ p.starts := by
  rwa [headKind_append v fun hw => Phrase.eof_not_mem_starts hp (hw ▸ h)]

/-- A phrase starts with one of the tokens that its level starts with. -/
theorem Derives.headKind_mem_starts {p : Phrase} {w : List Token} {e : p.Tree}
    (h : Derives p w e) : headKind w ∈ p.starts := by
  induction h with
  | operand _ ih | casted _ ih | tighter _ ih | uncast _ ih | chained _ ih | last _ ih => exact ih
  | unmarked _ ih => exact List.mem_append_right _ ih
  | base _ ih | some _ ih => exact List.mem_cons_of_mem _ ih
  | assign _ _ _ ih | operate _ _ _ ih | castTo _ _ _ ih | member _ _ _ ih | arrow _ _ _ ih
  | more _ _ _ ih | index _ _ _ _ ih =>
    exact headKind_append_mem_starts (by simp) _ ih
  | qualified _ _ _ ih =>
    exact List.mem_cons_of_mem _ (headKind_append_mem_starts (p := .primary) (by simp) _ ih)
  | marked ho =>
    rcases ho with ho | ho <;> simp [Phrase.starts, Precedence.operators, ho]
  | named h => simp [Phrase.starts, h.headKind]
  | none => simp [Phrase.starts]
  | addressOf h | dereference h | new h | arrayLiteral h | call h | isTrue h | isFalse h | null h
  | integer h | realNumber h | string h | character h | identifier h | group h | array h
  | sizedArray h | pointer h =>
    simp [Phrase.starts, Phrase.primaryStarts, Precedence.operators, h]

/-! ### Tokens without structure -/

/-- The kinds of token that no phrase contains: braces and the end of input. -/
def outerKinds : List TokenKind := [.eof, .lBrace, .rBrace]

/-- No token is a brace or the end of input. -/
def Plain (w : List Token) : Prop := ∀ t ∈ w, t.kind ∉ outerKinds

@[simp] theorem plain_nil : Plain [] := by simp [Plain]

@[simp] theorem plain_cons {t : Token} {w : List Token} :
    Plain (t :: w) ↔ t.kind ∉ outerKinds ∧ Plain w := by simp [Plain]

@[simp] theorem plain_append {w v : List Token} : Plain (w ++ v) ↔ Plain w ∧ Plain v := by
  simp [Plain, or_imp, forall_and]

theorem plain_of_kind {t : Token} {kind : TokenKind} (h : t.kind = kind)
    (hk : kind ∉ outerKinds) : t.kind ∉ outerKinds := h ▸ hk

theorem Plain.not_eof {w : List Token} (h : Plain w) : ∀ t ∈ w, t.kind ≠ .eof :=
  fun t ht he => h t ht (by simp [he, outerKinds])

/-- The kinds of token that phrases contain. -/
def Phrase.kinds : List TokenKind :=
  Phrase.assigning ++ Phrase.ladder.flatten ++ Precedence.prefixUnary.operators ++ primaryStarts ++
    [.kwAs, .dot, .arrow, .scopeResolution, .lBracket, .rBracket, .rParen, .comma]

theorem Phrase.kinds_not_outer : ∀ kind ∈ Phrase.kinds, kind ∉ outerKinds := by decide

theorem Names.kind_mem {w : List Token} {head : String} {tail : List String}
    (h : Names w head tail) : ∀ t ∈ w, t.kind ∈ Phrase.kinds := by
  induction h with
  | one ht => simp [ht, Phrase.kinds, Phrase.primaryStarts]
  | more ht ho _ ih => simpa [ht, ho, Phrase.kinds, Phrase.primaryStarts] using ih

theorem Names.plain {w : List Token} {head : String} {tail : List String}
    (h : Names w head tail) : Plain w := fun t ht => Phrase.kinds_not_outer _ (h.kind_mem t ht)

/-- The operators of a binary level are the tightest of the grammar. -/
def Phrase.Proper : Phrase → Prop
  | .binary ladder => ladder <:+ Phrase.ladder
  | _ => True

theorem Phrase.Proper.of_cons {kinds : List TokenKind} {ladder : List (List TokenKind)}
    (h : (Phrase.binary (kinds :: ladder)).Proper) : (Phrase.binary ladder).Proper :=
  (List.suffix_cons kinds ladder).trans h

theorem Phrase.Proper.kinds {kinds : List TokenKind} {ladder : List (List TokenKind)}
    (h : (Phrase.binary (kinds :: ladder)).Proper) : ∀ kind ∈ kinds, kind ∈ Phrase.kinds := by
  have hd : ∀ kinds ∈ Phrase.ladder, ∀ kind ∈ kinds, kind ∈ Phrase.kinds := by decide
  exact hd kinds (h.subset (List.mem_cons_self ..))

theorem Derives.kind_mem {p : Phrase} {w : List Token} {e : p.Tree} (h : Derives p w e)
    (hp : p.Proper) : ∀ t ∈ w, t.kind ∈ Phrase.kinds := by
  have hd : ∀ kind ∈ Phrase.assigning, kind ∈ Phrase.kinds := by decide
  induction h with
  | operand _ ih => exact ih List.suffix_rfl
  | assign _ ho _ ihl ihr =>
    exact List.forall_mem_append.2
      ⟨ihl List.suffix_rfl, List.forall_mem_cons.2 ⟨hd _ ho, ihr trivial⟩⟩
  | casted _ ih => exact ih trivial
  | tighter _ ih => exact ih hp.of_cons
  | operate _ ho _ ihl ihr =>
    exact List.forall_mem_append.2
      ⟨ihl hp, List.forall_mem_cons.2 ⟨hp.kinds _ ho, ihr hp.of_cons⟩⟩
  | named h => exact h.kind_mem
  | none => simp
  | marked ho _ ih =>
    rcases ho with ho | ho <;> exact List.forall_mem_cons.2 ⟨by rw [ho]; decide, ih trivial⟩
  | _ => simp_all +decide [Phrase.Proper, or_imp]

theorem Derives.plain {p : Phrase} {w : List Token} {e : p.Tree} (h : Derives p w e)
    (hp : p.Proper) : Plain w := fun t ht => Phrase.kinds_not_outer _ (h.kind_mem hp t ht)

end FrontEnd.Grammar
