import FrontEnd.Grammar.Program
import FrontEnd.Proofs.Phrase.Basic

/-!
The grammar of statements, as productions over the grammar of expressions and types. `Forms` says
which token lists write a statement, a block, a sequence of statements with stray semicolons
between them, or what may stand behind the body of an `if`. A file is a sequence.
-/

set_option autoImplicit false

namespace FrontEnd.Grammar

/-! ### Parts of statements -/

/-- A name, a colon and a type. -/
inductive Typed : List Token → String → TypeExpr → Prop where
  | mk {n c : Token} {w : List Token} {t : TypeExpr} :
    n.kind = .identifier → c.kind = .colon → Derives .typeExpr w t → Typed (n :: c :: w) n.value t

inductive Initializer : List Token → Option Expr → Prop where
  | absent : Initializer [] none
  | present {o : Token} {w : List Token} {e : Expr} :
    o.kind = .equals → Derives .assignment w e → Initializer (o :: w) (some e)

/-- Fields, each with its semicolon. -/
inductive Fields : List Token → List Field → Prop where
  | nil : Fields [] []
  | cons {w v : List Token} {s : Token} {name : String} {t : TypeExpr} {fs : List Field} :
    Typed w name t → s.kind = .semicolon → Fields v fs → Fields (w ++ s :: v) (⟨name, t⟩ :: fs)

/-- An enum member whose value, if it has none of its own, is `next`. -/
inductive Member (next : Int64) : List Token → EnumMember → Prop where
  | counted {n : Token} : n.kind = .identifier → Member next [n] ⟨n.value, next⟩
  | valued {n o i : Token} {value : Int64} :
    n.kind = .identifier → o.kind = .equals → i.kind = .integer →
    Number.int64? i.value = some value → Member next [n, o, i] ⟨n.value, value⟩

/-- Enum members with commas between them and at most one behind the last; values count on from
`next`. -/
inductive Members : Int64 → List Token → List EnumMember → Prop where
  | nil {next : Int64} : Members next [] []
  | last {next : Int64} {w : List Token} {m : EnumMember} :
    Member next w m → Members next w [m]
  | more {next : Int64} {w v : List Token} {o : Token} {m : EnumMember} {ms : List EnumMember} :
    Member next w m → o.kind = .comma → Members (m.value + 1) v ms →
    Members next (w ++ o :: v) (m :: ms)

inductive LocalName : List Token → Option String → Prop where
  | absent : LocalName [] none
  | present {k n : Token} :
    k.kind = .kwAs → n.kind = .identifier → LocalName [k, n] (some n.value)

/-- A parameter is constant unless its type is marked. -/
inductive Parameter : List Token → Param → Prop where
  | constant {n c : Token} {w : List Token} {t : TypeExpr} :
    n.kind = .identifier → c.kind = .colon → Derives .typeExpr w t →
    Parameter (n :: c :: w) ⟨n.value, true, t⟩
  | marked {n c k : Token} {w : List Token} {t : TypeExpr} :
    n.kind = .identifier → c.kind = .colon → k.kind = .kwVar → Derives .typeExpr w t →
    Parameter (n :: c :: k :: w) ⟨n.value, false, t⟩

/-- Parameters with commas between them, at least one. -/
inductive Parameters : List Token → List Param → Prop where
  | last {w : List Token} {p : Param} : Parameter w p → Parameters w [p]
  | more {w v : List Token} {o : Token} {p : Param} {ps : List Param} :
    Parameter w p → o.kind = .comma → Parameters v ps → Parameters (w ++ o :: v) (p :: ps)

inductive ParameterList : List Token → List Param → Prop where
  | nil : ParameterList [] []
  | some {w : List Token} {ps : List Param} : Parameters w ps → ParameterList w ps

/-- A result type is `void` unless an arrow leads to another. -/
inductive ResultType : List Token → TypeExpr → Prop where
  | void : ResultType [] (.path "void" [])
  | some {o : Token} {w : List Token} {t : TypeExpr} :
    o.kind = .arrow → Derives .typeExpr w t → ResultType (o :: w) t

/-- The name of a function, with that of its owner before it if it has one. -/
inductive OwnedName : List Token → Option String → String → Prop where
  | free {n : Token} : n.kind = .identifier → OwnedName [n] none n.value
  | owned {n o m : Token} :
    n.kind = .identifier → o.kind = .scopeResolution → m.kind = .identifier →
    OwnedName [n, o, m] (some n.value) m.value

/-! ### Their tokens -/

theorem Typed.plain {w : List Token} {name : String} {t : TypeExpr} (h : Typed w name t) :
    Plain w := by
  cases h with
  | mk hn hc ht => simp [hn, hc, ht.plain trivial, outerKinds]

theorem Initializer.plain {w : List Token} {i : Option Expr} (h : Initializer w i) : Plain w := by
  cases h with
  | absent => simp
  | present ho he => simp [ho, he.plain trivial, outerKinds]

theorem Fields.plain {w : List Token} {fs : List Field} (h : Fields w fs) : Plain w := by
  induction h with
  | nil => simp
  | cons hw hs _ ih => simp [hw.plain, hs, ih, outerKinds]

theorem Member.plain {next : Int64} {w : List Token} {m : EnumMember} (h : Member next w m) :
    Plain w := by
  cases h <;> simp_all [outerKinds]

theorem Members.plain {next : Int64} {w : List Token} {ms : List EnumMember}
    (h : Members next w ms) : Plain w := by
  induction h with
  | nil => simp
  | last hm => exact hm.plain
  | more hm ho _ ih => simp [hm.plain, ho, ih, outerKinds]

theorem LocalName.plain {w : List Token} {a : Option String} (h : LocalName w a) : Plain w := by
  cases h <;> simp_all [outerKinds]

theorem Parameter.plain {w : List Token} {p : Param} (h : Parameter w p) : Plain w := by
  cases h with
  | constant hn hc ht => simp [hn, hc, ht.plain trivial, outerKinds]
  | marked hn hc hk ht => simp [hn, hc, hk, ht.plain trivial, outerKinds]

theorem Parameters.plain {w : List Token} {ps : List Param} (h : Parameters w ps) : Plain w := by
  induction h with
  | last hp => exact hp.plain
  | more hp ho _ ih => simp [hp.plain, ho, ih, outerKinds]

theorem ParameterList.plain {w : List Token} {ps : List Param} (h : ParameterList w ps) :
    Plain w := by
  cases h with
  | nil => simp
  | some h => exact h.plain

theorem ResultType.plain {w : List Token} {t : TypeExpr} (h : ResultType w t) : Plain w := by
  cases h with
  | void => simp
  | some ho ht => simp [ho, ht.plain trivial, outerKinds]

theorem OwnedName.plain {w : List Token} {owner : Option String} {name : String}
    (h : OwnedName w owner name) : Plain w := by
  cases h <;> simp_all [outerKinds]

/-! ### Statements -/

/-- What statements are made of. -/
inductive Clause where
  | statement
  | block
  | sequence
  | otherwise

abbrev Clause.Tree : Clause → Type
  | .statement => Stmt
  | .otherwise => Otherwise
  | _ => List Stmt

/-- The tokens `w` write the tree `s`. -/
inductive Forms : (c : Clause) → (w : List Token) → (s : c.Tree) → Prop where
  | namespaceDecl {k : Token} {w v : List Token} {name : String} {inner : List String}
      {body : List Stmt} :
    k.kind = .kwNamespace → Names w name inner → Forms .block v body →
    Forms .statement (k :: (w ++ v)) (nested name inner body)
  | functionDecl {k o c : Token} {w v x y : List Token} {owner : Option String} {name : String}
      {ps : List Param} {t : TypeExpr} {body : List Stmt} :
    k.kind = .kwFunc → OwnedName w owner name → o.kind = .lParen → ParameterList v ps →
    c.kind = .rParen → ResultType x t → Forms .block y body →
    Forms .statement (k :: (w ++ o :: (v ++ c :: (x ++ y)))) (.functionDecl owner name ps t body)
  | variableDecl {k s : Token} {constant : Bool} {w v : List Token} {name : String} {t : TypeExpr}
      {i : Option Expr} :
    k.kind = (if constant then .kwLet else .kwVar) → Typed w name t → Initializer v i →
    s.kind = .semicolon →
    Forms .statement (k :: (w ++ (v ++ [s]))) (.variableDecl constant name t i)
  | structDecl {k n o c : Token} {w : List Token} {fs : List Field} :
    k.kind = .kwStruct → n.kind = .identifier → o.kind = .lBrace → Fields w fs → c.kind = .rBrace →
    Forms .statement (k :: n :: o :: (w ++ [c])) (.structDecl n.value fs)
  | unionDecl {k n o c : Token} {w : List Token} {fs : List Field} :
    k.kind = .kwUnion → n.kind = .identifier → o.kind = .lBrace → Fields w fs → c.kind = .rBrace →
    Forms .statement (k :: n :: o :: (w ++ [c])) (.unionDecl n.value fs)
  | enumDecl {k n o c : Token} {w : List Token} {ms : List EnumMember} :
    k.kind = .kwEnum → n.kind = .identifier → o.kind = .lBrace → Members 0 w ms →
    c.kind = .rBrace → Forms .statement (k :: n :: o :: (w ++ [c])) (.enumDecl n.value ms)
  | usingDecl {k n s : Token} {w : List Token} {a : Option String} :
    k.kind = .kwUsing → n.kind = .identifier → LocalName w a → s.kind = .semicolon →
    Forms .statement (k :: n :: (w ++ [s])) (.usingDecl n.value a)
  | ifElse {k : Token} {w v x : List Token} {c : Expr} {b : List Stmt} {o : Otherwise} :
    k.kind = .kwIf → Derives .assignment w c → Forms .block v b → Forms .otherwise x o →
    Forms .statement (k :: (w ++ (v ++ x))) (.ifElse c b o)
  | whileLoop {k : Token} {w v : List Token} {c : Expr} {b : List Stmt} :
    k.kind = .kwWhile → Derives .assignment w c → Forms .block v b →
    Forms .statement (k :: (w ++ v)) (.whileLoop c b)
  | doWhile {k l s : Token} {w v : List Token} {c : Expr} {b : List Stmt} :
    k.kind = .kwDo → Forms .block w b → l.kind = .kwWhile → Derives .assignment v c →
    s.kind = .semicolon → Forms .statement (k :: (w ++ l :: (v ++ [s]))) (.doWhile b c)
  | forLoop {k : Token} {w v x y : List Token} {i c : Stmt} {e : Expr} {b : List Stmt} :
    k.kind = .kwFor → Forms .statement w i → Forms .statement v c → Derives .assignment x e →
    Forms .block y b → Forms .statement (k :: (w ++ (v ++ (x ++ y)))) (.forLoop i c e b)
  | breakLoop {k s : Token} :
    k.kind = .kwBreak → s.kind = .semicolon → Forms .statement [k, s] .breakLoop
  | continueLoop {k s : Token} :
    k.kind = .kwContinue → s.kind = .semicolon → Forms .statement [k, s] .continueLoop
  | returnNothing {k s : Token} :
    k.kind = .kwReturn → s.kind = .semicolon → Forms .statement [k, s] (.returnValue none)
  | returnValue {k s : Token} {w : List Token} {e : Expr} :
    k.kind = .kwReturn → Derives .assignment w e → s.kind = .semicolon →
    Forms .statement (k :: (w ++ [s])) (.returnValue (some e))
  | free {k s : Token} {w : List Token} {e : Expr} :
    k.kind = .kwFree → Derives .access w e → s.kind = .semicolon →
    Forms .statement (k :: (w ++ [s])) (.free e)
  | assembly {k o c : Token} {w : List Token} :
    k.kind = .kwAsm → o.kind = .lBrace → (∀ t ∈ w, t.kind = .string) → c.kind = .rBrace →
    Forms .statement (k :: o :: (w ++ [c])) (.assembly (w.map (·.value)))
  | expression {s : Token} {w : List Token} {e : Expr} :
    Derives .assignment w e → s.kind = .semicolon → Forms .statement (w ++ [s]) (.expression e)
  | block {o c : Token} {w : List Token} {b : List Stmt} :
    o.kind = .lBrace → Forms .sequence w b → c.kind = .rBrace → Forms .block (o :: (w ++ [c])) b
  | nil : Forms .sequence [] []
  | stray {s : Token} {w : List Token} {b : List Stmt} :
    s.kind = .semicolon → Forms .sequence w b → Forms .sequence (s :: w) b
  | cons {w v : List Token} {s : Stmt} {b : List Stmt} :
    Forms .statement w s → Forms .sequence v b → Forms .sequence (w ++ v) (s :: b)
  | nothing : Forms .otherwise [] .nothing
  | elseBlock {k : Token} {w : List Token} {b : List Stmt} :
    k.kind = .kwElse → Forms .block w b → Forms .otherwise (k :: w) (.block b)
  | elseIf {k i : Token} {w v x : List Token} {c : Expr} {b : List Stmt} {o : Otherwise} :
    k.kind = .kwElse → i.kind = .kwIf → Derives .assignment w c → Forms .block v b →
    Forms .otherwise x o → Forms .otherwise (k :: i :: (w ++ (v ++ x))) (.elseIf c b o)

/-- The grammar forms nothing from the end of input. -/
theorem Forms.not_eof {c : Clause} {w : List Token} {s : c.Tree} (h : Forms c w s) :
    ∀ t ∈ w, t.kind ≠ .eof := by
  induction h with
  | namespaceDecl hk hn _ ih =>
    have := hn.plain.not_eof
    grind
  | functionDecl hk hw ho hv hc hx _ ih =>
    have := hw.plain.not_eof
    have := hv.plain.not_eof
    have := hx.plain.not_eof
    grind
  | variableDecl hk hw hv hs =>
    have := hw.plain.not_eof
    have := hv.plain.not_eof
    grind
  | structDecl hk hn ho hw hc | unionDecl hk hn ho hw hc =>
    have := hw.plain.not_eof
    grind
  | enumDecl hk hn ho hw hc =>
    have := hw.plain.not_eof
    grind
  | usingDecl hk hn hw hs =>
    have := hw.plain.not_eof
    grind
  | ifElse hk hw _ _ ihb iho | whileLoop hk hw _ ih | doWhile hk _ hl hw hs ih
  | forLoop hk _ _ hw _ | elseIf hk hi hw _ _ | returnValue hk hw hs | free hk hw hs
  | expression hw hs =>
    have := (hw.plain trivial).not_eof
    grind
  | _ => grind

end FrontEnd.Grammar
