import FrontEnd.Proofs.Outline.Legible
import FrontEnd.Tree.Equality
import Mathlib.Data.List.Nodup

/-!
Legible trees with one outline are equal, and equal as values. The first word of a label tells the
form of a tree, and the rest of the label and the children tell its parts.
-/

set_option autoImplicit false

namespace FrontEnd

/-! ### Labels -/

@[simp] theorem isWordChar_space : Segment.isWordChar ' ' = false := rfl

@[simp] theorem isWordChar_colon : Segment.isWordChar ':' = false := rfl

/-- A name ends where a character follows that is in no name. -/
theorem IsName.append_inj {a b s t : String} (ha : IsName a) (hb : IsName b)
    (hs : ∀ c ∈ s.toList.head?, Segment.isWordChar c = false)
    (ht : ∀ c ∈ t.toList.head?, Segment.isWordChar c = false) (h : a ++ s = b ++ t) :
    a = b ∧ s = t := by
  have hl := congrArg String.toList h
  rw [String.toList_append, String.toList_append] at hl
  have hsa := Segment.run_append ha.word.2 hs
  rw [hl, (Segment.run_append hb.word.2 ht).1, (Segment.run_append hb.word.2 ht).2] at hsa
  exact ⟨String.toList_inj.1 hsa.1.symm, String.toList_inj.1 hsa.2.symm⟩

theorem Number.int64Text_injective {m n : Int64} (h : int64Text m = int64Text n) : m = n := by
  have hm := int64?_int64Text m
  rw [h, int64?_int64Text n] at hm
  exact (Option.some.inj hm).symm

theorem spelling_inj {j k : TokenKind} (hj : j ∈ TokenKind.operators)
    (hk : k ∈ TokenKind.operators) (h : j.spelling = k.spelling) : j = k := by
  have hn : (TokenKind.operators.map TokenKind.spelling).Nodup := by decide +kernel
  exact List.inj_on_of_nodup_map hn hj hk h

/-! ### Legible trees with one outline -/

/-- The first word of the label. -/
def Outline.word : Outline → List Char
  | .node label _ => label.toList.takeWhile (· ≠ ' ')

theorem Expr.word_outline (e : Expr) : e.outline.word = e.word.toList := by
  cases e <;> simp [Expr.outline, Outline.word, Expr.word]

theorem TypeExpr.word_outline (t : TypeExpr) : t.outline.word = t.word.toList := by
  cases t with
  | path head tail =>
    cases tail <;> simp [TypeExpr.outline, TypeExpr.pathOutline, Outline.word, TypeExpr.word]
  | _ => simp [TypeExpr.outline, Outline.word, TypeExpr.word]

/-- The words for expressions, in the order of their forms. -/
def Expr.words : List String := ["Boolean", "Integer", "RealNumber", "String", "Character",
  "Identifier", "Null", "UnaryOperation", "BinaryOperation", "GroupingExpression", "Cast",
  "FunctionCall", "AddressOf", "PointerDereference", "New", "ArrayInitializer", "ArrayAccess",
  "MemberAccess", "ScopeResolution"]

theorem Expr.ctorIdx_eq_idxOf (e : Expr) : e.ctorIdx = Expr.words.idxOf e.word := by
  cases e <;> rfl

/-- Expressions with one outline have one form. -/
theorem Expr.ctorIdx_eq {e f : Expr} (h : e.outline = f.outline) : e.ctorIdx = f.ctorIdx := by
  have hw := congrArg Outline.word h
  rw [Expr.word_outline, Expr.word_outline, String.toList_inj] at hw
  rw [Expr.ctorIdx_eq_idxOf, Expr.ctorIdx_eq_idxOf, hw]

theorem TypeExpr.pathOutline_inj {h₁ h₂ : String} {t₁ t₂ : List String}
    (h : TypeExpr.pathOutline h₁ t₁ = TypeExpr.pathOutline h₂ t₂) : h₁ = h₂ ∧ t₁ = t₂ := by
  induction t₁ generalizing h₁ h₂ t₂ with
  | nil =>
    cases t₂ with
    | nil => simpa [TypeExpr.pathOutline] using h
    | cons n t₂ => simp [TypeExpr.pathOutline] at h
  | cons m t₁ ih =>
    cases t₂ with
    | nil => simp [TypeExpr.pathOutline] at h
    | cons n t₂ =>
      simp only [TypeExpr.pathOutline, Outline.node.injEq, List.cons.injEq, String.append_right_inj,
        and_true, true_and] at h
      obtain ⟨rfl, rfl⟩ := ih h.2
      exact ⟨h.1, rfl⟩

theorem one_inj {v w : String} {o p : Outline} (h : Outline.node v [o] = .node w [p]) : o = p :=
  (List.cons.inj (Outline.node.inj h).2).1

theorem two_inj {v w : String} {o o' p p' : Outline}
    (h : Outline.node v [o, o'] = .node w [p, p']) : o = p ∧ o' = p' := by
  simpa using (Outline.node.inj h).2

/-- The word tells the form of a type but for the size of an array. -/
theorem TypeExpr.word_eq {t u : TypeExpr} (h : t.outline = u.outline) : t.word = u.word := by
  have hw := congrArg Outline.word h
  rwa [TypeExpr.word_outline, TypeExpr.word_outline, String.toList_inj] at hw

mutual

theorem TypeExpr.eq_of_outline : ∀ (t u : TypeExpr), t.Legible → u.Legible →
    t.outline = u.outline → t = u
  | .path head tail, u, ht, hu, h => by
    have hw := TypeExpr.word_eq h
    cases u with
    | path head' tail' =>
      obtain ⟨rfl, rfl⟩ := TypeExpr.pathOutline_inj h
      rfl
    | _ => cases tail <;> simp [TypeExpr.word] at hw
  | .array element, u, ht, hu, h => by
    have hw := TypeExpr.word_eq h
    cases u with
    | path head' tail' => cases tail' <;> simp [TypeExpr.word] at hw
    | array element' => rw [element.eq_of_outline element' ht hu (one_inj h)]
    | sizedArray element' size' => simp [TypeExpr.outline] at h
    | pointer pointee' => simp [TypeExpr.word] at hw
  | .sizedArray element size, u, ht, hu, h => by
    have hw := TypeExpr.word_eq h
    cases u with
    | path head' tail' => cases tail' <;> simp [TypeExpr.word] at hw
    | array element' => simp [TypeExpr.outline] at h
    | sizedArray element' size' =>
      rw [element.eq_of_outline element' ht.1 hu.1 (two_inj h).1,
        size.eq_of_outline size' ht.2 hu.2 (one_inj (two_inj h).2)]
    | pointer pointee' => simp [TypeExpr.word] at hw
  | .pointer pointee, u, ht, hu, h => by
    have hw := TypeExpr.word_eq h
    cases u with
    | path head' tail' => cases tail' <;> simp [TypeExpr.word] at hw
    | pointer pointee' => rw [pointee.eq_of_outline pointee' ht hu (one_inj h)]
    | _ => simp [TypeExpr.word] at hw

theorem Expr.eq_of_outline : ∀ (e f : Expr), e.Legible → f.Legible →
    e.outline = f.outline → e = f
  | .boolean value, f, he, hf, h => by
    cases f with
    | boolean value' => cases value <;> cases value' <;> first | rfl | simp [Expr.outline] at h
    -- every other form has another word
    | _ => cases Expr.ctorIdx_eq h
  | .integer value, f, he, hf, h => by
    cases f with
    | integer value' =>
      simp only [Expr.outline, Outline.node.injEq, String.append_right_inj] at h
      rw [Number.int64Text_injective h.1]
    | _ => cases Expr.ctorIdx_eq h
  | .realNumber value, f, he, hf, h => by
    cases f with
    | realNumber value' =>
      simp only [Expr.outline, Outline.node.injEq, String.append_right_inj] at h
      rw [Number.Binary64.text_injective he hf h.1]
    | _ => cases Expr.ctorIdx_eq h
  | .string value, f, he, hf, h => by
    cases f with
    | string value' =>
      simp only [Expr.outline, Outline.node.injEq, String.append_left_inj,
        String.append_right_inj] at h
      rw [h.1]
    | _ => cases Expr.ctorIdx_eq h
  | .character value, f, he, hf, h => by
    cases f with
    | character value' =>
      simp only [Expr.outline, Outline.node.injEq, String.append_left_inj,
        String.append_right_inj] at h
      rw [h.1]
    | _ => cases Expr.ctorIdx_eq h
  | .identifier name, f, he, hf, h => by
    cases f with
    | identifier name' =>
      simp only [Expr.outline, Outline.node.injEq, String.append_right_inj] at h
      rw [h.1]
    | _ => cases Expr.ctorIdx_eq h
  | .null, f, he, hf, h => by
    cases f with
    | null => rfl
    | _ => cases Expr.ctorIdx_eq h
  | .unary operator operand, f, he, hf, h => by
    cases f with
    | unary operator' operand' =>
      simp only [Expr.outline, Outline.node.injEq, String.append_right_inj, List.cons.injEq,
        and_true] at h
      rw [spelling_inj he.1 hf.1 h.1, operand.eq_of_outline operand' he.2 hf.2 h.2]
    | _ => cases Expr.ctorIdx_eq h
  | .binary operator left right, f, he, hf, h => by
    cases f with
    | binary operator' left' right' =>
      simp only [Expr.outline, Outline.node.injEq, String.append_right_inj, List.cons.injEq,
        and_true] at h
      rw [spelling_inj he.1 hf.1 h.1, left.eq_of_outline left' he.2.1 hf.2.1 h.2.1,
        right.eq_of_outline right' he.2.2 hf.2.2 h.2.2]
    | _ => cases Expr.ctorIdx_eq h
  | .group inner, f, he, hf, h => by
    cases f with
    | group inner' => rw [inner.eq_of_outline inner' he hf (one_inj h)]
    | _ => cases Expr.ctorIdx_eq h
  | .cast operand target, f, he, hf, h => by
    cases f with
    | cast operand' target' =>
      rw [operand.eq_of_outline operand' he.1 hf.1 (two_inj h).1,
        target.eq_of_outline target' he.2 hf.2 (one_inj (two_inj h).2)]
    | _ => cases Expr.ctorIdx_eq h
  | .call name arguments, f, he, hf, h => by
    cases f with
    | call name' arguments' =>
      simp only [Expr.outline, Outline.node.injEq, String.append_right_inj] at h
      rw [h.1, Expr.eq_of_outlines arguments arguments' he.2 hf.2 h.2]
    | _ => cases Expr.ctorIdx_eq h
  | .addressOf operand, f, he, hf, h => by
    cases f with
    | addressOf operand' => rw [operand.eq_of_outline operand' he hf (one_inj h)]
    | _ => cases Expr.ctorIdx_eq h
  | .dereference operand, f, he, hf, h => by
    cases f with
    | dereference operand' => rw [operand.eq_of_outline operand' he hf (one_inj h)]
    | _ => cases Expr.ctorIdx_eq h
  | .new type, f, he, hf, h => by
    cases f with
    | new type' => rw [type.eq_of_outline type' he hf (one_inj h)]
    | _ => cases Expr.ctorIdx_eq h
  | .arrayLiteral elements, f, he, hf, h => by
    cases f with
    | arrayLiteral elements' =>
      rw [Expr.eq_of_outlines elements elements' he hf (Outline.node.inj h).2]
    | _ => cases Expr.ctorIdx_eq h
  | .index array subscript, f, he, hf, h => by
    cases f with
    | index array' subscript' =>
      rw [array.eq_of_outline array' he.1 hf.1 (two_inj h).1,
        subscript.eq_of_outline subscript' he.2 hf.2 (one_inj (two_inj h).2)]
    | _ => cases Expr.ctorIdx_eq h
  | .member left right, f, he, hf, h => by
    cases f with
    | member left' right' =>
      rw [left.eq_of_outline left' he.1 hf.1 (two_inj h).1,
        right.eq_of_outline right' he.2 hf.2 (two_inj h).2]
    | _ => cases Expr.ctorIdx_eq h
  | .qualified left right, f, he, hf, h => by
    cases f with
    | qualified left' right' =>
      rw [left.eq_of_outline left' he.1 hf.1 (two_inj h).1,
        right.eq_of_outline right' he.2 hf.2 (two_inj h).2]
    | _ => cases Expr.ctorIdx_eq h

theorem Expr.eq_of_outlines : ∀ (es fs : List Expr), Expr.AllLegible es → Expr.AllLegible fs →
    Expr.outlines es = Expr.outlines fs → es = fs
  | [], [], _, _, _ => rfl
  | [], f :: fs, _, _, h => by cases h
  | e :: es, [], _, _, h => by cases h
  | e :: es, f :: fs, he, hf, h => by
    obtain ⟨hhead, htail⟩ := List.cons.inj h
    rw [e.eq_of_outline f he.1 hf.1 hhead, Expr.eq_of_outlines es fs he.2 hf.2 htail]

end

/-! ### Parts of statements -/

/-- Lists with the same outlines are equal if entries with one outline are. -/
theorem eq_of_map {α : Type} {outline : α → Outline} {as bs : List α}
    (h : ∀ a ∈ as, ∀ b ∈ bs, outline a = outline b → a = b)
    (hm : as.map outline = bs.map outline) : as = bs := by
  induction as generalizing bs with
  | nil => simpa [eq_comm] using hm
  | cons a as ih =>
    cases bs with
    | nil => simp at hm
    | cons b bs =>
      obtain ⟨hhead, htail⟩ := List.cons.inj hm
      rw [h a List.mem_cons_self b List.mem_cons_self hhead,
        ih (fun c hc d hd => h c (List.mem_cons_of_mem a hc) d (List.mem_cons_of_mem b hd)) htail]

theorem Param.eq_of_outline {p q : Param} (hp : p.Legible) (hq : q.Legible)
    (h : p.outline = q.outline) : p = q := by
  obtain ⟨name, constant, type⟩ := p
  obtain ⟨name', constant', type'⟩ := q
  -- there is no space between a name and its colon
  have hmark {m n : String} (hm : IsName m) : "Param " ++ m ++ ":" ≠ "Param var " ++ n ++ ":" := by
    intro he
    rw [show "Param var " = "Param " ++ "var " from rfl] at he
    simp only [String.append_assoc, String.append_right_inj] at he
    have hspace : ' ' ∈ (m ++ ":").toList := by simp [he]
    exact absurd (hm.word.2 ' ' (by simpa using hspace)) (by decide)
  simp only [Param.outline, Outline.node.injEq, List.cons.injEq, and_true] at h
  obtain ⟨hlabel, htype⟩ := h
  obtain rfl := type.eq_of_outline type' hp.2 hq.2 htype
  cases constant with
  | true => cases constant' with
    | true =>
      simp only [if_true, String.append_left_inj, String.append_right_inj] at hlabel
      rw [hlabel]
    | false => exact absurd hlabel (hmark hp.1)
  | false => cases constant' with
    | true => exact absurd hlabel.symm (hmark hq.1)
    | false =>
      simp only [Bool.false_eq_true, if_false, String.append_left_inj,
        String.append_right_inj] at hlabel
      rw [hlabel]

theorem Field.eq_of_outline {f g : Field} (hf : f.Legible) (hg : g.Legible)
    (h : f.outline = g.outline) : f = g := by
  obtain ⟨name, type⟩ := f
  obtain ⟨name', type'⟩ := g
  simp only [Field.outline, Outline.node.injEq, List.cons.injEq, and_true, String.append_left_inj,
    String.append_right_inj] at h
  obtain ⟨rfl, htype⟩ := h
  rw [type.eq_of_outline type' hf.2 hg.2 htype]

theorem EnumMember.eq_of_outline {m n : EnumMember} (hm : IsName m.name) (hn : IsName n.name)
    (h : m.outline = n.outline) : m = n := by
  obtain ⟨name, value⟩ := m
  obtain ⟨name', value'⟩ := n
  simp only [EnumMember.outline, Outline.node.injEq, and_true, String.append_assoc] at h
  obtain ⟨rfl, hv⟩ := hm.append_inj hn (by simp) (by simp) h
  rw [Number.int64Text_injective ((String.append_right_inj " = ").1 hv)]

theorem Expr.eq_of_partOutline {name : String} {e f : Option Expr}
    (he : ∀ a ∈ e, a.Legible) (hf : ∀ b ∈ f, b.Legible)
    (h : Expr.partOutline name e = Expr.partOutline name f) : e = f := by
  cases e with
  | none => cases f with
    | none => rfl
    | some b => cases h
  | some a => cases f with
    | none => cases h
    | some b => rw [a.eq_of_outline b (he a rfl) (hf b rfl) (one_inj (List.cons.inj h).1)]

theorem ownedName_inj {owner owner' : Option String} {name name' : String}
    (h : (match owner with
        | some owner => owner ++ "::" ++ name
        | none => name)
      = match owner' with
        | some owner => owner ++ "::" ++ name'
        | none => name')
    (ho : ∀ name ∈ owner, IsName name) (hn : IsName name) (ho' : ∀ name ∈ owner', IsName name)
    (hn' : IsName name') : owner = owner' ∧ name = name' := by
  have hscope {o m n : String} (hn : IsName n) : o ++ "::" ++ m ≠ n := by
    rintro rfl
    exact absurd (hn.word.2 ':' (by simp)) (by decide)
  cases owner with
  | none => cases owner' with
    | none => exact ⟨rfl, h⟩
    | some o' => exact absurd h.symm (hscope hn)
  | some o => cases owner' with
    | none => exact absurd h (hscope hn')
    | some o' =>
      simp only [String.append_assoc] at h
      obtain ⟨rfl, hn⟩ := (ho o rfl).append_inj (ho' o' rfl) (by simp) (by simp) h
      exact ⟨rfl, (String.append_right_inj "::").1 hn⟩

theorem localName_inj {name name' : String} {localName localName' : Option String}
    (hn : IsName name) (hn' : IsName name')
    (h : (name ++ match localName with
        | some localName => " as " ++ localName
        | none => "")
      = name' ++ match localName' with
        | some localName => " as " ++ localName
        | none => "") : name = name' ∧ localName = localName' := by
  obtain ⟨hname, hlocal⟩ := hn.append_inj hn'
    (by cases localName <;> simp) (by cases localName' <;> simp) h
  cases localName <;> cases localName' <;> simp_all

theorem variable_inj {constant constant' : Bool} {name name' : String}
    (h : (if constant then "VariableDeclaration let " else "VariableDeclaration var ") ++ name
      = (if constant' then "VariableDeclaration let " else "VariableDeclaration var ") ++ name') :
    constant = constant' ∧ name = name' := by
  cases constant <;> cases constant' <;> simp_all [← String.toList_inj]

theorem conditional_inj {c c' : Outline} {b b' r r' : List Outline}
    (h : Outline.node "If" (.node "condition:" [c] :: .node "then:" b :: r)
      = .node "If" (.node "condition:" [c'] :: .node "then:" b' :: r')) :
    c = c' ∧ b = b' ∧ r = r' := by
  simpa using h

/-- The words for statements that are not expressions, in the order of their forms. -/
def Stmt.words : List String := ["Namespace", "FunctionDeclaration", "VariableDeclaration",
  "Struct", "Union", "Enum", "Using", "If", "While", "DoWhile", "For", "Break", "Continue",
  "Return", "Free", "InlineAsm"]

theorem Stmt.word_outline (s : Stmt) : s.outline.word = s.word.toList := by
  cases s with
  | variableDecl constant => cases constant <;> simp [Stmt.outline, Outline.word, Stmt.word]
  | expression e => exact e.word_outline
  | typeName t => exact t.word_outline
  | _ => simp [Stmt.outline, Outline.word, Stmt.word]

/-- The form of expressions comes behind those that have words of their own. -/
theorem Stmt.ctorIdx_eq_idxOf {s : Stmt} (h : s.Legible) : s.ctorIdx = Stmt.words.idxOf s.word := by
  cases s with
  | expression e => cases e <;> rfl
  | typeName t => exact h.elim
  | _ => rfl

theorem Stmt.ctorIdx_eq {s t : Stmt} (hs : s.Legible) (ht : t.Legible)
    (h : s.outline = t.outline) : s.ctorIdx = t.ctorIdx := by
  have hw := congrArg Outline.word h
  rw [Stmt.word_outline, Stmt.word_outline, String.toList_inj] at hw
  rw [Stmt.ctorIdx_eq_idxOf hs, Stmt.ctorIdx_eq_idxOf ht, hw]

mutual

theorem Stmt.eq_of_outline : ∀ (s t : Stmt), s.Legible → t.Legible →
    s.outline = t.outline → s = t
  | .namespaceDecl name body, t, hs, ht, h => by
    cases t with
    | namespaceDecl name' body' =>
      simp only [Stmt.outline, Outline.node.injEq, String.append_right_inj] at h
      rw [h.1, Stmt.eq_of_outlines body body' hs.2 ht.2 h.2]
    | _ => cases Stmt.ctorIdx_eq hs ht h
  | .functionDecl owner name params returns body, t, hs, ht, h => by
    cases t with
    | functionDecl owner' name' params' returns' body' =>
      obtain ⟨ho, hn, hp, hr, hb⟩ := hs
      obtain ⟨ho', hn', hp', hr', hb'⟩ := ht
      simp only [Stmt.outline, Outline.node.injEq, String.append_right_inj] at h
      obtain ⟨hlabel, hchildren⟩ := h
      obtain ⟨rfl, rfl⟩ := ownedName_inj hlabel ho hn ho' hn'
      obtain ⟨hparams, hlast⟩ := List.append_inj' hchildren rfl
      simp only [List.cons.injEq, Outline.node.injEq, true_and, and_true] at hlast
      rw [eq_of_map (fun p hm q hq => Param.eq_of_outline (hp p hm) (hp' q hq)) hparams,
        returns.eq_of_outline returns' hr hr' hlast.1,
        Stmt.eq_of_outlines body body' hb hb' hlast.2]
    | _ => cases Stmt.ctorIdx_eq hs ht h
  | .variableDecl constant name type initializer, t, hs, ht, h => by
    cases t with
    | variableDecl constant' name' type' initializer' =>
      simp only [Stmt.outline, Outline.node.injEq, List.cons.injEq, true_and, and_true] at h
      obtain ⟨hlabel, htype, hinit⟩ := h
      obtain ⟨rfl, rfl⟩ := variable_inj hlabel
      rw [type.eq_of_outline type' hs.2.1 ht.2.1 htype,
        Expr.eq_of_partOutline hs.2.2 ht.2.2 hinit]
    | _ => cases Stmt.ctorIdx_eq hs ht h
  | .structDecl name fields, t, hs, ht, h => by
    cases t with
    | structDecl name' fields' =>
      simp only [Stmt.outline, Outline.node.injEq, String.append_right_inj] at h
      rw [h.1, eq_of_map (fun f hf g hg => Field.eq_of_outline (hs.2 f hf) (ht.2 g hg)) h.2]
    | _ => cases Stmt.ctorIdx_eq hs ht h
  | .unionDecl name fields, t, hs, ht, h => by
    cases t with
    | unionDecl name' fields' =>
      simp only [Stmt.outline, Outline.node.injEq, String.append_right_inj] at h
      rw [h.1, eq_of_map (fun f hf g hg => Field.eq_of_outline (hs.2 f hf) (ht.2 g hg)) h.2]
    | _ => cases Stmt.ctorIdx_eq hs ht h
  | .enumDecl name members, t, hs, ht, h => by
    cases t with
    | enumDecl name' members' =>
      simp only [Stmt.outline, Outline.node.injEq, String.append_right_inj] at h
      rw [h.1, eq_of_map (fun m hm n hn => EnumMember.eq_of_outline (hs.2 m hm) (ht.2 n hn)) h.2]
    | _ => cases Stmt.ctorIdx_eq hs ht h
  | .usingDecl name localName, t, hs, ht, h => by
    cases t with
    | usingDecl name' localName' =>
      simp only [Stmt.outline, Outline.node.injEq, String.append_assoc, String.append_right_inj,
        and_true] at h
      obtain ⟨rfl, rfl⟩ := localName_inj hs.1 ht.1 h
      rfl
    | _ => cases Stmt.ctorIdx_eq hs ht h
  | .ifElse condition body otherwise, t, hs, ht, h => by
    cases t with
    | ifElse condition' body' otherwise' =>
      obtain ⟨hc, hb, ho⟩ := conditional_inj h
      rw [condition.eq_of_outline condition' hs.1 ht.1 hc,
        Stmt.eq_of_outlines body body' hs.2.1 ht.2.1 hb,
        otherwise.eq_of_outlines otherwise' hs.2.2 ht.2.2 ho]
    | _ => cases Stmt.ctorIdx_eq hs ht h
  | .whileLoop condition body, t, hs, ht, h => by
    cases t with
    | whileLoop condition' body' =>
      obtain ⟨hc, hb⟩ := two_inj h
      rw [condition.eq_of_outline condition' hs.1 ht.1 (one_inj hc),
        Stmt.eq_of_outlines body body' hs.2 ht.2 (Outline.node.inj hb).2]
    | _ => cases Stmt.ctorIdx_eq hs ht h
  | .doWhile body condition, t, hs, ht, h => by
    cases t with
    | doWhile body' condition' =>
      obtain ⟨hb, hc⟩ := two_inj h
      rw [Stmt.eq_of_outlines body body' hs.1 ht.1 (Outline.node.inj hb).2,
        condition.eq_of_outline condition' hs.2 ht.2 (one_inj hc)]
    | _ => cases Stmt.ctorIdx_eq hs ht h
  | .forLoop initial condition iteration body, t, hs, ht, h => by
    cases t with
    | forLoop initial' condition' iteration' body' =>
      simp only [Stmt.outline, Outline.node.injEq, List.cons.injEq, true_and, and_true] at h
      obtain ⟨hi, hc, he, hb⟩ := h
      rw [initial.eq_of_outline initial' hs.1 ht.1 hi,
        condition.eq_of_outline condition' hs.2.1 ht.2.1 hc,
        iteration.eq_of_outline iteration' hs.2.2.1 ht.2.2.1 he,
        Stmt.eq_of_outlines body body' hs.2.2.2 ht.2.2.2 hb]
    | _ => cases Stmt.ctorIdx_eq hs ht h
  | .breakLoop, t, hs, ht, h => by
    cases t with
    | breakLoop => rfl
    | _ => cases Stmt.ctorIdx_eq hs ht h
  | .continueLoop, t, hs, ht, h => by
    cases t with
    | continueLoop => rfl
    | _ => cases Stmt.ctorIdx_eq hs ht h
  | .returnValue value, t, hs, ht, h => by
    cases t with
    | returnValue value' =>
      have hv := (Outline.node.inj h).2
      cases value with
      | none => cases value' with
        | none => rfl
        | some e' => cases hv
      | some e => cases value' with
        | none => cases hv
        | some e' => rw [e.eq_of_outline e' (hs e rfl) (ht e' rfl) (List.cons.inj hv).1]
    | _ => cases Stmt.ctorIdx_eq hs ht h
  | .free target, t, hs, ht, h => by
    cases t with
    | free target' => rw [target.eq_of_outline target' hs ht (one_inj h)]
    | _ => cases Stmt.ctorIdx_eq hs ht h
  | .assembly operations, t, hs, ht, h => by
    cases t with
    | assembly operations' =>
      rw [eq_of_map (fun a _ b _ hab => by simpa using hab) (Outline.node.inj h).2]
    | _ => cases Stmt.ctorIdx_eq hs ht h
  | .expression value, t, hs, ht, h => by
    cases t with
    | expression value' => rw [value.eq_of_outline value' hs ht h]
    | _ => cases Stmt.ctorIdx_eq hs ht h
  | .typeName _, _, hs, _, _ => hs.elim

theorem Stmt.eq_of_outlines : ∀ (b c : List Stmt), Stmt.AllLegible b → Stmt.AllLegible c →
    Stmt.outlines b = Stmt.outlines c → b = c
  | [], [], _, _, _ => rfl
  | [], t :: c, _, _, h => by cases h
  | s :: b, [], _, _, h => by cases h
  | s :: b, t :: c, hs, ht, h => by
    obtain ⟨hhead, htail⟩ := List.cons.inj h
    rw [s.eq_of_outline t hs.1 ht.1 hhead, Stmt.eq_of_outlines b c hs.2 ht.2 htail]

theorem Otherwise.eq_of_outlines : ∀ (o p : Otherwise), o.Legible → p.Legible →
    o.outlines = p.outlines → o = p
  | .nothing, p, _, _, h => by
    cases p with
    | nothing => rfl
    | _ => cases h
  | .block body, p, ho, hp, h => by
    cases p with
    | nothing => cases h
    | block body' =>
      rw [Stmt.eq_of_outlines body body' ho hp (Outline.node.inj (one_inj (List.cons.inj h).1)).2]
    | elseIf condition' body' otherwise' => simp [Otherwise.outlines] at h
  | .elseIf condition body otherwise, p, ho, hp, h => by
    cases p with
    | nothing => cases h
    | block body' => simp [Otherwise.outlines] at h
    | elseIf condition' body' otherwise' =>
      obtain ⟨hc, hb, hr⟩ := conditional_inj (one_inj (List.cons.inj h).1)
      rw [condition.eq_of_outline condition' ho.1 hp.1 hc,
        Stmt.eq_of_outlines body body' ho.2.1 hp.2.1 hb,
        otherwise.eq_of_outlines otherwise' ho.2.2 hp.2.2 hr]

end

/-! ### Equality as values -/

theorem Number.Binary64.equal_self {x : Number.Binary64} (h : x.isNaN = false) : x.equal x := by
  simp [Number.Binary64.equal, h]

mutual

theorem TypeExpr.equal_self : ∀ (t : TypeExpr), t.Legible → t.equal t
  | .path _ _, _ => by simp [TypeExpr.equal]
  | .array element, h => by simpa [TypeExpr.equal] using element.equal_self h
  | .sizedArray element size, h => by
    simp [TypeExpr.equal, element.equal_self h.1, size.equal_self h.2]
  | .pointer pointee, h => by simpa [TypeExpr.equal] using pointee.equal_self h

theorem Expr.equal_self : ∀ (e : Expr), e.Legible → e.equal e
  | .boolean _, _ | .integer _, _ | .string _, _ | .character _, _ | .identifier _, _
  | .null, _ => by simp [Expr.equal]
  | .realNumber value, h => by simpa [Expr.equal] using Number.Binary64.equal_self h
  | .unary _ operand, h => by simp [Expr.equal, operand.equal_self h.2]
  | .binary _ left right, h => by
    simp [Expr.equal, left.equal_self h.2.1, right.equal_self h.2.2]
  | .group inner, h => by simpa [Expr.equal] using inner.equal_self h
  | .cast operand target, h => by
    simp [Expr.equal, operand.equal_self h.1, target.equal_self h.2]
  | .call _ arguments, h => by simp [Expr.equal, Expr.allEqual_self arguments h.2]
  | .addressOf operand, h => by simpa [Expr.equal] using operand.equal_self h
  | .dereference operand, h => by simpa [Expr.equal] using operand.equal_self h
  | .new type, h => by simpa [Expr.equal] using type.equal_self h
  | .arrayLiteral elements, h => by simpa [Expr.equal] using Expr.allEqual_self elements h
  | .index array subscript, h => by
    simp [Expr.equal, array.equal_self h.1, subscript.equal_self h.2]
  | .member left right, h => by simp [Expr.equal, left.equal_self h.1, right.equal_self h.2]
  | .qualified left right, h => by simp [Expr.equal, left.equal_self h.1, right.equal_self h.2]

theorem Expr.allEqual_self : ∀ (es : List Expr), Expr.AllLegible es → Expr.allEqual es es
  | [], _ => rfl
  | e :: es, h => by simp [Expr.allEqual, e.equal_self h.1, Expr.allEqual_self es h.2]

end

theorem Expr.optionEqual_self {value : Option Expr} (h : ∀ e ∈ value, e.Legible) :
    Expr.optionEqual value value := by
  cases value with
  | none => rfl
  | some e => exact e.equal_self (h e rfl)

theorem pairwise_self {α : Type} {rel : α → α → Bool} {as : List α} (h : ∀ a ∈ as, rel a a) :
    pairwise rel as as := by
  induction as with
  | nil => rfl
  | cons a as ih =>
    obtain ⟨ha, has⟩ := List.forall_mem_cons.1 h
    simp [pairwise, ha, ih has]

theorem Param.equal_self {p : Param} (h : p.Legible) : p.equal p := by
  simp [Param.equal, p.type.equal_self h.2]

theorem Field.equal_self {f : Field} (h : f.Legible) : f.equal f := by
  simp [Field.equal, f.type.equal_self h.2]

mutual

theorem Stmt.equal_self : ∀ (s : Stmt), s.Legible → s.equal s
  | .namespaceDecl _ body, h => by simp [Stmt.equal, Stmt.allEqual_self body h.2]
  | .functionDecl _ _ params returns body, h => by
    have hp := pairwise_self fun p hp => Param.equal_self (h.2.2.1 p hp)
    simp [Stmt.equal, hp, returns.equal_self h.2.2.2.1, Stmt.allEqual_self body h.2.2.2.2]
  | .variableDecl _ _ type initializer, h => by
    simp [Stmt.equal, type.equal_self h.2.1, Expr.optionEqual_self h.2.2]
  | .structDecl _ fields, h => by
    have hf := pairwise_self fun f hf => Field.equal_self (h.2 f hf)
    simp [Stmt.equal, hf]
  | .unionDecl _ fields, h => by
    have hf := pairwise_self fun f hf => Field.equal_self (h.2 f hf)
    simp [Stmt.equal, hf]
  | .enumDecl _ _, _ | .usingDecl _ _, _ | .breakLoop, _ | .continueLoop, _ | .assembly _, _ => by
    simp [Stmt.equal]
  | .ifElse condition body otherwise, h => by
    simp [Stmt.equal, condition.equal_self h.1, Stmt.allEqual_self body h.2.1,
      otherwise.equal_self h.2.2]
  | .whileLoop condition body, h => by
    simp [Stmt.equal, condition.equal_self h.1, Stmt.allEqual_self body h.2]
  | .doWhile body condition, h => by
    simp [Stmt.equal, condition.equal_self h.2, Stmt.allEqual_self body h.1]
  | .forLoop initial condition iteration body, h => by
    simp [Stmt.equal, initial.equal_self h.1, condition.equal_self h.2.1,
      iteration.equal_self h.2.2.1, Stmt.allEqual_self body h.2.2.2]
  | .returnValue _, h => by simpa [Stmt.equal] using Expr.optionEqual_self h
  | .free target, h => by simpa [Stmt.equal] using target.equal_self h
  | .expression value, h => by simpa [Stmt.equal] using value.equal_self h
  | .typeName _, h => h.elim

theorem Stmt.allEqual_self : ∀ (b : List Stmt), Stmt.AllLegible b → Stmt.allEqual b b
  | [], _ => rfl
  | s :: b, h => by simp [Stmt.allEqual, s.equal_self h.1, Stmt.allEqual_self b h.2]

theorem Otherwise.equal_self : ∀ (o : Otherwise), o.Legible → o.equal o
  | .nothing, _ => rfl
  | .block body, h => by simpa [Otherwise.equal] using Stmt.allEqual_self body h
  | .elseIf condition body otherwise, h => by
    simp [Otherwise.equal, condition.equal_self h.1, Stmt.allEqual_self body h.2.1,
      otherwise.equal_self h.2.2]

end

end FrontEnd
