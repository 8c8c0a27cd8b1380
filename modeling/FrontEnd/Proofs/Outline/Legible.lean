import FrontEnd.Proofs.Number.Text
import FrontEnd.Proofs.Outline.Framing

/-!
Trees with readable outlines. A tree is legible if its leaves are such as tokens write them: names
are words, the insides of literals end where their quotes stand, operators have a spelling, and
real numbers are not NaN. Every label of its outline then has an end that can be found.
-/

set_option autoImplicit false

namespace FrontEnd

open Outline (Lead Label Readable isOrdinary)

/-! ### Names and numbers -/

/-- A name as a token writes it. -/
def IsName (name : String) : Prop := Segment.Lexical .identifier name.toList

theorem IsName.word {name : String} (h : IsName name) :
    name.toList ≠ [] ∧ ∀ c ∈ name.toList, Segment.isWordChar c := by
  unfold IsName at h
  generalize name.toList = cs at h
  cases h with
  | operator hk | keyword hk => exact absurd hk (by decide)
  | identifier hc hcs =>
    refine ⟨List.cons_ne_nil _ _, List.forall_mem_cons.2 ⟨?_, hcs⟩⟩
    rw [Segment.isWordChar, hc, Bool.true_or]

/-- Text that may stand anywhere in a label but at its start. -/
def Ordinary (text : String) : Prop := ∀ c ∈ text.toList, isOrdinary c

instance (text : String) : Decidable (Ordinary text) :=
  decidable_of_iff (text.toList.all isOrdinary) List.all_eq_true

theorem Ordinary.append {s t : String} (hs : Ordinary s) (ht : Ordinary t) :
    Ordinary (s ++ t) := by
  intro c hc
  rw [String.toList_append] at hc
  exact (List.mem_append.1 hc).elim (hs c) (ht c)

theorem isOrdinary_of {p : Char → Bool} (hp : ['\n', '"', '\''].any p = false) {c : Char}
    (h : p c) : isOrdinary c := by
  rw [isOrdinary, decide_eq_true_iff]
  intro hc
  exact List.any_eq_false.1 hp c hc h

theorem IsName.ordinary {name : String} (h : IsName name) : Ordinary name :=
  fun c hc => isOrdinary_of (by decide) (h.word.2 c hc)

theorem IsName.lead {name : String} (h : IsName name) : Lead name.toList := by
  refine ⟨h.ordinary, fun hs => ?_⟩
  have hw := h.word.2 ' ' (List.mem_of_mem_head? hs)
  exact absurd hw (by decide)

theorem ordinary_int64Text (n : Int64) : Ordinary (Number.int64Text n) := by
  have hdigits (m : Nat) : ∀ c ∈ Nat.toDigits 10 m, isOrdinary c := fun c hc =>
    isOrdinary_of (by decide) (Nat.isDigit_of_mem_toDigits (by decide) (by decide) hc)
  rw [Ordinary, Number.int64Text]
  cases n.toInt with
  | ofNat m => simpa [toString, Int.repr, Nat.toList_repr] using hdigits m
  | negSucc m =>
    simpa [toString, Int.repr, Nat.toList_repr, show isOrdinary '-' from rfl] using hdigits (m + 1)

theorem ordinary_text {x : Number.Binary64} (h : x.isNaN = false) :
    Ordinary (x.text realLayout) := by
  intro c hc
  rw [isOrdinary, decide_eq_true_iff]
  exact Number.Binary64.mem_text h c hc

theorem ordinary_spelling : ∀ kind ∈ TokenKind.operators, Ordinary kind.spelling := by decide

/-! ### Legible trees -/

mutual

def TypeExpr.Legible : TypeExpr → Prop
  | .path head tail => ∀ name ∈ head :: tail, IsName name
  | .array element => element.Legible
  | .sizedArray element size => element.Legible ∧ size.Legible
  | .pointer pointee => pointee.Legible

def Expr.Legible : Expr → Prop
  | .boolean _ | .integer _ | .null => True
  | .realNumber value => value.isNaN = false
  | .string value => Segment.StringBody value.toList
  | .character value => Segment.CharacterBody value.toList
  | .identifier name => IsName name
  | .unary operator operand => operator ∈ TokenKind.operators ∧ operand.Legible
  | .binary operator left right =>
    operator ∈ TokenKind.operators ∧ left.Legible ∧ right.Legible
  | .group inner => inner.Legible
  | .cast operand target => operand.Legible ∧ target.Legible
  | .call name arguments => IsName name ∧ Expr.AllLegible arguments
  | .addressOf operand => operand.Legible
  | .dereference operand => operand.Legible
  | .new type => type.Legible
  | .arrayLiteral elements => Expr.AllLegible elements
  | .index array subscript => array.Legible ∧ subscript.Legible
  | .member left right => left.Legible ∧ right.Legible
  | .qualified left right => left.Legible ∧ right.Legible

def Expr.AllLegible : List Expr → Prop
  | [] => True
  | e :: rest => e.Legible ∧ Expr.AllLegible rest

end

def Param.Legible (p : Param) : Prop := IsName p.name ∧ p.type.Legible

def Field.Legible (f : Field) : Prop := IsName f.name ∧ f.type.Legible

mutual

/-- A bare type is no legible statement: its outline is that of an expression. -/
def Stmt.Legible : Stmt → Prop
  | .namespaceDecl name body => IsName name ∧ Stmt.AllLegible body
  | .functionDecl owner name params returns body =>
    (∀ name ∈ owner, IsName name) ∧ IsName name ∧ (∀ p ∈ params, p.Legible) ∧ returns.Legible ∧
      Stmt.AllLegible body
  | .variableDecl _ name type initializer =>
    IsName name ∧ type.Legible ∧ ∀ e ∈ initializer, e.Legible
  | .structDecl name fields => IsName name ∧ ∀ f ∈ fields, f.Legible
  | .unionDecl name fields => IsName name ∧ ∀ f ∈ fields, f.Legible
  | .enumDecl name members => IsName name ∧ ∀ m ∈ members, IsName m.name
  | .usingDecl name localName => IsName name ∧ ∀ name ∈ localName, IsName name
  | .ifElse condition body otherwise =>
    condition.Legible ∧ Stmt.AllLegible body ∧ otherwise.Legible
  | .whileLoop condition body => condition.Legible ∧ Stmt.AllLegible body
  | .doWhile body condition => Stmt.AllLegible body ∧ condition.Legible
  | .forLoop initial condition iteration body =>
    initial.Legible ∧ condition.Legible ∧ iteration.Legible ∧ Stmt.AllLegible body
  | .breakLoop | .continueLoop => True
  | .returnValue value => ∀ e ∈ value, e.Legible
  | .free target => target.Legible
  | .assembly operations => ∀ text ∈ operations, Segment.StringBody text.toList
  | .expression value => value.Legible
  | .typeName _ => False

def Stmt.AllLegible : List Stmt → Prop
  | [] => True
  | s :: rest => s.Legible ∧ Stmt.AllLegible rest

def Otherwise.Legible : Otherwise → Prop
  | .nothing => True
  | .block body => Stmt.AllLegible body
  | .elseIf condition body otherwise =>
    condition.Legible ∧ Stmt.AllLegible body ∧ otherwise.Legible

end

/-! ### Their outlines are readable -/

/-- A label that is a word. -/
theorem readable_word {word : String} {children : List Outline} (hw : Lead word.toList)
    (hc : ∀ o ∈ children, Readable o) : Readable (.node word children) :=
  .node (.plain hw) hc

/-- A label that is a word and what it is said of. -/
theorem readable_append {word text : String} {children : List Outline}
    (hw : Lead word.toList ∧ word.toList ≠ []) (ht : Ordinary text)
    (hc : ∀ o ∈ children, Readable o) : Readable (.node (word ++ text) children) := by
  refine .node (.plain ?_) hc
  rw [String.toList_append]
  exact hw.1.append hw.2 ht

theorem readable_string {text : String} (h : Segment.StringBody text.toList) :
    Readable (.leaf ("\"" ++ text ++ "\"")) := by
  refine .node ?_ (by simp)
  simpa using Label.string (show Lead [] by decide) h

theorem readable_pathOutline {head : String} {tail : List String}
    (h : ∀ name ∈ head :: tail, IsName name) : (TypeExpr.pathOutline head tail).Readable := by
  induction tail generalizing head with
  | nil => exact readable_append (by decide) (h head List.mem_cons_self).ordinary (by simp)
  | cons name tail ih =>
    obtain ⟨hh, ht⟩ := List.forall_mem_cons.1 h
    have hleaf : Readable (.leaf ("Identifier " ++ head)) :=
      readable_append (by decide) hh.ordinary (by simp)
    exact readable_word (by decide) (by simp [hleaf, ih ht])

theorem readable_one {word : String} {o : Outline} (hw : Lead word.toList) (ho : o.Readable) :
    Readable (.node word [o]) :=
  readable_word hw (by simpa using ho)

theorem readable_two {word : String} {o p : Outline} (hw : Lead word.toList) (ho : o.Readable)
    (hp : p.Readable) : Readable (.node word [o, p]) :=
  readable_word hw (by simp [ho, hp])

mutual

theorem TypeExpr.readable : ∀ (t : TypeExpr), t.Legible → t.outline.Readable
  | .path _ _, h => readable_pathOutline h
  | .array element, h => readable_one (by decide) (element.readable h)
  | .sizedArray element size, h =>
    readable_two (by decide) (element.readable h.1) (readable_one (by decide) (size.readable h.2))
  | .pointer pointee, h => readable_one (by decide) (pointee.readable h)

theorem Expr.readable : ∀ (e : Expr), e.Legible → e.outline.Readable
  | .boolean value, _ => readable_append (by decide) (by cases value <;> decide) (by simp)
  | .integer value, _ => readable_append (by decide) (ordinary_int64Text value) (by simp)
  | .realNumber value, h => readable_append (by decide) (ordinary_text h) (by simp)
  | .string value, h => by
    refine .node ?_ (by simp)
    simpa using Label.string (show Lead "String ".toList by decide) h
  | .character value, h => by
    refine .node ?_ (by simp)
    simpa using Label.character (show Lead "Character ".toList by decide) h
  | .identifier name, h => readable_append (by decide) h.ordinary (by simp)
  | .null, _ => readable_word (by decide) (by simp)
  | .unary operator operand, h =>
    readable_append (by decide) (ordinary_spelling operator h.1)
      (by simpa using operand.readable h.2)
  | .binary operator left right, h =>
    readable_append (by decide) (ordinary_spelling operator h.1)
      (by simp [left.readable h.2.1, right.readable h.2.2])
  | .group inner, h => readable_one (by decide) (inner.readable h)
  | .cast operand target, h =>
    readable_two (by decide) (operand.readable h.1) (readable_one (by decide) (target.readable h.2))
  | .call name arguments, h =>
    readable_append (by decide) h.1.ordinary (Expr.readable_outlines arguments h.2)
  | .addressOf operand, h => readable_one (by decide) (operand.readable h)
  | .dereference operand, h => readable_one (by decide) (operand.readable h)
  | .new type, h => readable_one (by decide) (type.readable h)
  | .arrayLiteral elements, h =>
    readable_word (by decide) (Expr.readable_outlines elements h)
  | .index array subscript, h =>
    readable_two (by decide) (array.readable h.1)
      (readable_one (by decide) (subscript.readable h.2))
  | .member left right, h => readable_two (by decide) (left.readable h.1) (right.readable h.2)
  | .qualified left right, h => readable_two (by decide) (left.readable h.1) (right.readable h.2)

theorem Expr.readable_outlines : ∀ (es : List Expr), Expr.AllLegible es →
    ∀ o ∈ Expr.outlines es, o.Readable
  | [], _ => by simp [Expr.outlines]
  | e :: es, h => List.forall_mem_cons.2 ⟨e.readable h.1, Expr.readable_outlines es h.2⟩

end

theorem Param.readable {p : Param} (h : p.Legible) : p.outline.Readable := by
  have hn := h.1.ordinary.append (show Ordinary ":" by decide)
  unfold Param.outline
  rw [String.append_assoc]
  split
  · exact readable_append (by decide) hn (by simpa using p.type.readable h.2)
  · exact readable_append (by decide) hn (by simpa using p.type.readable h.2)

theorem Field.readable {f : Field} (h : f.Legible) : f.outline.Readable := by
  have hn := h.1.ordinary.append (show Ordinary ":" by decide)
  unfold Field.outline
  rw [String.append_assoc]
  exact readable_append (by decide) hn (by simpa using f.type.readable h.2)

theorem EnumMember.readable {m : EnumMember} (h : IsName m.name) : m.outline.Readable := by
  have hv := (show Ordinary " = " by decide).append (ordinary_int64Text m.value)
  unfold EnumMember.outline
  rw [String.append_assoc]
  exact readable_append ⟨h.lead, h.word.1⟩ hv (by simp)

theorem Expr.readable_partOutline {name : String} {part : Option Expr} (hn : Lead name.toList)
    (h : ∀ e ∈ part, e.Legible) : ∀ o ∈ Expr.partOutline name part, o.Readable := by
  cases part with
  | none => simp [Expr.partOutline]
  | some e => simpa [Expr.partOutline] using readable_one hn (e.readable (h e rfl))

theorem readable_map {α : Type} {outline : α → Outline} {as : List α}
    (h : ∀ a ∈ as, (outline a).Readable) : ∀ o ∈ as.map outline, o.Readable := by
  simpa using h

theorem readable_conditional {condition : Outline} {body rest : List Outline}
    (hc : condition.Readable) (hb : ∀ o ∈ body, o.Readable) (hr : ∀ o ∈ rest, o.Readable) :
    Readable (.node "If" (.node "condition:" [condition] :: .node "then:" body :: rest)) := by
  have hc : Readable (.node "condition:" [condition]) := readable_one (by decide) hc
  have hb : Readable (.node "then:" body) := readable_word (by decide) hb
  exact readable_word (by decide)
    (List.forall_mem_cons.2 ⟨hc, List.forall_mem_cons.2 ⟨hb, hr⟩⟩)

mutual

theorem Stmt.readable : ∀ (s : Stmt), s.Legible → s.outline.Readable
  | .namespaceDecl name body, h =>
    readable_append (by decide) h.1.ordinary (Stmt.readable_outlines body h.2)
  | .functionDecl owner name params returns body, h => by
    obtain ⟨ho, hn, hp, hr, hb⟩ := h
    have hp : ∀ o ∈ params.map Param.outline, o.Readable :=
      readable_map fun p hm => Param.readable (hp p hm)
    have hr : Readable (.node "returns:" [returns.outline]) :=
      readable_one (by decide) (returns.readable hr)
    have hb : Readable (.node "body:" (Stmt.outlines body)) :=
      readable_word (by decide) (Stmt.readable_outlines body hb)
    refine readable_append (by decide) ?_ ?_
    · cases owner with
      | none => exact hn.ordinary
      | some owner =>
        exact ((ho owner rfl).ordinary.append (show Ordinary "::" by decide)).append hn.ordinary
    · exact List.forall_mem_append.2 ⟨hp, by simp [hr, hb]⟩
  | .variableDecl constant name type initializer, h => by
    obtain ⟨hn, ht, hi⟩ := h
    have ht : Readable (.node "type:" [type.outline]) := readable_one (by decide) (type.readable ht)
    have hi := Expr.readable_partOutline (show Lead "initializer:".toList by decide) hi
    have hc := List.forall_mem_cons.2 ⟨ht, hi⟩
    cases constant with
    | true => exact readable_append (by decide) hn.ordinary hc
    | false => exact readable_append (by decide) hn.ordinary hc
  | .structDecl name fields, h =>
    readable_append (by decide) h.1.ordinary (readable_map fun f hf => Field.readable (h.2 f hf))
  | .unionDecl name fields, h =>
    readable_append (by decide) h.1.ordinary (readable_map fun f hf => Field.readable (h.2 f hf))
  | .enumDecl name members, h =>
    readable_append (by decide) h.1.ordinary
      (readable_map fun m hm => EnumMember.readable (h.2 m hm))
  | .usingDecl name localName, h => by
    unfold Stmt.outline
    rw [String.append_assoc]
    refine readable_append (by decide) (h.1.ordinary.append ?_) (by simp)
    cases localName with
    | none => decide
    | some localName =>
      exact (show Ordinary " as " by decide).append (h.2 localName rfl).ordinary
  | .ifElse condition body otherwise, h =>
    readable_conditional (condition.readable h.1) (Stmt.readable_outlines body h.2.1)
      (otherwise.readable h.2.2)
  | .whileLoop condition body, h =>
    readable_two (by decide) (readable_one (by decide) (condition.readable h.1))
      (readable_word (by decide) (Stmt.readable_outlines body h.2))
  | .doWhile body condition, h =>
    readable_two (by decide) (readable_word (by decide) (Stmt.readable_outlines body h.1))
      (readable_one (by decide) (condition.readable h.2))
  | .forLoop initial condition iteration body, h => by
    have hi : Readable (.node "init:" [initial.outline]) :=
      readable_one (by decide) (initial.readable h.1)
    have hc : Readable (.node "condition:" [condition.outline]) :=
      readable_one (by decide) (condition.readable h.2.1)
    have he : Readable (.node "iteration:" [iteration.outline]) :=
      readable_one (by decide) (iteration.readable h.2.2.1)
    have hb : Readable (.node "body:" (Stmt.outlines body)) :=
      readable_word (by decide) (Stmt.readable_outlines body h.2.2.2)
    exact readable_word (by decide) (by simp [hi, hc, he, hb])
  | .breakLoop, _ => readable_word (by decide) (by simp)
  | .continueLoop, _ => readable_word (by decide) (by simp)
  | .returnValue value, h =>
    readable_word (by decide) (readable_map fun e he => e.readable (h e (by simpa using he)))
  | .free target, h => readable_one (by decide) (target.readable h)
  | .assembly operations, h =>
    readable_word (by decide) (readable_map fun text ht => readable_string (h text ht))
  | .expression value, h => value.readable h
  | .typeName _, h => h.elim

theorem Stmt.readable_outlines : ∀ (b : List Stmt), Stmt.AllLegible b →
    ∀ o ∈ Stmt.outlines b, o.Readable
  | [], _ => by simp [Stmt.outlines]
  | s :: b, h => List.forall_mem_cons.2 ⟨s.readable h.1, Stmt.readable_outlines b h.2⟩

theorem Otherwise.readable : ∀ (o : Otherwise), o.Legible → ∀ p ∈ o.outlines, p.Readable
  | .nothing, _ => by simp [Otherwise.outlines]
  | .block body, h => by
    have hb : Readable (.node "Block" (Stmt.outlines body)) :=
      readable_word (by decide) (Stmt.readable_outlines body h)
    simpa [Otherwise.outlines] using readable_one (by decide) hb
  | .elseIf condition body otherwise, h => by
    have hi := readable_conditional (condition.readable h.1) (Stmt.readable_outlines body h.2.1)
      (otherwise.readable h.2.2)
    simpa [Otherwise.outlines] using readable_one (by decide) hi

end

end FrontEnd
