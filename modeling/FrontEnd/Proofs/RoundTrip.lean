import FrontEnd.Proofs.Acceptance
import FrontEnd.Proofs.Writing

/-!
Trees that come out of a parse are programs. Whatever was wrong with the tokens, the tree that is
left can be written down canonically, and what is written is read back as that tree without a
diagnostic.
-/

set_option autoImplicit false

namespace FrontEnd.Grammar

/-- The canonical way to write what a phrase derives. -/
def Phrase.lexemes : (p : Phrase) → p.Tree → List Lexeme
  | .elements, es | .list, es => Lexeme.separated (Expr.lexemesOf es)
  | .typeExpr, t => t.lexemes
  | .assignment, e | .binary _, e | .cast, e | .unary, e | .access, e | .chain, e
  | .primary, e => e.lexemes

/-! ### Expressions and types -/

theorem names_of_writes {head : String} {tail : List String} {us : List Token}
    (h : Writes us (Lexeme.path head tail)) : Names us head tail := by
  induction tail generalizing head us with
  | nil =>
    simp only [Lexeme.path, writes_cons, Lexeme.IsWritten, writes_nil] at h
    obtain ⟨t, _, rfl, ⟨ht, rfl⟩, rfl⟩ := h
    exact .one ht
  | cons name tail ih =>
    simp only [Lexeme.path, writes_cons, Lexeme.IsWritten] at h
    obtain ⟨t, _, rfl, ⟨ht, rfl⟩, o, us, rfl, ho, h⟩ := h
    exact .more ht ho (ih h)

/-- What the members of a chain are taken of is not a dereference. -/
theorem Derives.lexemes_member {w : List Token} {l : Expr} (h : Derives .chain w l) (r : Expr) :
    (Expr.member l r).lexemes = l.lexemes ++ .fixed .dot :: r.lexemes := by
  cases l with
  | dereference e =>
    cases h with
    | base h => cases h
  | _ => simp only [Expr.lexemes]

theorem Derives.elements_ne_nil {w : List Token} {es : List Expr} (h : Derives .elements w es) :
    es ≠ [] := by
  cases h <;> simp

/-- A phrase is derived by every way to write its tree canonically. -/
theorem Derives.of_writes {p : Phrase} {w : List Token} {e : p.Tree} (h : Derives p w e)
    {us : List Token} (hu : Writes us (p.lexemes e)) : Derives p us e := by
  induction h generalizing us with
  | operand _ ih => exact .operand (ih hu)
  | assign _ ho _ ihl ihr =>
    simp only [Phrase.lexemes, Expr.lexemes, writes_append, writes_cons, Lexeme.IsWritten] at hu
    obtain ⟨u, _, rfl, hl, t, v, rfl, ht, hr⟩ := hu
    rw [← ht] at ho ⊢
    exact .assign (ihl hl) ho (ihr hr)
  | casted _ ih => exact .casted (ih hu)
  | tighter _ ih => exact .tighter (ih hu)
  | operate _ ho _ ihl ihr =>
    simp only [Phrase.lexemes, Expr.lexemes, writes_append, writes_cons, Lexeme.IsWritten] at hu
    obtain ⟨u, _, rfl, hl, t, v, rfl, ht, hr⟩ := hu
    rw [← ht] at ho ⊢
    exact .operate (ihl hl) ho (ihr hr)
  | uncast _ ih => exact .uncast (ih hu)
  | castTo _ ho _ ihe iht =>
    simp only [Phrase.lexemes, Expr.lexemes, writes_append, writes_cons, Lexeme.IsWritten] at hu
    obtain ⟨u, _, rfl, he, t, v, rfl, ho, ht⟩ := hu
    exact .castTo (ihe he) ho (iht ht)
  | unmarked _ ih => exact .unmarked (ih hu)
  | addressOf _ _ ih =>
    simp only [Phrase.lexemes, Expr.lexemes, writes_cons, Lexeme.IsWritten] at hu
    obtain ⟨o, u, rfl, ho, he⟩ := hu
    exact .addressOf ho (ih he)
  | dereference _ _ ih =>
    simp only [Phrase.lexemes, Expr.lexemes, writes_cons, Lexeme.IsWritten] at hu
    obtain ⟨o, u, rfl, ho, he⟩ := hu
    exact .dereference ho (ih he)
  | new _ _ ih =>
    simp only [Phrase.lexemes, Expr.lexemes, writes_cons, Lexeme.IsWritten] at hu
    obtain ⟨o, u, rfl, ho, ht⟩ := hu
    exact .new ho (ih ht)
  | marked ho _ ih =>
    simp only [Phrase.lexemes, Expr.lexemes, writes_cons, Lexeme.IsWritten] at hu
    obtain ⟨t, u, rfl, ht, he⟩ := hu
    rw [← ht] at ho ⊢
    exact .marked ho (ih he)
  | chained _ ih => exact .chained (ih hu)
  | member hl _ _ ihl ihr =>
    simp only [Phrase.lexemes, hl.lexemes_member, writes_append, writes_cons,
      Lexeme.IsWritten] at hu
    obtain ⟨u, _, rfl, hl, o, v, rfl, ho, hr⟩ := hu
    exact .member (ihl hl) ho (ihr hr)
  | arrow _ _ _ ihl ihr =>
    simp only [Phrase.lexemes, Expr.lexemes, writes_append, writes_cons, Lexeme.IsWritten] at hu
    obtain ⟨u, _, rfl, hl, o, v, rfl, ho, hr⟩ := hu
    exact .arrow (ihl hl) ho (ihr hr)
  | qualified _ _ _ ihl ihr =>
    simp only [Phrase.lexemes, Expr.lexemes, writes_append, writes_cons, Lexeme.IsWritten] at hu
    obtain ⟨u, _, rfl, hl, o, v, rfl, ho, hr⟩ := hu
    exact .qualified (ihl hl) ho (ihr hr)
  | base _ ih => exact .base (ih hu)
  | arrayLiteral _ _ _ ih =>
    simp only [Phrase.lexemes, Expr.lexemes, writes_append, writes_cons, writes_nil,
      Lexeme.IsWritten] at hu
    obtain ⟨o, _, rfl, ho, u, _, rfl, he, c, _, rfl, hc, rfl⟩ := hu
    exact .arrayLiteral ho (ih he) hc
  | index _ _ _ _ iha ihi =>
    simp only [Phrase.lexemes, Expr.lexemes, writes_append, writes_cons, writes_nil,
      Lexeme.IsWritten] at hu
    obtain ⟨u, _, rfl, ha, o, _, rfl, ho, v, _, rfl, hi, c, _, rfl, hc, rfl⟩ := hu
    exact .index (iha ha) ho (ihi hi) hc
  | call _ _ _ _ ih =>
    simp only [Phrase.lexemes, Expr.lexemes, writes_append, writes_cons, writes_nil,
      Lexeme.IsWritten] at hu
    obtain ⟨t, _, rfl, ⟨ht, htv⟩, o, _, rfl, ho, u, _, rfl, he, c, _, rfl, hc, rfl⟩ := hu
    rw [← htv]
    exact .call ht ho (ih he) hc
  | isTrue | isFalse | null =>
    simp only [Phrase.lexemes, Expr.lexemes, writes_cons, writes_nil, Lexeme.IsWritten] at hu
    obtain ⟨t, _, rfl, ht, rfl⟩ := hu
    first | exact .isTrue ht | exact .isFalse ht | exact .null ht
  | integer =>
    simp only [Phrase.lexemes, Expr.lexemes, writes_cons, writes_nil, Lexeme.IsWritten] at hu
    obtain ⟨t, _, rfl, ⟨ht, hv⟩, rfl⟩ := hu
    exact .integer ht (hv ▸ Number.int64?_int64Text _)
  | realNumber =>
    simp only [Phrase.lexemes, Expr.lexemes, writes_cons, writes_nil, Lexeme.IsWritten] at hu
    obtain ⟨t, _, rfl, ⟨ht, hv⟩, rfl⟩ := hu
    exact .realNumber ht hv
  | string | character | identifier =>
    simp only [Phrase.lexemes, Expr.lexemes, writes_cons, writes_nil, Lexeme.IsWritten] at hu
    obtain ⟨t, _, rfl, ⟨ht, hv⟩, rfl⟩ := hu
    rw [← hv]
    first | exact .string ht | exact .character ht | exact .identifier ht
  | group _ _ _ ih =>
    simp only [Phrase.lexemes, Expr.lexemes, writes_append, writes_cons, writes_nil,
      Lexeme.IsWritten] at hu
    obtain ⟨o, _, rfl, ho, u, _, rfl, he, c, _, rfl, hc, rfl⟩ := hu
    exact .group ho (ih he) hc
  | last _ ih => exact .last (ih hu)
  | @more w v o e es _ _ hes ih ihs =>
    cases es with
    | nil => exact absurd rfl hes.elements_ne_nil
    | cons f es =>
      simp only [Phrase.lexemes, Expr.lexemesOf, Lexeme.separated, writes_append, writes_cons,
        Lexeme.IsWritten] at hu
      obtain ⟨u, _, rfl, he, o, v, rfl, ho, hr⟩ := hu
      exact .more (ih he) ho (ihs hr)
  | none =>
    rw [writes_nil.1 hu]
    exact .none
  | some _ ih => exact .some (ih hu)
  | named => exact .named (names_of_writes (by simpa [Phrase.lexemes, TypeExpr.lexemes] using hu))
  | array _ _ _ ih =>
    simp only [Phrase.lexemes, TypeExpr.lexemes, writes_append, writes_cons, writes_nil,
      Lexeme.IsWritten] at hu
    obtain ⟨o, _, rfl, ho, u, _, rfl, ht, c, _, rfl, hc, rfl⟩ := hu
    exact .array ho (ih ht) hc
  | sizedArray _ _ _ _ _ iht ihe =>
    simp only [Phrase.lexemes, TypeExpr.lexemes, writes_append, writes_cons, writes_nil,
      Lexeme.IsWritten] at hu
    obtain ⟨o, _, rfl, ho, u, _, rfl, ht, s, _, rfl, hs, v, _, rfl, he, c, _, rfl, hc, rfl⟩ := hu
    exact .sizedArray ho (iht ht) hs (ihe he) hc
  | pointer _ _ ih =>
    simp only [Phrase.lexemes, TypeExpr.lexemes, writes_cons, Lexeme.IsWritten] at hu
    obtain ⟨o, u, rfl, ho, ht⟩ := hu
    exact .pointer ho (ih ht)

/-- A phrase has a canonical text: its real numbers have been read from one. -/
theorem Derives.writable {p : Phrase} {w : List Token} {e : p.Tree} (h : Derives p w e) :
    Lexeme.AllWritable (p.lexemes e) := by
  induction h with
  | @realNumber t value ht hv =>
    have hw : (Lexeme.real value).Writable := ⟨t, ht, hv⟩
    simpa [Phrase.lexemes, Expr.lexemes] using hw
  | member hl _ _ ihl ihr =>
    simp_all [Phrase.lexemes, hl.lexemes_member]
  | @more w v o e es _ _ hes ih ihs =>
    cases es with
    | nil => exact absurd rfl hes.elements_ne_nil
    | cons f es => simp_all [Phrase.lexemes, Expr.lexemesOf, Lexeme.separated]
  | _ =>
    simp_all [Phrase.lexemes, Expr.lexemes, TypeExpr.lexemes, Expr.lexemesOf, Lexeme.separated]

/-! ### Parts of statements -/

theorem Typed.type {w : List Token} {name : String} {t : TypeExpr} (h : Typed w name t) :
    ∃ v, Derives .typeExpr v t := by
  cases h with
  | mk _ _ ht => exact ⟨_, ht⟩

theorem typed_of_writes {v us : List Token} {name : String} {t : TypeExpr}
    (ht : Derives .typeExpr v t)
    (h : Writes us (.text .identifier name :: .fixed .colon :: t.lexemes)) : Typed us name t := by
  simp only [writes_cons, Lexeme.IsWritten] at h
  obtain ⟨n, _, rfl, ⟨hn, rfl⟩, c, u, rfl, hc, hu⟩ := h
  exact .mk hn hc (ht.of_writes hu)

theorem Fields.of_writes {w us : List Token} {fs : List Field} (h : Fields w fs)
    (hu : Writes us (fs.flatMap Field.lexemes)) : Fields us fs := by
  induction h generalizing us with
  | nil =>
    rw [writes_nil.1 hu]
    exact .nil
  | @cons w v s name t fs hw _ _ ih =>
    obtain ⟨v, ht⟩ := hw.type
    rw [List.flatMap_cons] at hu
    obtain ⟨u, x, rfl, hf, hx⟩ := writes_append.1 hu
    have hf : Writes u ((.text .identifier name :: .fixed .colon :: t.lexemes)
        ++ [.fixed .semicolon]) := hf
    obtain ⟨y, _, rfl, hy, hs⟩ := writes_append.1 hf
    obtain ⟨s, _, rfl, hs, hnil⟩ := writes_cons.1 hs
    rw [writes_nil.1 hnil, List.append_assoc]
    exact .cons (typed_of_writes ht hy) hs (ih hx)

theorem member_of_writes {next : Int64} {us : List Token} {m : EnumMember}
    (h : Writes us m.lexemes) : Member next us m := by
  simp only [EnumMember.lexemes, writes_cons, writes_nil, Lexeme.IsWritten] at h
  obtain ⟨n, _, rfl, ⟨hn, hv⟩, o, _, rfl, ho, i, _, rfl, ⟨hi, hvi⟩, rfl⟩ := h
  have hm : m = ⟨n.value, m.value⟩ := by rw [hv]
  rw [hm]
  exact .valued hn ho hi (hvi ▸ Number.int64?_int64Text _)

/-- Members that are written with their values are read from any value on. -/
theorem members_of_writes {next : Int64} {us : List Token} {ms : List EnumMember}
    (h : Writes us (Lexeme.separated (ms.map EnumMember.lexemes))) : Members next us ms := by
  induction ms generalizing next us with
  | nil =>
    rw [writes_nil.1 h]
    exact .nil
  | cons m ms ih =>
    cases ms with
    | nil => exact .last (member_of_writes h)
    | cons m' ms =>
      simp only [List.map_cons, Lexeme.separated, writes_append, writes_cons,
        Lexeme.IsWritten] at h
      obtain ⟨u, _, rfl, hm, o, v, rfl, ho, hv⟩ := h
      exact .more (member_of_writes hm) ho (ih hv)

theorem Parameter.of_writes {w us : List Token} {p : Param} (h : Parameter w p)
    (hu : Writes us p.lexemes) : Parameter us p := by
  cases h with
  | constant _ _ ht =>
    simp only [Param.lexemes, if_true, List.nil_append, writes_cons, Lexeme.IsWritten] at hu
    obtain ⟨n, _, rfl, ⟨hn, hv⟩, c, u, rfl, hc, hu⟩ := hu
    rw [← hv]
    exact .constant hn hc (ht.of_writes hu)
  | marked _ _ _ ht =>
    simp only [Param.lexemes, Bool.false_eq_true, if_false, List.singleton_append, writes_cons,
      Lexeme.IsWritten] at hu
    obtain ⟨n, _, rfl, ⟨hn, hv⟩, c, _, rfl, hc, k, u, rfl, hk, hu⟩ := hu
    rw [← hv]
    exact .marked hn hc hk (ht.of_writes hu)

theorem Parameters.of_writes {w us : List Token} {ps : List Param} (h : Parameters w ps)
    (hu : Writes us (Lexeme.separated (ps.map Param.lexemes))) : Parameters us ps := by
  induction h generalizing us with
  | last hp => exact .last (hp.of_writes hu)
  | @more w v o p ps hp _ hps ih =>
    cases ps with
    | nil => cases hps
    | cons p' ps =>
      simp only [List.map_cons, Lexeme.separated, writes_append, writes_cons,
        Lexeme.IsWritten] at hu
      obtain ⟨u, _, rfl, hu, o, v, rfl, ho, hv⟩ := hu
      exact .more (hp.of_writes hu) ho (ih hv)

theorem ParameterList.of_writes {w us : List Token} {ps : List Param} (h : ParameterList w ps)
    (hu : Writes us (Lexeme.separated (ps.map Param.lexemes))) : ParameterList us ps := by
  cases h with
  | nil =>
    rw [writes_nil.1 hu]
    exact .nil
  | some h => exact .some (h.of_writes hu)

/-- A result type is a type, also when it was left out. -/
theorem ResultType.type {w : List Token} {t : TypeExpr} (h : ResultType w t) :
    ∃ v, Derives .typeExpr v t := by
  cases h with
  | void => exact ⟨_, .named (.one (t := ⟨.identifier, "void", .null⟩) rfl)⟩
  | some _ ht => exact ⟨_, ht⟩

theorem Initializer.of_writes {w us : List Token} {i : Option Expr} (h : Initializer w i)
    (hu : Writes us (Expr.initializerLexemes i)) : Initializer us i := by
  cases h with
  | absent =>
    rw [writes_nil.1 hu]
    exact .absent
  | present _ he =>
    simp only [Expr.initializerLexemes, writes_cons, Lexeme.IsWritten] at hu
    obtain ⟨o, u, rfl, ho, hu⟩ := hu
    exact .present ho (he.of_writes hu)

theorem localName_of_writes {us : List Token} {a : Option String}
    (h : Writes us (Lexeme.localName a)) : LocalName us a := by
  cases a with
  | none =>
    rw [writes_nil.1 h]
    exact .absent
  | some name =>
    simp only [Lexeme.localName, writes_cons, writes_nil, Lexeme.IsWritten] at h
    obtain ⟨k, _, rfl, hk, n, _, rfl, ⟨hn, rfl⟩, rfl⟩ := h
    exact .present hk hn

theorem ownedName_of_writes {us : List Token} {owner : Option String} {name : String}
    (h : Writes us (Lexeme.ownedName owner name)) : OwnedName us owner name := by
  cases owner with
  | none =>
    simp only [Lexeme.ownedName, writes_cons, writes_nil, Lexeme.IsWritten] at h
    obtain ⟨n, _, rfl, ⟨hn, rfl⟩, rfl⟩ := h
    exact .free hn
  | some owner =>
    simp only [Lexeme.ownedName, Lexeme.path, writes_cons, writes_nil, Lexeme.IsWritten] at h
    obtain ⟨m, _, rfl, ⟨hm, rfl⟩, o, _, rfl, ho, n, _, rfl, ⟨hn, rfl⟩, rfl⟩ := h
    exact .owned hm ho hn

theorem strings_of_writes {us : List Token} {texts : List String}
    (h : Writes us (texts.map (.text .string))) :
    (∀ t ∈ us, t.kind = .string) ∧ us.map (·.value) = texts := by
  induction texts generalizing us with
  | nil =>
    rw [writes_nil.1 h]
    exact ⟨by simp, rfl⟩
  | cons text texts ih =>
    simp only [List.map_cons, writes_cons, Lexeme.IsWritten] at h
    obtain ⟨t, us, rfl, ⟨ht, rfl⟩, hu⟩ := h
    obtain ⟨hs, rfl⟩ := ih hu
    exact ⟨List.forall_mem_cons.2 ⟨ht, hs⟩, rfl⟩

/-! ### Statements -/

/-- The canonical way to write what a clause forms. -/
def Clause.lexemes : (c : Clause) → c.Tree → List Lexeme
  | .statement, s => s.lexemes
  | .block, b => Lexeme.braced (Stmt.lexemesOf b)
  | .sequence, b => Stmt.lexemesOf b
  | .otherwise, o => o.lexemes

/-- A block between braces. -/
theorem writes_braced {us : List Token} {as : List Lexeme} :
    Writes us (Lexeme.braced as) ↔
      ∃ o u c, us = o :: (u ++ [c]) ∧ o.kind = .lBrace ∧ Writes u as ∧ c.kind = .rBrace := by
  simp only [Lexeme.braced, writes_append, writes_cons, writes_nil, Lexeme.IsWritten]
  constructor
  · rintro ⟨o, _, rfl, ho, u, _, rfl, hu, c, _, rfl, hc, rfl⟩
    exact ⟨o, u, c, rfl, ho, hu, hc⟩
  · rintro ⟨o, u, c, rfl, ho, hu, hc⟩
    exact ⟨o, u ++ [c], rfl, ho, u, [c], rfl, hu, c, [], rfl, hc, rfl⟩

/-- Nested namespaces are written as nested blocks. -/
theorem nested_of_writes {name : String} {inner : List String} {body : List Stmt} {us : List Token}
    (hb : ∀ {us}, Writes us (Clause.block.lexemes body) → Forms .block us body)
    (h : Writes us (nested name inner body).lexemes) :
    Forms .statement us (nested name inner body) := by
  induction inner generalizing name us with
  | nil =>
    simp only [nested, Stmt.lexemes, writes_cons, Lexeme.IsWritten] at h
    obtain ⟨k, _, rfl, hk, n, u, rfl, ⟨hn, rfl⟩, hu⟩ := h
    have hf : Forms .statement (k :: ([n] ++ u)) (nested n.value [] body) :=
      .namespaceDecl hk (.one hn) (hb hu)
    exact hf
  | cons next inner ih =>
    simp only [nested, Stmt.lexemes, Stmt.lexemesOf, List.append_nil, writes_cons, writes_braced,
      Lexeme.IsWritten] at h
    obtain ⟨k, _, rfl, hk, n, _, rfl, ⟨hn, rfl⟩, o, u, c, rfl, ho, hu, hc⟩ := h
    have hs : Forms .sequence (u ++ []) [nested next inner body] := .cons (ih hu) .nil
    rw [List.append_nil] at hs
    have hf : Forms .statement (k :: ([n] ++ _)) (nested n.value [] [nested next inner body]) :=
      .namespaceDecl hk (.one hn) (.block ho hs hc)
    exact hf

/-- A clause is formed by every way to write its tree canonically. -/
theorem Forms.of_writes {c : Clause} {w : List Token} {s : c.Tree} (h : Forms c w s)
    {us : List Token} (hu : Writes us (c.lexemes s)) : Forms c us s := by
  induction h generalizing us with
  | namespaceDecl _ _ _ ih => exact nested_of_writes ih hu
  | functionDecl _ _ _ hv _ hx _ ih =>
    obtain ⟨z, ht⟩ := hx.type
    simp only [Clause.lexemes, Stmt.lexemes, writes_append, writes_cons, Lexeme.IsWritten] at hu
    obtain ⟨k, _, rfl, hk, n, _, rfl, hn, o, _, rfl, ho, v, _, rfl, hp, c, _, rfl, hc, a, _, rfl,
      ha, x, y, rfl, hr, hb⟩ := hu
    exact .functionDecl hk (ownedName_of_writes hn) ho (hv.of_writes hp) hc
      (.some ha (ht.of_writes hr)) (ih hb)
  | @variableDecl k s constant w v name t i _ hw hv _ =>
    obtain ⟨z, ht⟩ := hw.type
    simp only [Clause.lexemes, Stmt.lexemes, writes_append, writes_cons, writes_nil,
      Lexeme.IsWritten] at hu
    obtain ⟨k, _, rfl, hk, n, _, rfl, ⟨hn, rfl⟩, c, _, rfl, hc, u, _, rfl, hu, x, _, rfl, hx, s, _,
      rfl, hs, rfl⟩ := hu
    exact .variableDecl hk (.mk hn hc (ht.of_writes hu)) (hv.of_writes hx) hs
  | structDecl _ _ _ hw _ =>
    simp only [Clause.lexemes, Stmt.lexemes, writes_braced, writes_cons, Lexeme.IsWritten] at hu
    obtain ⟨k, _, rfl, hk, n, _, rfl, ⟨hn, hv⟩, o, u, c, rfl, ho, hf, hc⟩ := hu
    rw [← hv]
    exact .structDecl hk hn ho (hw.of_writes hf) hc
  | unionDecl _ _ _ hw _ =>
    simp only [Clause.lexemes, Stmt.lexemes, writes_braced, writes_cons, Lexeme.IsWritten] at hu
    obtain ⟨k, _, rfl, hk, n, _, rfl, ⟨hn, hv⟩, o, u, c, rfl, ho, hf, hc⟩ := hu
    rw [← hv]
    exact .unionDecl hk hn ho (hw.of_writes hf) hc
  | enumDecl =>
    simp only [Clause.lexemes, Stmt.lexemes, writes_braced, writes_cons, Lexeme.IsWritten] at hu
    obtain ⟨k, _, rfl, hk, n, _, rfl, ⟨hn, hv⟩, o, u, c, rfl, ho, hm, hc⟩ := hu
    rw [← hv]
    exact .enumDecl hk hn ho (members_of_writes hm) hc
  | usingDecl =>
    simp only [Clause.lexemes, Stmt.lexemes, writes_append, writes_cons, writes_nil,
      Lexeme.IsWritten] at hu
    obtain ⟨k, _, rfl, hk, n, _, rfl, ⟨hn, hv⟩, u, _, rfl, ha, s, _, rfl, hs, rfl⟩ := hu
    rw [← hv]
    exact .usingDecl hk hn (localName_of_writes ha) hs
  | ifElse _ hw _ _ ihb iho =>
    simp only [Clause.lexemes, Stmt.lexemes, writes_append, writes_cons, Lexeme.IsWritten] at hu
    obtain ⟨k, _, rfl, hk, u, _, rfl, hc, v, x, rfl, hb, ho⟩ := hu
    exact .ifElse hk (hw.of_writes hc) (ihb hb) (iho ho)
  | whileLoop _ hw _ ih =>
    simp only [Clause.lexemes, Stmt.lexemes, writes_append, writes_cons, Lexeme.IsWritten] at hu
    obtain ⟨k, _, rfl, hk, u, v, rfl, hc, hb⟩ := hu
    exact .whileLoop hk (hw.of_writes hc) (ih hb)
  | doWhile _ _ _ hv _ ih =>
    simp only [Clause.lexemes, Stmt.lexemes, writes_append, writes_cons, writes_nil,
      Lexeme.IsWritten] at hu
    obtain ⟨k, _, rfl, hk, u, _, rfl, hb, l, _, rfl, hl, v, _, rfl, hc, s, _, rfl, hs, rfl⟩ := hu
    exact .doWhile hk (ih hb) hl (hv.of_writes hc) hs
  | forLoop _ _ _ hx _ ihi ihc ihb =>
    simp only [Clause.lexemes, Stmt.lexemes, writes_append, writes_cons, Lexeme.IsWritten] at hu
    obtain ⟨k, _, rfl, hk, w, _, rfl, hi, v, _, rfl, hc, x, y, rfl, he, hb⟩ := hu
    exact .forLoop hk (ihi hi) (ihc hc) (hx.of_writes he) (ihb hb)
  | breakLoop =>
    simp only [Clause.lexemes, Stmt.lexemes, writes_cons, writes_nil, Lexeme.IsWritten] at hu
    obtain ⟨k, _, rfl, hk, s, _, rfl, hs, rfl⟩ := hu
    exact .breakLoop hk hs
  | continueLoop =>
    simp only [Clause.lexemes, Stmt.lexemes, writes_cons, writes_nil, Lexeme.IsWritten] at hu
    obtain ⟨k, _, rfl, hk, s, _, rfl, hs, rfl⟩ := hu
    exact .continueLoop hk hs
  | returnNothing =>
    simp only [Clause.lexemes, Stmt.lexemes, writes_cons, writes_nil, Lexeme.IsWritten] at hu
    obtain ⟨k, _, rfl, hk, s, _, rfl, hs, rfl⟩ := hu
    exact .returnNothing hk hs
  | returnValue _ hw _ =>
    simp only [Clause.lexemes, Stmt.lexemes, writes_append, writes_cons, writes_nil,
      Lexeme.IsWritten] at hu
    obtain ⟨k, _, rfl, hk, u, _, rfl, he, s, _, rfl, hs, rfl⟩ := hu
    exact .returnValue hk (hw.of_writes he) hs
  | free _ hw _ =>
    simp only [Clause.lexemes, Stmt.lexemes, writes_append, writes_cons, writes_nil,
      Lexeme.IsWritten] at hu
    obtain ⟨k, _, rfl, hk, u, _, rfl, he, s, _, rfl, hs, rfl⟩ := hu
    exact .free hk (hw.of_writes he) hs
  | assembly =>
    simp only [Clause.lexemes, Stmt.lexemes, writes_braced, writes_cons, Lexeme.IsWritten] at hu
    obtain ⟨k, _, rfl, hk, o, u, c, rfl, ho, ht, hc⟩ := hu
    obtain ⟨hs, hv⟩ := strings_of_writes ht
    rw [← hv]
    exact .assembly hk ho hs hc
  | expression hw _ =>
    simp only [Clause.lexemes, Stmt.lexemes, writes_append, writes_cons, writes_nil,
      Lexeme.IsWritten] at hu
    obtain ⟨u, _, rfl, he, s, _, rfl, hs, rfl⟩ := hu
    exact .expression (hw.of_writes he) hs
  | block _ _ _ ih =>
    obtain ⟨o, u, c, rfl, ho, hb, hc⟩ := writes_braced.1 hu
    exact .block ho (ih hb) hc
  | nil =>
    rw [writes_nil.1 hu]
    exact .nil
  | stray _ _ ih => exact ih hu
  | cons _ _ ihs ihb =>
    simp only [Clause.lexemes, Stmt.lexemesOf, writes_append] at hu
    obtain ⟨u, v, rfl, hs, hb⟩ := hu
    exact .cons (ihs hs) (ihb hb)
  | nothing =>
    rw [writes_nil.1 hu]
    exact .nothing
  | elseBlock _ _ ih =>
    simp only [Clause.lexemes, Otherwise.lexemes, writes_cons, Lexeme.IsWritten] at hu
    obtain ⟨k, u, rfl, hk, hb⟩ := hu
    exact .elseBlock hk (ih hb)
  | elseIf _ _ hw _ _ ihb iho =>
    simp only [Clause.lexemes, Otherwise.lexemes, writes_append, writes_cons,
      Lexeme.IsWritten] at hu
    obtain ⟨k, _, rfl, hk, i, _, rfl, hi, u, _, rfl, hc, v, x, rfl, hb, ho⟩ := hu
    exact .elseIf hk hi (hw.of_writes hc) (ihb hb) (iho ho)

/-! ### Canonical texts of statements -/

theorem Typed.writable {w : List Token} {name : String} {t : TypeExpr} (h : Typed w name t) :
    Lexeme.AllWritable t.lexemes := by
  cases h with
  | mk _ _ ht => exact ht.writable

theorem Fields.writable {w : List Token} {fs : List Field} (h : Fields w fs) :
    Lexeme.AllWritable (fs.flatMap Field.lexemes) := by
  induction h with
  | nil => simp
  | cons hw _ _ ih => simp [Field.lexemes, hw.writable, ih]

theorem members_writable (ms : List EnumMember) :
    Lexeme.AllWritable (Lexeme.separated (ms.map EnumMember.lexemes)) := by
  apply Lexeme.allWritable_separated
  simp [EnumMember.lexemes]

theorem Parameter.writable {w : List Token} {p : Param} (h : Parameter w p) :
    Lexeme.AllWritable p.lexemes := by
  cases h with
  | constant _ _ ht => simpa [Param.lexemes, Phrase.lexemes] using ht.writable
  | marked _ _ _ ht => simpa [Param.lexemes, Phrase.lexemes] using ht.writable

theorem Parameters.writable {w : List Token} {ps : List Param} (h : Parameters w ps) :
    ∀ p ∈ ps, Lexeme.AllWritable p.lexemes := by
  induction h with
  | last hp => simpa using hp.writable
  | more hp _ _ ih => exact List.forall_mem_cons.2 ⟨hp.writable, ih⟩

theorem ParameterList.writable {w : List Token} {ps : List Param} (h : ParameterList w ps) :
    Lexeme.AllWritable (Lexeme.separated (ps.map Param.lexemes)) := by
  cases h with
  | nil => simp [Lexeme.separated]
  | some h =>
    apply Lexeme.allWritable_separated
    simpa using h.writable

theorem nested_writable {name : String} {inner : List String} {body : List Stmt}
    (h : Lexeme.AllWritable (Stmt.lexemesOf body)) :
    Lexeme.AllWritable (nested name inner body).lexemes := by
  induction inner generalizing name with
  | nil => simpa [nested, Stmt.lexemes] using h
  | cons next inner ih => simpa [nested, Stmt.lexemes, Stmt.lexemesOf] using ih

/-- A clause has a canonical text. -/
theorem Forms.writable {c : Clause} {w : List Token} {s : c.Tree} (h : Forms c w s) :
    Lexeme.AllWritable (c.lexemes s) := by
  induction h with
  | namespaceDecl _ _ _ ih => exact nested_writable (by simpa [Clause.lexemes] using ih)
  | @functionDecl k o c w v x y owner name ps t body _ _ _ hv _ hx _ ih =>
    obtain ⟨z, ht⟩ := hx.type
    have ht : Lexeme.AllWritable t.lexemes := ht.writable
    have ho : Lexeme.AllWritable (Lexeme.ownedName owner name) := by
      cases owner <;> simp [Lexeme.ownedName]
    simp_all [Clause.lexemes, Stmt.lexemes, hv.writable]
  | @variableDecl k s constant w v name t i _ hw hv _ =>
    have hi : Lexeme.AllWritable (Expr.initializerLexemes i) := by
      cases hv with
      | absent => simp [Expr.initializerLexemes]
      | present _ he => simpa [Expr.initializerLexemes, Phrase.lexemes] using he.writable
    simp [Clause.lexemes, Stmt.lexemes, hw.writable, hi]
  | structDecl _ _ _ hw _ | unionDecl _ _ _ hw _ =>
    simpa [Clause.lexemes, Stmt.lexemes] using hw.writable
  | enumDecl => simpa [Clause.lexemes, Stmt.lexemes] using members_writable _
  | @usingDecl k n s w a =>
    have ha : Lexeme.AllWritable (Lexeme.localName a) := by
      cases a <;> simp [Lexeme.localName]
    simpa [Clause.lexemes, Stmt.lexemes] using ha
  | @assembly k o c w =>
    have ht : Lexeme.AllWritable ((w.map (·.value)).map (.text .string)) := by
      simp [Lexeme.AllWritable]
    simpa [Clause.lexemes, Stmt.lexemes] using ht
  | ifElse _ hw | whileLoop _ hw | doWhile _ _ _ hw | forLoop _ _ _ hw | returnValue _ hw
  | free _ hw | expression hw | elseIf _ _ hw =>
    have hw : Lexeme.AllWritable (Expr.lexemes _) := hw.writable
    simp_all [Clause.lexemes, Stmt.lexemes, Otherwise.lexemes]
  | _ => simp_all [Clause.lexemes, Stmt.lexemes, Stmt.lexemesOf, Otherwise.lexemes]

/-! ### Whole files -/

/-- Whatever the tokens, the tree of a parse has a canonical text, and reading any such text gives
the tree back without a diagnostic. -/
theorem parse_lexemes (ts : List Token) :
    (∃ us, Writes us (File.lexemes (parse ts).1)) ∧
      ∀ us, Writes us (File.lexemes (parse ts).1) → parse us = ((parse ts).1, []) := by
  obtain ⟨w, hw, -, -⟩ := program_formed ts
  constructor
  · exact exists_writes hw.writable
  · intro us hu
    have hp := parse_of_forms (hw.of_writes hu) headKind_nil
    rwa [List.append_nil] at hp

end FrontEnd.Grammar
