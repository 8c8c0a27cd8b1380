import FrontEnd.Grammar.Statement
import FrontEnd.Proofs.Reading

/-!
Who can miss a closing brace. Expressions, types and the parts of statements outside of braces
fail for other causes: only the fields of a struct or a union, and blocks, look for a brace up to
the end of input. Expressions and types fail at the token that they blame.
-/

set_option autoImplicit false

namespace FrontEnd.Grammar

namespace Parsed

variable {α β : Type} {n : Nat} {ts : List Token}

/-- Every failure of the reader satisfies `bad`, with the tokens left behind it. -/
def Fails (p : Parsed α n) (bad : Failure → List Token → Prop) : Prop :=
  ∀ failure rest, p.result = (.error failure, rest) → bad failure rest

variable {bad : Failure → List Token → Prop}

theorem Fails.mono {p : Parsed α n} {bad' : Failure → List Token → Prop} (h : p.Fails bad)
    (hb : ∀ failure rest, bad failure rest → bad' failure rest) : p.Fails bad' :=
  fun failure rest hr => hb failure rest (h failure rest hr)

theorem fails_refuse {cause : Cause} (h : bad (.here cause ts) ts) :
    (refuse cause ts : Parsed α ts.length).Fails bad := by
  intro failure rest hr
  simp only [refuse, result_failed, Prod.mk.injEq, Except.error.injEq] at hr
  obtain ⟨rfl, rfl⟩ := hr
  exact h

@[simp] theorem fails_loose {p : Parsed α n} : p.loose.Fails bad ↔ p.Fails bad := by simp [Fails]

@[simp] theorem fails_map {p : Parsed α n} {f : α → β} : (p.map f).Fails bad ↔ p.Fails bad := by
  cases p <;> simp [Fails, map]

theorem fails_andThen {p : Parsed α n}
    {next : (value : α) → (rest : List Token) → rest.length < n → Parsed β (rest.length + 1)}
    (hp : p.Fails bad) (hn : ∀ value rest h, p.Gives value rest → (next value rest h).Fails bad) :
    (p.andThen next).Fails bad := by
  cases p with
  | done value rest shorter =>
    have h := hn value rest shorter rfl
    unfold Fails at h ⊢
    rwa [andThen, result_before]
  | failed failure rest within =>
    simpa [Fails, andThen] using hp

theorem fails_chain {p : Parsed α n}
    {next : (value : α) → (rest : List Token) → rest.length < n → Parsed β rest.length}
    (hp : p.Fails bad) (hn : ∀ value rest h, p.Gives value rest → (next value rest h).Fails bad) :
    (p.chain next).Fails bad :=
  fails_andThen hp fun value rest h hg => fails_loose.2 (hn value rest h hg)

theorem fails_stay {value : α} : (stay value ts).Fails bad := by simp [Fails]

theorem fails_give {front : Front ts} {value : α} : (front.give value).Fails bad := by
  simp [Fails]

/-- Reading does not fail because a closing brace is missing. -/
abbrev Spares (p : Parsed α n) : Prop :=
  p.Fails fun failure _ => failure.cause ≠ .missingClosingBrace

/-- Reading fails only at the token to blame, and not because a closing brace is missing. -/
abbrev Halts (p : Parsed α n) : Prop :=
  p.Fails fun failure rest => ∃ cause, failure = .here cause rest ∧ cause ≠ .missingClosingBrace

theorem Halts.spares {p : Parsed α n} (h : p.Halts) : p.Spares := by
  refine h.mono fun failure rest hf => ?_
  obtain ⟨cause, rfl, hc⟩ := hf
  exact hc

theorem halts_refuse {cause : Cause} (h : cause ≠ .missingClosingBrace) :
    (refuse cause ts : Parsed α ts.length).Halts := fails_refuse ⟨cause, rfl, h⟩

end Parsed

open Parsed

section

variable {α : Type} {ts : List Token} {front : Front ts} {bad : Failure → List Token → Prop}

theorem Front.fails_andThen
    {next : (t : Token) → (rest : List Token) → rest.length < ts.length →
      Parsed α (rest.length + 1)}
    (h : ∀ t rest hr, (next t rest hr).Fails bad) : (front.andThen next).Fails bad :=
  Parsed.fails_andThen fails_give fun t rest hr _ => h t rest hr

theorem Front.fails_chain
    {next : (t : Token) → (rest : List Token) → rest.length < ts.length → Parsed α rest.length}
    (h : ∀ t rest hr, (next t rest hr).Fails bad) : (front.chain next).Fails bad :=
  Parsed.fails_chain fails_give fun t rest hr _ => h t rest hr

end

theorem expect_halts {kind : TokenKind} {ts : List Token} : (expect kind ts).Halts := by
  rw [expect]
  split
  · exact fails_give
  · exact halts_refuse (by simp)

/-! ### Expressions and types -/

theorem path_halts (ts : List Token) : (path ts).Halts := by
  rw [path]
  refine fails_andThen expect_halts fun name rest hr _ => ?_
  split
  · exact fails_stay
  · refine fails_loose.2 (Front.fails_chain fun _ rest' hr' => fails_map.2 ?_)
    exact path_halts rest'
termination_by ts.length

/-- Every reader that starts at `ts` fails only at the token to blame. -/
structure Halting (ts : List Token) : Prop where
  assignment : (assignment ts).Halts
  binary (levels : List Precedence) : (binary levels ts).Halts
  binaryTail (level : Precedence) (levels : List Precedence) (left : Expr) :
    (binaryTail level levels left ts).Halts
  castTail (operand : Expr) : (castTail operand ts).Halts
  unary : (unary ts).Halts
  access : (access ts).Halts
  accessTail (base : Expr) : (accessTail base ts).Halts
  listUntil (close : TokenKind) : (listUntil close ts).Halts
  elements : (elements ts).Halts
  typeExpr : (typeExpr ts).Halts

section

variable {ts : List Token}

theorem literal_halts {α : Type} {make : α → Expr} {value? : Option α} {front : Front ts} :
    (literal make value? front).Halts := by
  cases value? with
  | none => exact halts_refuse (by simp)
  | some value => exact fails_give

variable (ih : ∀ us, us.length < ts.length → Halting us)
include ih

theorem primary_halts : (primary ts).Halts := by
  rw [primary]
  split
  · exact halts_refuse (by simp)
  · split
    · exact fails_give
    · exact fails_give
    · exact fails_give
    · exact literal_halts
    · exact literal_halts
    · exact fails_give
    · exact fails_give
    · exact fails_give
    · refine Front.fails_chain fun _ rest hr => ?_
      exact fails_chain (ih rest hr).assignment fun _ _ _ _ => fails_map.2 expect_halts
    · exact halts_refuse (by simp)

theorem qualified_halts : (qualified ts).Halts := by
  rw [qualified]
  refine fails_andThen (primary_halts ih) fun _ rest hr _ => ?_
  split
  · exact fails_stay
  · refine fails_loose.2 (Front.fails_chain fun _ rest' hr' => fails_map.2 ?_)
    exact (ih rest' (by omega)).access

theorem arrayLiteral_halts : (arrayLiteral ts).Halts := by
  rw [arrayLiteral]
  split
  · exact qualified_halts ih
  · exact Front.fails_chain fun _ rest hr => fails_map.2 ((ih rest hr).listUntil _)

theorem access_halts : (access ts).Halts := by
  rw [access]
  exact fails_andThen (arrayLiteral_halts ih) fun base rest hr _ => (ih rest hr).accessTail base

theorem accessTail_halts (base : Expr) : (accessTail base ts).Halts := by
  rw [accessTail]
  split
  · exact fails_stay
  · split
    · split
      · refine fails_loose.2 (Front.fails_chain fun _ rest hr => ?_)
        refine fails_andThen ((ih rest hr).listUntil _) fun _ rest' hr' _ => ?_
        exact (ih rest' (by omega)).accessTail _
      · exact fails_loose.2 (halts_refuse (by simp))
    · refine fails_loose.2 (Front.fails_chain fun _ rest hr => ?_)
      refine fails_chain (ih rest hr).assignment fun _ rest' hr' _ => ?_
      refine fails_andThen expect_halts fun _ rest'' hr'' _ => ?_
      exact (ih rest'' (by omega)).accessTail _
    · exact fails_loose.2 (Front.fails_chain fun _ rest hr => fails_map.2 (ih rest hr).access)
    · exact fails_loose.2 (Front.fails_chain fun _ rest hr => fails_map.2 (ih rest hr).access)
    · exact fails_stay

theorem unary_halts : (unary ts).Halts := by
  rw [unary]
  split
  · exact access_halts ih
  · refine Front.fails_chain fun _ rest hr => ?_
    split
    · exact fails_map.2 (ih rest hr).access
    · exact fails_map.2 (ih rest hr).access
    · exact fails_map.2 (ih rest hr).typeExpr
    · exact fails_map.2 (ih rest hr).unary

theorem castTail_halts (operand : Expr) : (castTail operand ts).Halts := by
  rw [castTail]
  split
  · exact fails_stay
  · refine fails_loose.2 (Front.fails_chain fun _ rest hr => ?_)
    refine fails_andThen (ih rest hr).typeExpr fun _ rest' hr' _ => ?_
    exact (ih rest' (by omega)).castTail _

theorem binaryTail_halts (level : Precedence) (levels : List Precedence) (left : Expr) :
    (binaryTail level levels left ts).Halts := by
  rw [binaryTail]
  split
  · exact fails_stay
  · refine fails_loose.2 (Front.fails_chain fun _ rest hr => ?_)
    refine fails_andThen ((ih rest hr).binary levels) fun _ rest' hr' _ => ?_
    exact (ih rest' (by omega)).binaryTail level levels _

theorem binary_halts (levels : List Precedence) : (binary levels ts).Halts := by
  induction levels with
  | nil =>
    rw [binary, cast]
    exact fails_andThen (unary_halts ih) fun operand rest hr _ => (ih rest hr).castTail operand
  | cons level levels ihl =>
    rw [binary]
    exact fails_andThen ihl fun left rest hr _ => (ih rest hr).binaryTail level levels left

theorem assignment_halts : (assignment ts).Halts := by
  rw [assignment]
  refine fails_andThen (binary_halts ih _) fun left rest hr _ => ?_
  split
  · exact fails_stay
  · refine fails_loose.2 (Front.fails_chain fun _ rest' hr' => fails_map.2 ?_)
    exact (ih rest' (by omega)).assignment

theorem elements_halts : (elements ts).Halts := by
  rw [elements]
  refine fails_andThen (assignment_halts ih) fun value rest hr _ => ?_
  split
  · exact fails_stay
  · refine fails_loose.2 (Front.fails_chain fun _ rest' hr' => fails_map.2 ?_)
    exact (ih rest' (by omega)).elements

theorem listUntil_halts (close : TokenKind) : (listUntil close ts).Halts := by
  rw [listUntil]
  split
  · exact fails_give
  · exact fails_chain (elements_halts ih) fun _ _ _ _ => fails_map.2 expect_halts

theorem typeExpr_halts : (typeExpr ts).Halts := by
  rw [typeExpr]
  split
  · rw [pointerType]
    split
    · exact fails_map.2 (path_halts ts)
    · exact Front.fails_chain fun _ rest hr => fails_map.2 (ih rest hr).typeExpr
  · refine Front.fails_chain fun _ rest hr => ?_
    refine fails_chain (ih rest hr).typeExpr fun element rest' hr' _ => ?_
    split
    · exact fails_map.2 expect_halts
    · refine Front.fails_chain fun _ rest'' hr'' => ?_
      refine fails_chain (ih rest'' (by omega)).assignment fun _ _ _ _ => ?_
      exact fails_map.2 expect_halts

end

theorem halting (ts : List Token) : Halting ts := by
  induction ts using tokens_induction with
  | step ts ih =>
    exact {
      assignment := assignment_halts ih
      binary := binary_halts ih
      binaryTail := binaryTail_halts ih
      castTail := castTail_halts ih
      unary := unary_halts ih
      access := access_halts ih
      accessTail := accessTail_halts ih
      listUntil := listUntil_halts ih
      elements := elements_halts ih
      typeExpr := typeExpr_halts ih }

/-! ### Parts of statements -/

theorem terminated_spares {α : Type} {n : Nat} {p : Parsed α n} (h : p.Spares) :
    (terminated p).Spares :=
  fails_chain h fun _ _ _ _ => fails_map.2 expect_halts.spares

theorem expressionStmt_spares (ts : List Token) : (expressionStmt ts).Spares :=
  fails_map.2 (terminated_spares (halting ts).assignment.spares)

theorem typed_spares (ts : List Token) : (typed ts).Spares := by
  refine fails_chain expect_halts.spares fun _ rest _ _ => ?_
  refine fails_chain expect_halts.spares fun _ rest' _ _ => fails_map.2 ?_
  exact (halting rest').typeExpr.spares

theorem variableDecl_spares (constant : Bool) (ts : List Token) :
    (variableDecl constant ts).Spares := by
  refine terminated_spares (fails_andThen (typed_spares ts) fun _ rest _ _ => fails_map.2 ?_)
  rw [initializer]
  split
  · exact fails_stay
  · exact fails_loose.2 (Front.fails_chain fun _ rest' _ =>
      fails_map.2 (halting rest').assignment.spares)

theorem memberNumber_spares (ts : List Token) : (memberNumber ts).Spares := by
  unfold memberNumber
  have h : (expect .integer ts).Spares := expect_halts.spares
  cases he : expect .integer ts with
  | done t rest shorter =>
    dsimp only
    split <;> simp [Fails]
  | failed failure rest within =>
    rw [he] at h
    simpa [Fails] using h

theorem members_spares (next : Int64) (ts : List Token) : (members next ts).Spares := by
  rw [members]
  split
  · exact fails_stay
  · refine fails_loose.2 (fails_andThen expect_halts.spares fun _ rest hr _ => ?_)
    refine fails_andThen ?_ fun value rest' hr' _ => ?_
    · rw [memberValue]
      split
      · exact fails_stay
      · exact fails_loose.2 (Front.fails_chain fun _ rest' _ => memberNumber_spares rest')
    · split
      · exact fails_stay
      · refine fails_loose.2 (Front.fails_andThen fun _ rest'' hr'' => fails_map.2 ?_)
        exact members_spares (value + 1) rest''
termination_by ts.length

theorem enumDecl_spares (ts : List Token) : (enumDecl ts).Spares := by
  refine fails_chain expect_halts.spares fun _ rest _ _ => ?_
  refine fails_andThen expect_halts.spares fun _ rest' _ _ => ?_
  exact fails_chain (members_spares 0 rest') fun _ _ _ _ => fails_map.2 expect_halts.spares

theorem usingDecl_spares (ts : List Token) : (usingDecl ts).Spares := by
  refine terminated_spares (fails_andThen expect_halts.spares fun _ rest _ _ => fails_map.2 ?_)
  rw [localName]
  split
  · exact fails_stay
  · exact fails_loose.2 (Front.fails_chain fun _ _ _ => fails_map.2 expect_halts.spares)

theorem word_spares (statement : Stmt) (ts : List Token) : (word statement ts).Spares :=
  fails_map.2 expect_halts.spares

theorem returnValue_spares (ts : List Token) : (returnValue ts).Spares := by
  rw [returnValue]
  split
  · exact fails_give
  · exact fails_map.2 (terminated_spares (halting ts).assignment.spares)

theorem free_spares (ts : List Token) : (free ts).Spares :=
  fails_map.2 (terminated_spares (halting ts).access.spares)

theorem operations_spares (ts : List Token) : (operations ts).Spares := by
  rw [operations]
  split
  · exact Front.fails_chain fun _ rest hr => fails_map.2 (operations_spares rest)
  · exact fails_map.2 expect_halts.spares
termination_by ts.length

theorem assembly_spares (ts : List Token) : (assembly ts).Spares :=
  fails_chain expect_halts.spares fun _ rest _ _ => fails_map.2 (operations_spares rest)

theorem params_spares (ts : List Token) : (params ts).Spares := by
  rw [params]
  refine fails_andThen ?_ fun _ rest hr _ => ?_
  · refine fails_chain expect_halts.spares fun _ rest _ _ => ?_
    refine fails_andThen expect_halts.spares fun _ rest' _ _ => ?_
    refine fails_chain ?_ fun _ rest'' _ _ => fails_map.2 (halting rest'').typeExpr.spares
    rw [variableMark]
    split
    · exact fails_stay
    · exact fails_loose.2 fails_give
  · split
    · exact fails_stay
    · refine fails_loose.2 (Front.fails_chain fun _ rest' hr' => fails_map.2 ?_)
      exact params_spares rest'
termination_by ts.length

theorem ownedName_spares (ts : List Token) : (ownedName ts).Spares := by
  refine fails_andThen expect_halts.spares fun _ rest _ _ => ?_
  split
  · exact fails_stay
  · exact fails_loose.2 (Front.fails_chain fun _ _ _ => fails_map.2 expect_halts.spares)

theorem signature_spares (ts : List Token) : (signature ts).Spares := by
  refine fails_chain (ownedName_spares ts) fun _ rest _ _ => ?_
  refine fails_chain expect_halts.spares fun _ rest' _ _ => ?_
  refine fails_andThen ?_ fun _ rest'' _ _ => fails_map.2 ?_
  · rw [paramList]
    split
    · exact fails_give
    · exact fails_chain (params_spares rest') fun _ _ _ _ => fails_map.2 expect_halts.spares
  · rw [resultType]
    split
    · exact fails_stay
    · exact fails_loose.2 (Front.fails_chain fun _ rest _ => (halting rest).typeExpr.spares)

end FrontEnd.Grammar
