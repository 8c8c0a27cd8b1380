import FrontEnd.Proofs.Diagnosis
import FrontEnd.Proofs.Writing
import Mathlib.Algebra.Group.Int.Defs
import Mathlib.Algebra.Group.Nat.Defs
import Mathlib.Data.List.Forall2

/-!
The numbers of a source. A number that is scanned is refused only if it is an integer that 64 bits
cannot hold, and the integers of a file are the decimal values of integer tokens, in the order in
which these stand in the source.
-/

set_option autoImplicit false

namespace FrontEnd

/-! ### Digits -/

namespace Number

/-- Digits are read as the number that they write, unless it is too great. -/
theorem int64?_of_digits {text : String} (hn : text.toList ≠ [])
    (hd : ∀ c ∈ text.toList, isDigit c) :
    int64? text = none ∧ 2 ^ 63 - 1 < ofDigits text.toList ∨
      ∃ n, int64? text = some n ∧ n.toInt = ofDigits text.toList := by
  have hnat : natural? text.toList = some (ofDigits text.toList) := by
    simp only [natural?, List.all_eq_true.2 hd, List.isEmpty_eq_false_iff.2 hn]
    rfl
  have hint := integer?_eq_natural? hnat
  have hmin : Int64.minValue.toInt = -2 ^ 63 := by decide
  have hmax : Int64.maxValue.toInt = 2 ^ 63 - 1 := by decide
  simp only [int64?, hint, Option.bind_some, hmin, hmax]
  split
  · exact .inr ⟨_, rfl, Int64.toInt_ofInt_of_le (by omega) (by omega)⟩
  · exact .inl ⟨rfl, by omega⟩

end Number

theorem Segment.Lexical.digits {cs : List Char} (h : Segment.Lexical .integer cs) :
    cs ≠ [] ∧ ∀ c ∈ cs, Number.isDigit c := by
  cases h with
  | operator hk | keyword hk => exact absurd hk (by decide)
  | integer hd => exact ⟨List.cons_ne_nil _ _, hd⟩

/-- An integer token of a source holds digits, and at least one. -/
theorem Scan.digits_of_mem_tokens {source : Source} {t : Token}
    (h : t ∈ (ofSource source).tokens) (hk : t.kind = .integer) :
    t.value.toList ≠ [] ∧ ∀ c ∈ t.value.toList, Number.isDigit c := by
  obtain ⟨before, after, -, -, ⟨rfl, -⟩ | ⟨hl, -⟩⟩ := exists_of_mem_tokens h
  · cases hk
  · rw [hk] at hl
    exact hl.digits

/-- Every real number that is scanned can be read. -/
theorem Scan.ofText?_of_mem_tokens {source : Source} {t : Token}
    (h : t ∈ (ofSource source).tokens) (hk : t.kind = .realNumber) :
    ∃ x, Number.Binary64.ofText? t.value = some x := by
  obtain ⟨before, after, -, -, ⟨rfl, -⟩ | ⟨hl, -⟩⟩ := exists_of_mem_tokens h
  · cases hk
  · rw [hk] at hl
    exact Option.ne_none_iff_exists'.1 hl.ofText?_ne_none

/-! ### Integers of trees -/

mutual

def TypeExpr.integers : TypeExpr → List Int64
  | .path _ _ => []
  | .array element => element.integers
  | .sizedArray element size => element.integers ++ size.integers
  | .pointer pointee => pointee.integers

/-- The integers that an expression holds, from left to right. -/
def Expr.integers : Expr → List Int64
  | .integer value => [value]
  | .boolean _ | .realNumber _ | .string _ | .character _ | .identifier _ | .null => []
  | .unary _ operand => operand.integers
  | .binary _ left right => left.integers ++ right.integers
  | .group inner => inner.integers
  | .cast operand target => operand.integers ++ target.integers
  | .call _ arguments => Expr.allIntegers arguments
  | .addressOf operand => operand.integers
  | .dereference operand => operand.integers
  | .new type => type.integers
  | .arrayLiteral elements => Expr.allIntegers elements
  | .index array subscript => array.integers ++ subscript.integers
  | .member left right => left.integers ++ right.integers
  | .qualified left right => left.integers ++ right.integers

def Expr.allIntegers : List Expr → List Int64
  | [] => []
  | e :: rest => e.integers ++ Expr.allIntegers rest

end

mutual

/-- The integers that a statement holds. The value of an enum member is no expression. -/
def Stmt.integers : Stmt → List Int64
  | .namespaceDecl _ body => Stmt.allIntegers body
  | .functionDecl _ _ params returns body =>
    params.flatMap (·.type.integers) ++ (returns.integers ++ Stmt.allIntegers body)
  | .variableDecl _ _ type initializer =>
    type.integers ++ initializer.toList.flatMap Expr.integers
  | .structDecl _ fields => fields.flatMap (·.type.integers)
  | .unionDecl _ fields => fields.flatMap (·.type.integers)
  | .enumDecl _ _ | .usingDecl _ _ | .breakLoop | .continueLoop | .assembly _ => []
  | .ifElse condition body otherwise =>
    condition.integers ++ (Stmt.allIntegers body ++ otherwise.integers)
  | .whileLoop condition body => condition.integers ++ Stmt.allIntegers body
  | .doWhile body condition => Stmt.allIntegers body ++ condition.integers
  | .forLoop initial condition iteration body =>
    initial.integers ++ (condition.integers ++ (iteration.integers ++ Stmt.allIntegers body))
  | .returnValue value => value.toList.flatMap Expr.integers
  | .free target => target.integers
  | .expression value => value.integers
  | .typeName type => type.integers

def Stmt.allIntegers : List Stmt → List Int64
  | [] => []
  | s :: rest => s.integers ++ Stmt.allIntegers rest

def Otherwise.integers : Otherwise → List Int64
  | .nothing => []
  | .block body => Stmt.allIntegers body
  | .elseIf condition body otherwise =>
    condition.integers ++ (Stmt.allIntegers body ++ otherwise.integers)

end

namespace Grammar

/-! ### Integers and the tokens that write them -/

/-- The token is an integer, and is read as this one. -/
def Writes (t : Token) (n : Int64) : Prop :=
  t.kind = .integer ∧ Number.int64? t.value = some n

/-- Some of the tokens write the integers, in their order. -/
abbrev Written (ns : List Int64) (w : List Token) : Prop :=
  List.SublistForall₂ (fun n t => Writes t n) ns w

theorem written_nil {w : List Token} : Written [] w := .nil

theorem Written.after {ns : List Int64} {w : List Token} (h : Written ns w) (t : Token) :
    Written ns (t :: w) :=
  .cons_right h

theorem Written.append {ms ns : List Int64} {w v : List Token} (hw : Written ms w)
    (hv : Written ns v) : Written (ms ++ ns) (w ++ v) := by
  induction hw with
  | nil =>
    rename_i w
    induction w with
    | nil => exact hv
    | cons t w ih => exact ih.after t
  | cons ht _ ih => exact .cons ht ih
  | cons_right _ ih => exact .cons_right ih

theorem Written.before {ns : List Int64} {w : List Token} (h : Written ns w) (v : List Token) :
    Written ns (w ++ v) := by
  simpa using h.append (written_nil (w := v))

theorem Written.behind {ns : List Int64} {w : List Token} (h : Written ns w) (v : List Token) :
    Written ns (v ++ w) :=
  (written_nil (w := v)).append h

/-- The integers of what a phrase derives. -/
def Phrase.integers : (p : Phrase) → p.Tree → List Int64
  | .elements, es | .list, es => Expr.allIntegers es
  | .typeExpr, t => t.integers
  | .assignment, e | .binary _, e | .cast, e | .unary, e | .access, e | .chain, e
  | .primary, e => e.integers

theorem Derives.written {p : Phrase} {w : List Token} {e : p.Tree} (h : Derives p w e) :
    Written (p.integers e) w := by
  induction h with
  | operand _ ih | casted _ ih | tighter _ ih | uncast _ ih | unmarked _ ih | chained _ ih
  | base _ ih | some _ ih => exact ih
  | assign _ _ _ ihl ihr | operate _ _ _ ihl ihr | castTo _ _ _ ihl ihr | member _ _ _ ihl ihr
  | arrow _ _ _ ihl ihr | qualified _ _ _ ihl ihr | more _ _ _ ihl ihr =>
    exact ihl.append (ihr.after _)
  | addressOf _ _ ih | dereference _ _ ih | new _ _ ih | marked _ _ ih | pointer _ _ ih =>
    exact ih.after _
  | arrayLiteral _ _ _ ih | group _ _ _ ih | array _ _ _ ih => exact (ih.before _).after _
  | index _ _ _ _ iha ihi => exact iha.append ((ihi.before _).after _)
  | sizedArray _ _ _ _ _ iht ihe => exact (iht.append ((ihe.before _).after _)).after _
  | call _ _ _ _ ih => exact ((ih.before _).after _).after _
  | integer hk hv => exact .cons ⟨hk, hv⟩ .nil
  | isTrue | isFalse | null | realNumber | string | character | identifier | none | named =>
    exact .nil
  | last _ ih => simpa [Phrase.integers, Expr.allIntegers] using ih

/-! ### Parts of statements -/

theorem Typed.written {w : List Token} {name : String} {t : TypeExpr} (h : Typed w name t) :
    Written t.integers w := by
  cases h with
  | mk _ _ ht => exact (ht.written.after _).after _

theorem Initializer.written {w : List Token} {i : Option Expr} (h : Initializer w i) :
    Written (i.toList.flatMap Expr.integers) w := by
  cases h with
  | absent => exact .nil
  | present _ he => simpa [Phrase.integers] using he.written.after _

theorem Fields.written {w : List Token} {fs : List Field} (h : Fields w fs) :
    Written (fs.flatMap (·.type.integers)) w := by
  induction h with
  | nil => exact .nil
  | cons hf _ _ ih => exact hf.written.append (ih.after _)

theorem Parameter.written {w : List Token} {p : Param} (h : Parameter w p) :
    Written p.type.integers w := by
  cases h with
  | constant _ _ ht => exact (ht.written.after _).after _
  | marked _ _ _ ht => exact ((ht.written.after _).after _).after _

theorem Parameters.written {w : List Token} {ps : List Param} (h : Parameters w ps) :
    Written (ps.flatMap (·.type.integers)) w := by
  induction h with
  | last hp => simpa using hp.written
  | more hp _ _ ih => exact hp.written.append (ih.after _)

theorem ParameterList.written {w : List Token} {ps : List Param} (h : ParameterList w ps) :
    Written (ps.flatMap (·.type.integers)) w := by
  cases h with
  | nil => exact .nil
  | some h => exact h.written

theorem ResultType.written {w : List Token} {t : TypeExpr} (h : ResultType w t) :
    Written t.integers w := by
  cases h with
  | void => exact .nil
  | some _ ht => exact ht.written.after _

/-! ### Statements -/

/-- The integers of what a clause forms. -/
def Clause.integers : (c : Clause) → c.Tree → List Int64
  | .statement, s => s.integers
  | .block, b | .sequence, b => Stmt.allIntegers b
  | .otherwise, o => o.integers

theorem integers_nested (name : String) (inner : List String) (body : List Stmt) :
    (nested name inner body).integers = Stmt.allIntegers body := by
  induction inner generalizing name with
  | nil => rfl
  | cons next inner ih => simp [nested, Stmt.integers, Stmt.allIntegers, ih]

theorem Forms.written {c : Clause} {w : List Token} {s : c.Tree} (h : Forms c w s) :
    Written (c.integers s) w := by
  induction h with
  | namespaceDecl _ _ _ ih =>
    rw [Clause.integers, integers_nested]
    exact (ih.behind _).after _
  | functionDecl _ _ _ hv _ hx _ ih =>
    exact (((hv.written.append ((hx.written.append ih).after _)).after _).behind _).after _
  | variableDecl _ ht hi _ => exact (ht.written.append (hi.written.before _)).after _
  | structDecl _ _ _ hf _ | unionDecl _ _ _ hf _ =>
    exact (((hf.written.before _).after _).after _).after _
  | ifElse _ hc _ _ ihb iho => exact (hc.written.append (ihb.append iho)).after _
  | whileLoop _ hc _ ih => exact (hc.written.append ih).after _
  | doWhile _ _ _ hc _ ih => exact (ih.append ((hc.written.before _).after _)).after _
  | forLoop _ _ _ he _ ihi ihc ihb =>
    exact (ihi.append (ihc.append (he.written.append ihb))).after _
  | enumDecl | usingDecl | breakLoop | continueLoop | returnNothing | assembly | nil | nothing =>
    exact .nil
  | returnValue _ he _ =>
    simpa [Clause.integers, Stmt.integers, Phrase.integers] using (he.written.before _).after _
  | free _ he _ => exact (he.written.before _).after _
  | expression he _ => exact he.written.before _
  | block _ _ _ ih => exact (ih.before _).after _
  | stray _ _ ih | elseBlock _ _ ih => exact ih.after _
  | cons _ _ ihs ihb => exact ihs.append ihb
  | elseIf _ _ hc _ _ ihb iho =>
    exact ((hc.written.append (ihb.append iho)).after _).after _

/-- The integers of a file are written by tokens of the list, in the same order. -/
theorem program_written (ts : List Token) :
    ∃ literals, literals.Sublist ts ∧
      List.Forall₂ Writes literals (Stmt.allIntegers (program .standard ts).file) := by
  obtain ⟨w, hw, hd, -⟩ := program_yields ts
  obtain ⟨literals, hl, hs⟩ := List.sublistForall₂_iff.1 hw.written
  have hl : List.Forall₂ Writes literals _ := hl.flip
  refine ⟨literals, ?_, hl⟩
  -- what is missing from `ts` is braces, which write no integer
  have hkind : ∀ t ∈ literals, t.kind = .integer := ((List.forall₂_and_left _ _).1 hl).1
  have hkept : literals.filter (·.kind ≠ .rBrace) = literals := by
    rw [List.filter_eq_self]
    intro t ht
    simp [hkind t ht]
  have hf := hs.filter (·.kind ≠ .rBrace)
  rw [hkept] at hf
  exact (hf.trans (List.sublist_append_left _ _)).trans hd

end Grammar

/-! ### Sources -/

/-- A token is the decimal text of an integer, which is not negative and fits. -/
structure Token.Denotes (t : Token) (n : Int64) : Prop where
  kind : t.kind = .integer
  digits : ∀ c ∈ t.value.toList, Number.isDigit c
  value : n.toInt = Number.ofDigits t.value.toList
  range : 0 ≤ n.toInt ∧ n.toInt ≤ 2 ^ 63 - 1

/-- Integer tokens of a source are read as the numbers that their digits write. -/
theorem Scan.denotes_of_mem_tokens {source : Source} {t : Token}
    (h : t ∈ (ofSource source).tokens) {n : Int64} (hn : Grammar.Writes t n) : t.Denotes n := by
  obtain ⟨hk, hv⟩ := hn
  obtain ⟨hne, hd⟩ := digits_of_mem_tokens h hk
  have hmax := n.toInt_lt
  rcases Number.int64?_of_digits hne hd with ⟨hnone, -⟩ | ⟨m, hm, hval⟩
  · rw [hv] at hnone
    cases hnone
  · obtain rfl := Option.some.inj (hv.symm.trans hm)
    exact ⟨hk, hd, hval, by omega, by omega⟩

namespace Analysis

theorem overflow_of_mem_session {source : Source} {d : Diagnostic}
    (h : d ∈ (ofSource source).session.diagnostics) {text : String}
    (hc : d.cause = .numberParseError text) :
    (∃ t ∈ (Scan.ofSource source).tokens,
        t.position = d.position ∧ t.kind = .integer ∧ t.value = text) ∧
      (∀ c ∈ text.toList, Number.isDigit c) ∧ 2 ^ 63 - 1 < Number.ofDigits text.toList := by
  obtain ⟨before, after, -, -, -, hholds⟩ := (truthful_of_mem_session h).holds
  rw [hc] at hholds
  obtain ⟨t, hat, hk, rfl, hnone⟩ := hholds
  obtain ⟨ht, hp⟩ := (hat t).2 rfl
  obtain ⟨hne, hd⟩ := Scan.digits_of_mem_tokens ht hk
  rcases Number.int64?_of_digits hne hd with ⟨-, hlt⟩ | ⟨n, hn, -⟩
  · exact ⟨⟨t, ht, hp, hk, rfl⟩, hd, hlt⟩
  · rw [hn] at hnone
    cases hnone

/-- The only numbers of a source that are refused are integers beyond the greatest one of 64 bits.
All real numbers are read, and the integers of the file are the values of their literals, which
stand in the source in the same order. -/
theorem numbers_ofSource (source : Source) :
    (∀ d ∈ (ofSource source).session.diagnostics, ∀ text, d.cause = .numberParseError text →
        (∃ t ∈ (ofSource source).scan.tokens,
          t.position = d.position ∧ t.kind = .integer ∧ t.value = text) ∧
        (∀ c ∈ text.toList, Number.isDigit c) ∧ 2 ^ 63 - 1 < Number.ofDigits text.toList) ∧
      (∀ t ∈ (ofSource source).scan.tokens, t.kind = .realNumber →
        ∃ x, Number.Binary64.ofText? t.value = some x) ∧
      ∃ literals, literals.Sublist (ofSource source).scan.tokens ∧
        List.Forall₂ Token.Denotes literals (Stmt.allIntegers (ofSource source).file) := by
  refine ⟨fun d hd text hc => overflow_of_mem_session hd hc,
    fun t ht hk => Scan.ofText?_of_mem_tokens ht hk, ?_⟩
  obtain ⟨literals, hs, hl⟩ := Grammar.program_written (Scan.ofSource source).tokens
  have hmem := (List.forall₂_and_left _ _).2 ⟨fun t ht => hs.subset ht, hl⟩
  exact ⟨literals, hs, hmem.imp fun t n h => Scan.denotes_of_mem_tokens h.1 h.2⟩

/-- An enum member that is one too great, and a number that is cut at its second point. -/
theorem numbers_ofSource_limit :
    (⟨.numberParseError "9223372036854775808", ⟨⟨1, 14⟩, "t"⟩⟩
          ∈ (ofSource ⟨"t", "enum E { A = 9223372036854775808 } 1.2.3"⟩).session.diagnostics ∧
        2 ^ 63 - 1 < Number.ofDigits "9223372036854775808".toList) ∧
      ⟨.realNumber, "1.2", ⟨⟨1, 36⟩, "t"⟩⟩
          ∈ (ofSource ⟨"t", "enum E { A = 9223372036854775808 } 1.2.3"⟩).scan.tokens ∧
        ∃ x, Number.Binary64.ofText? "1.2" = some x := by
  have h := numbers_ofSource ⟨"t", "enum E { A = 9223372036854775808 } 1.2.3"⟩
  have hd : ⟨.numberParseError "9223372036854775808", ⟨⟨1, 14⟩, "t"⟩⟩
      ∈ (ofSource ⟨"t", "enum E { A = 9223372036854775808 } 1.2.3"⟩).session.diagnostics := by
    decide +kernel
  have ht : ⟨.realNumber, "1.2", ⟨⟨1, 36⟩, "t"⟩⟩
      ∈ (ofSource ⟨"t", "enum E { A = 9223372036854775808 } 1.2.3"⟩).scan.tokens := by
    decide +kernel
  exact ⟨⟨hd, (h.1 _ hd _ rfl).2.2⟩, ht, h.2.1 _ ht rfl⟩

example : Stmt.allIntegers (ofSource ⟨"t", "f(1); 08 as [u8, 3]; enum E { A = 4 } [5 6"⟩).file
    = [1, 8, 3] := by
  decide +kernel

end Analysis

end FrontEnd
