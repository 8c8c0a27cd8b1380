import FrontEnd.Number.Integer
import FrontEnd.Proofs.Clause.Basic

/-!
The canonical way to write a tree down. A tree is written as a list of lexemes, and tokens write a
list of lexemes one by one: where they stand, and what an operator or a keyword carries beside its
kind, is left open, and so is the text of a real number as long as it is read back as that number.
-/

set_option autoImplicit false

namespace FrontEnd

open Number (Binary64)

/-! ### Integers -/

namespace Number

theorem natural?_toDigits (n : Nat) : natural? (Nat.toDigits 10 n) = some n := by
  have hd : (Nat.toDigits 10 n).all isDigit := by
    rw [List.all_eq_true]
    intro c hc
    have h := Nat.isDigit_of_mem_toDigits (by decide) (by decide) hc
    simpa [Char.isDigit, isDigit, Char.le_def] using h
  have hn : ofDigits (Nat.toDigits 10 n) = n := Nat.ofDigitChars_ten_toDigits
  simp [natural?, hd, hn, Nat.toDigits_ne_nil]

/-- Digits without a sign are read as they are. -/
theorem integer?_eq_natural? {cs : List Char} {n : Nat} (h : natural? cs = some n) :
    integer? cs = some (n : Int) := by
  unfold integer?
  split
  · simp [natural?, isDigit] at h
  · simp [natural?, isDigit] at h
  · simp [h]

theorem integer?_toString (n : Int) : integer? (toString n).toList = some n := by
  cases n with
  | ofNat n =>
    have h : (toString (Int.ofNat n)).toList = Nat.toDigits 10 n := by
      simp [toString, Int.repr, Nat.toList_repr]
    rw [h]
    exact integer?_eq_natural? (natural?_toDigits n)
  | negSucc n =>
    have h : (toString (Int.negSucc n)).toList = '-' :: Nat.toDigits 10 (n + 1) := by
      simp [toString, Int.repr, Nat.toList_repr]
    rw [h]
    simp [integer?, natural?_toDigits, Int.negSucc_eq]

/-- A 64-bit integer is read back from its decimal text. -/
theorem int64?_int64Text (n : Int64) : int64? (int64Text n) = some n := by
  rw [int64?, int64Text, integer?_toString, Option.bind_some,
    if_pos ⟨n.minValue_le_toInt, n.toInt_le⟩, Int64.ofInt_toInt]

end Number

/-! ### Lexemes -/

/-- What is fixed about a token: its kind, its kind and text, or the number that it writes. -/
inductive Lexeme where
  | fixed (kind : TokenKind)
  | text (kind : TokenKind) (value : String)
  | real (value : Binary64)

namespace Lexeme

def IsWritten : Lexeme → Token → Prop
  | .fixed kind, t => t.kind = kind
  | .text kind value, t => t.kind = kind ∧ t.value = value
  | .real value, t => t.kind = .realNumber ∧ Binary64.ofText? t.value = some value

/-- Some token writes the lexeme. -/
def Writable (a : Lexeme) : Prop := ∃ t, a.IsWritten t

@[simp] theorem writable_fixed (kind : TokenKind) : (fixed kind).Writable :=
  ⟨⟨kind, "", .null⟩, rfl⟩

@[simp] theorem writable_text (kind : TokenKind) (value : String) : (text kind value).Writable :=
  ⟨⟨kind, value, .null⟩, rfl, rfl⟩

/-- Every lexeme of the list can be written. -/
def AllWritable (as : List Lexeme) : Prop := ∀ a ∈ as, a.Writable

@[simp] theorem allWritable_nil : AllWritable [] := by simp [AllWritable]

@[simp] theorem allWritable_cons {a : Lexeme} {as : List Lexeme} :
    AllWritable (a :: as) ↔ a.Writable ∧ AllWritable as := by simp [AllWritable]

@[simp] theorem allWritable_append {as bs : List Lexeme} :
    AllWritable (as ++ bs) ↔ AllWritable as ∧ AllWritable bs := by
  simp [AllWritable, or_imp, forall_and]

/-- Lexemes with commas between them. -/
def separated : List (List Lexeme) → List Lexeme
  | [] => []
  | [a] => a
  | a :: b :: rest => a ++ .fixed .comma :: separated (b :: rest)

theorem allWritable_separated {as : List (List Lexeme)} (h : ∀ a ∈ as, AllWritable a) :
    AllWritable (separated as) := by
  induction as with
  | nil => simp [separated]
  | cons a as ih =>
    obtain ⟨ha, has⟩ := List.forall_mem_cons.1 h
    cases as with
    | nil => exact ha
    | cons b as => simp [separated, ha, ih has]

/-- Lexemes in braces. -/
def braced (as : List Lexeme) : List Lexeme := .fixed .lBrace :: (as ++ [.fixed .rBrace])

@[simp] theorem allWritable_braced {as : List Lexeme} :
    AllWritable (braced as) ↔ AllWritable as := by simp [braced]

/-- Names with double colons between them. -/
def path (head : String) : List String → List Lexeme
  | [] => [.text .identifier head]
  | name :: tail => .text .identifier head :: .fixed .scopeResolution :: path name tail

@[simp] theorem allWritable_path (head : String) (tail : List String) :
    AllWritable (path head tail) := by
  induction tail generalizing head with
  | nil => simp [path]
  | cons name tail ih => simpa [path] using ih name

end Lexeme

/-- The tokens write the lexemes one by one. -/
inductive Writes : List Token → List Lexeme → Prop where
  | nil : Writes [] []
  | cons {t : Token} {ts : List Token} {a : Lexeme} {as : List Lexeme} :
    a.IsWritten t → Writes ts as → Writes (t :: ts) (a :: as)

@[simp] theorem writes_nil {ts : List Token} : Writes ts [] ↔ ts = [] := by
  constructor
  · rintro ⟨⟩
    rfl
  · rintro rfl
    exact .nil

theorem writes_cons {ts : List Token} {a : Lexeme} {as : List Lexeme} :
    Writes ts (a :: as) ↔ ∃ t us, ts = t :: us ∧ a.IsWritten t ∧ Writes us as := by
  constructor
  · rintro (_ | ⟨ha, has⟩)
    exact ⟨_, _, rfl, ha, has⟩
  · rintro ⟨t, us, rfl, ha, has⟩
    exact .cons ha has

theorem writes_append {ts : List Token} {as bs : List Lexeme} :
    Writes ts (as ++ bs) ↔ ∃ us vs, ts = us ++ vs ∧ Writes us as ∧ Writes vs bs := by
  induction as generalizing ts with
  | nil =>
    constructor
    · intro h
      exact ⟨[], ts, rfl, .nil, h⟩
    · rintro ⟨us, vs, rfl, ha, hb⟩
      rw [writes_nil.1 ha]
      exact hb
  | cons a as ih =>
    rw [List.cons_append, writes_cons]
    constructor
    · rintro ⟨t, _, rfl, ha, h⟩
      obtain ⟨us, vs, rfl, has, hbs⟩ := ih.1 h
      exact ⟨t :: us, vs, rfl, .cons ha has, hbs⟩
    · rintro ⟨_, vs, rfl, ha, hbs⟩
      obtain ⟨t, us, rfl, ha, has⟩ := writes_cons.1 ha
      exact ⟨t, us ++ vs, rfl, ha, ih.2 ⟨us, vs, rfl, has, hbs⟩⟩

/-- Lexemes can be written down if each of them can. -/
theorem exists_writes {as : List Lexeme} (h : Lexeme.AllWritable as) : ∃ ts, Writes ts as := by
  induction as with
  | nil => exact ⟨[], .nil⟩
  | cons a as ih =>
    obtain ⟨⟨t, ht⟩, has⟩ := Lexeme.allWritable_cons.1 h
    obtain ⟨ts, hts⟩ := ih has
    exact ⟨t :: ts, .cons ht hts⟩

/-! ### Trees -/

open Lexeme

mutual

def TypeExpr.lexemes : TypeExpr → List Lexeme
  | .path head tail => Lexeme.path head tail
  | .array element => .fixed .lBracket :: (element.lexemes ++ [.fixed .rBracket])
  | .sizedArray element size =>
    .fixed .lBracket :: (element.lexemes ++ .fixed .comma :: (size.lexemes ++ [.fixed .rBracket]))
  | .pointer pointee => .fixed .caret :: pointee.lexemes

/-- A member of what a pointer points to is written with an arrow. -/
def Expr.lexemes : Expr → List Lexeme
  | .boolean value => [.fixed (if value then .kwTrue else .kwFalse)]
  | .integer value => [.text .integer (Number.int64Text value)]
  | .realNumber value => [.real value]
  | .string value => [.text .string value]
  | .character value => [.text .character value]
  | .identifier name => [.text .identifier name]
  | .null => [.fixed .kwNull]
  | .unary operator operand => .fixed operator :: operand.lexemes
  | .binary operator left right => left.lexemes ++ .fixed operator :: right.lexemes
  | .group inner => .fixed .lParen :: (inner.lexemes ++ [.fixed .rParen])
  | .cast operand target => operand.lexemes ++ .fixed .kwAs :: target.lexemes
  | .call name arguments =>
    .text .identifier name :: .fixed .lParen
      :: (separated (Expr.lexemesOf arguments) ++ [.fixed .rParen])
  | .addressOf operand => .fixed .ampersand :: operand.lexemes
  | .dereference operand => .fixed .caret :: operand.lexemes
  | .new type => .fixed .kwNew :: type.lexemes
  | .arrayLiteral elements =>
    .fixed .lBracket :: (separated (Expr.lexemesOf elements) ++ [.fixed .rBracket])
  | .index array subscript =>
    array.lexemes ++ .fixed .lBracket :: (subscript.lexemes ++ [.fixed .rBracket])
  | .member (.dereference pointer) right => pointer.lexemes ++ .fixed .arrow :: right.lexemes
  | .member left right => left.lexemes ++ .fixed .dot :: right.lexemes
  | .qualified left right => left.lexemes ++ .fixed .scopeResolution :: right.lexemes

def Expr.lexemesOf : List Expr → List (List Lexeme)
  | [] => []
  | e :: rest => e.lexemes :: Expr.lexemesOf rest

end

def Param.lexemes (p : Param) : List Lexeme :=
  .text .identifier p.name :: .fixed .colon
    :: ((if p.constant then [] else [.fixed .kwVar]) ++ p.type.lexemes)

def Field.lexemes (f : Field) : List Lexeme :=
  .text .identifier f.name :: .fixed .colon :: (f.type.lexemes ++ [.fixed .semicolon])

/-- Every member of an enum is written with its value. -/
def EnumMember.lexemes (m : EnumMember) : List Lexeme :=
  [.text .identifier m.name, .fixed .equals, .text .integer (Number.int64Text m.value)]

def Expr.initializerLexemes : Option Expr → List Lexeme
  | none => []
  | some value => .fixed .equals :: value.lexemes

namespace Lexeme

def localName : Option String → List Lexeme
  | none => []
  | some name => [.fixed .kwAs, .text .identifier name]

def ownedName (owner : Option String) (name : String) : List Lexeme :=
  match owner with
  | none => [.text .identifier name]
  | some owner => path owner [name]

end Lexeme

mutual

/-- The result type of a function is always written. -/
def Stmt.lexemes : Stmt → List Lexeme
  | .namespaceDecl name body =>
    .fixed .kwNamespace :: .text .identifier name :: braced (Stmt.lexemesOf body)
  | .functionDecl owner name params returns body =>
    .fixed .kwFunc :: (ownedName owner name ++ .fixed .lParen
      :: (separated (params.map Param.lexemes) ++ .fixed .rParen
        :: .fixed .arrow :: (returns.lexemes ++ braced (Stmt.lexemesOf body))))
  | .variableDecl constant name type initializer =>
    .fixed (if constant then .kwLet else .kwVar) :: .text .identifier name :: .fixed .colon
      :: (type.lexemes ++ (Expr.initializerLexemes initializer ++ [.fixed .semicolon]))
  | .structDecl name fields =>
    .fixed .kwStruct :: .text .identifier name :: braced (fields.flatMap Field.lexemes)
  | .unionDecl name fields =>
    .fixed .kwUnion :: .text .identifier name :: braced (fields.flatMap Field.lexemes)
  | .enumDecl name members =>
    .fixed .kwEnum :: .text .identifier name
      :: braced (separated (members.map EnumMember.lexemes))
  | .usingDecl name localName =>
    .fixed .kwUsing :: .text .identifier name
      :: (Lexeme.localName localName ++ [.fixed .semicolon])
  | .ifElse condition body otherwise =>
    .fixed .kwIf
      :: (condition.lexemes ++ (braced (Stmt.lexemesOf body) ++ otherwise.lexemes))
  | .whileLoop condition body =>
    .fixed .kwWhile :: (condition.lexemes ++ braced (Stmt.lexemesOf body))
  | .doWhile body condition =>
    .fixed .kwDo :: (braced (Stmt.lexemesOf body)
      ++ .fixed .kwWhile :: (condition.lexemes ++ [.fixed .semicolon]))
  | .forLoop initial condition iteration body =>
    .fixed .kwFor :: (initial.lexemes
      ++ (condition.lexemes ++ (iteration.lexemes ++ braced (Stmt.lexemesOf body))))
  | .breakLoop => [.fixed .kwBreak, .fixed .semicolon]
  | .continueLoop => [.fixed .kwContinue, .fixed .semicolon]
  | .returnValue none => [.fixed .kwReturn, .fixed .semicolon]
  | .returnValue (some value) => .fixed .kwReturn :: (value.lexemes ++ [.fixed .semicolon])
  | .free target => .fixed .kwFree :: (target.lexemes ++ [.fixed .semicolon])
  | .assembly operations => .fixed .kwAsm :: braced (operations.map (.text .string))
  | .expression value => value.lexemes ++ [.fixed .semicolon]
  | .typeName type => type.lexemes

def Stmt.lexemesOf : List Stmt → List Lexeme
  | [] => []
  | s :: rest => s.lexemes ++ Stmt.lexemesOf rest

def Otherwise.lexemes : Otherwise → List Lexeme
  | .nothing => []
  | .block body => .fixed .kwElse :: braced (Stmt.lexemesOf body)
  | .elseIf condition body otherwise =>
    .fixed .kwElse :: .fixed .kwIf
      :: (condition.lexemes ++ (braced (Stmt.lexemesOf body) ++ otherwise.lexemes))

end

/-- The canonical way to write a file. -/
def File.lexemes (file : File) : List Lexeme := Stmt.lexemesOf file

end FrontEnd
