import FrontEnd.Diagnostic

/-!
Results of reading a construct off the front of a token list. A result keeps the tokens that are
left and the fact that they have become fewer, so that readers can call each other and still be
seen to end.
-/

set_option autoImplicit false

namespace FrontEnd.Grammar

/-- Why a construct cannot be read, and the token to blame; none is the end of the list. -/
structure Failure where
  cause : Cause
  token? : Option Token
deriving DecidableEq, Repr

/-- The kind of the first token; a list that has run out is at the end of input. -/
def headKind : List Token → TokenKind
  | [] => .eof
  | t :: _ => t.kind

@[simp] theorem headKind_nil : headKind [] = .eof := rfl

@[simp] theorem headKind_cons (t : Token) (ts : List Token) : headKind (t :: ts) = t.kind := rfl

/-- A failure that blames the first of the tokens `ts`. -/
def Failure.here (cause : Cause) (ts : List Token) : Failure := ⟨cause, ts.head?⟩

/-- What reading from `n` tokens gives: a value with fewer tokens left, or a failure that has not
moved back. -/
inductive Parsed (α : Type) (n : Nat) where
  | done (value : α) (rest : List Token) (shorter : rest.length < n)
  | failed (failure : Failure) (rest : List Token) (within : rest.length ≤ n)

namespace Parsed

variable {α β : Type} {n : Nat}

/-- A value for which no token is read. -/
def stay (value : α) (ts : List Token) : Parsed α (ts.length + 1) :=
  .done value ts (Nat.lt_succ_self _)

/-- A failure that blames the token where it happens. -/
def refuse (cause : Cause) (ts : List Token) : Parsed α ts.length :=
  .failed (.here cause ts) ts (Nat.le_refl _)

/-- Forgets that at least one token was read. -/
def loose : Parsed α n → Parsed α (n + 1)
  | .done value rest shorter => .done value rest (Nat.lt_succ_of_lt shorter)
  | .failed failure rest within => .failed failure rest (Nat.le_succ_of_le within)

/-- What was read behind `rest`, seen from before it. -/
def before {rest : List Token} (shorter : rest.length < n) :
    Parsed α (rest.length + 1) → Parsed α n
  | .done value rest' shorter' =>
    .done value rest' (Nat.lt_of_lt_of_le shorter' (Nat.succ_le_of_lt shorter))
  | .failed failure rest' within =>
    .failed failure rest' (Nat.le_trans within (Nat.succ_le_of_lt shorter))

/-- Goes on behind a value with a reader that may read nothing. -/
def andThen (p : Parsed α n)
    (next : (value : α) → (rest : List Token) → rest.length < n → Parsed β (rest.length + 1)) :
    Parsed β n :=
  match p with
  | .done value rest shorter => (next value rest shorter).before shorter
  | .failed failure rest within => .failed failure rest within

/-- Goes on behind a value with a reader that reads at least one token. -/
def chain (p : Parsed α n)
    (next : (value : α) → (rest : List Token) → rest.length < n → Parsed β rest.length) :
    Parsed β n :=
  p.andThen fun value rest shorter => (next value rest shorter).loose

def map (f : α → β) : Parsed α n → Parsed β n
  | .done value rest shorter => .done (f value) rest shorter
  | .failed failure rest within => .failed failure rest within

end Parsed

/-- The first token of a list and those behind it. -/
structure Front (ts : List Token) where
  token : Token
  rest : List Token
  shorter : rest.length < ts.length

namespace Front

variable {α : Type} {ts : List Token}

/-- Takes the token and gives a value for it. -/
def give (front : Front ts) (value : α) : Parsed α ts.length :=
  .done value front.rest front.shorter

/-- Takes the token and goes on behind it with a reader that may read nothing. -/
def andThen (front : Front ts)
    (next : (t : Token) → (rest : List Token) → rest.length < ts.length →
      Parsed α (rest.length + 1)) : Parsed α ts.length :=
  (front.give front.token).andThen next

/-- Takes the token and goes on behind it with a reader that reads at least one more. -/
def chain (front : Front ts)
    (next : (t : Token) → (rest : List Token) → rest.length < ts.length → Parsed α rest.length) :
    Parsed α ts.length :=
  (front.give front.token).chain next

end Front

/-- The first token, if there is one. -/
def front? : (ts : List Token) → Option (Front ts)
  | [] => none
  | t :: rest => some ⟨t, rest, Nat.lt_succ_self _⟩

/-- The first token, if its kind is one of `kinds`. -/
def accept? (kinds : List TokenKind) (ts : List Token) : Option (Front ts) :=
  (front? ts).filter fun front => front.token.kind ∈ kinds

@[simp] theorem accept?_nil (kinds : List TokenKind) : accept? kinds [] = none := rfl

theorem accept?_cons (kinds : List TokenKind) (t : Token) (rest : List Token) :
    accept? kinds (t :: rest) =
      if t.kind ∈ kinds then some ⟨t, rest, Nat.lt_succ_self _⟩ else none := by
  by_cases h : t.kind ∈ kinds <;> simp [accept?, front?, h]

/-- Takes the first token off, which has to be of the given kind. -/
def expect (kind : TokenKind) (ts : List Token) : Parsed Token ts.length :=
  match accept? [kind] ts with
  | some front => front.give front.token
  | none => .refuse (.unexpectedToken kind (headKind ts)) ts

end FrontEnd.Grammar
