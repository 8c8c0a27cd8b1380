import FrontEnd.Grammar.Parsed

/-!
Recovery from a failed statement: the tokens up to a synchronization point are skipped. A closing
brace is left where it is, for the block that it closes; an opening brace is skipped together with
its whole group; any other point is skipped itself.
-/

set_option autoImplicit false

namespace FrontEnd.Grammar

def synchronizationKinds : List TokenKind :=
  [.semicolon, .lBrace, .rBrace, .lParen, .rParen, .comma]

/-- Skips behind the brace that closes a group, with `inner` more groups open inside it; a group
that is never closed reaches to the end of input. -/
def skipGroup (inner : Nat) : List Token → List Token
  | [] => []
  | t :: rest =>
    match t.kind with
    | .eof => t :: rest
    | .lBrace => skipGroup (inner + 1) rest
    | .rBrace =>
      match inner with
      | 0 => rest
      | inner + 1 => skipGroup inner rest
    | _ => skipGroup inner rest

/-- Skips to where statements can be read again. -/
def synchronize : List Token → List Token
  | [] => []
  | t :: rest =>
    if t.kind ∈ synchronizationKinds then
      match t.kind with
      | .rBrace => t :: rest
      | .lBrace => skipGroup 0 rest
      | _ => rest
    else if t.kind = .eof then t :: rest
    else synchronize rest

/-- Skips semicolons between statements. -/
def skipSemicolons : List Token → List Token
  | [] => []
  | t :: rest => if t.kind = .semicolon then skipSemicolons rest else t :: rest

/-- Where reading goes on after a statement that began at `start` failed and left `rest`: at the
synchronization point, but always behind at least one token. -/
def resume (start rest : List Token) : List Token :=
  let point := synchronize rest
  if point.length = start.length ∧ headKind start ≠ .eof then point.tail else point

theorem skipGroup_length_le (inner : Nat) (ts : List Token) :
    (skipGroup inner ts).length ≤ ts.length := by
  fun_induction skipGroup inner ts with
  | case1 => simp
  | case2 => simp
  | case3 inner t rest _ ih => exact Nat.le_succ_of_le ih
  | case4 => simp
  | case5 t rest _ inner ih => exact Nat.le_succ_of_le ih
  | case6 inner t rest _ _ _ ih => exact Nat.le_succ_of_le ih

theorem synchronize_length_le (ts : List Token) : (synchronize ts).length ≤ ts.length := by
  induction ts with
  | nil => simp [synchronize]
  | cons t rest ih =>
    rw [synchronize]
    split
    · split
      · simp
      · exact Nat.le_succ_of_le (skipGroup_length_le 0 rest)
      · simp
    · split
      · simp
      · exact Nat.le_succ_of_le ih

theorem skipSemicolons_length_le (ts : List Token) : (skipSemicolons ts).length ≤ ts.length := by
  induction ts with
  | nil => simp [skipSemicolons]
  | cons t rest ih =>
    rw [skipSemicolons]
    split
    · exact Nat.le_succ_of_le ih
    · simp

/-- Before the end of input, recovery moves on. -/
theorem resume_length_lt {start rest : List Token} (h : rest.length ≤ start.length)
    (he : headKind start ≠ .eof) : (resume start rest).length < start.length := by
  have hs := synchronize_length_le rest
  cases start with
  | nil => simp at he
  | cons t ts =>
    unfold resume
    dsimp only
    split
    · rename_i hp
      rw [List.length_tail, hp.1]
      simp
    · rename_i hp
      have : (synchronize rest).length ≠ (t :: ts).length := fun h => hp ⟨h, he⟩
      omega

end FrontEnd.Grammar
