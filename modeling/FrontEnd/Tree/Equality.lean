import FrontEnd.Tree.Basic

/-!
Equality of trees as values: two trees are equal when they have the same shape and the same
leaves, and real numbers are compared as numbers. So a tree with a NaN equals no tree, and zero
equals its negative.
-/

set_option autoImplicit false

namespace FrontEnd

mutual

def TypeExpr.equal : TypeExpr → TypeExpr → Bool
  | .path h t, .path h' t' => h = h' && t = t'
  | .array e, .array e' => e.equal e'
  | .sizedArray e s, .sizedArray e' s' => e.equal e' && s.equal s'
  | .pointer t, .pointer t' => t.equal t'
  | _, _ => false

def Expr.equal : Expr → Expr → Bool
  | .boolean v, .boolean v' => v = v'
  | .integer v, .integer v' => v = v'
  | .realNumber v, .realNumber v' => Number.Binary64.equal v v'
  | .string v, .string v' => v = v'
  | .character v, .character v' => v = v'
  | .identifier n, .identifier n' => n = n'
  | .null, .null => true
  | .unary k e, .unary k' e' => k = k' && e.equal e'
  | .binary k l r, .binary k' l' r' => k = k' && l.equal l' && r.equal r'
  | .group e, .group e' => e.equal e'
  | .cast e t, .cast e' t' => e.equal e' && t.equal t'
  | .call n es, .call n' es' => n = n' && Expr.allEqual es es'
  | .addressOf e, .addressOf e' => e.equal e'
  | .dereference e, .dereference e' => e.equal e'
  | .new t, .new t' => t.equal t'
  | .arrayLiteral es, .arrayLiteral es' => Expr.allEqual es es'
  | .index a i, .index a' i' => a.equal a' && i.equal i'
  | .member l r, .member l' r' => l.equal l' && r.equal r'
  | .qualified l r, .qualified l' r' => l.equal l' && r.equal r'
  | _, _ => false

def Expr.allEqual : List Expr → List Expr → Bool
  | [], [] => true
  | e :: es, e' :: es' => e.equal e' && Expr.allEqual es es'
  | _, _ => false

end

/-- Absent expressions are equal to each other only. -/
def Expr.optionEqual : Option Expr → Option Expr → Bool
  | none, none => true
  | some e, some e' => e.equal e'
  | _, _ => false

/-- Lists of the same length whose entries are pairwise related. -/
def pairwise {α : Type} (rel : α → α → Bool) : List α → List α → Bool
  | [], [] => true
  | a :: as, b :: bs => rel a b && pairwise rel as bs
  | _, _ => false

def Param.equal (p q : Param) : Bool :=
  p.name = q.name && p.constant = q.constant && p.type.equal q.type

def Field.equal (f g : Field) : Bool := f.name = g.name && f.type.equal g.type

mutual

def Stmt.equal : Stmt → Stmt → Bool
  | .namespaceDecl n b, .namespaceDecl n' b' => n = n' && Stmt.allEqual b b'
  | .functionDecl o n ps t b, .functionDecl o' n' ps' t' b' =>
    o = o' && n = n' && pairwise Param.equal ps ps' && t.equal t' && Stmt.allEqual b b'
  | .variableDecl c n t i, .variableDecl c' n' t' i' =>
    c = c' && n = n' && t.equal t' && Expr.optionEqual i i'
  | .structDecl n fs, .structDecl n' fs' => n = n' && pairwise Field.equal fs fs'
  | .unionDecl n fs, .unionDecl n' fs' => n = n' && pairwise Field.equal fs fs'
  | .enumDecl n ms, .enumDecl n' ms' => n = n' && ms = ms'
  | .usingDecl n a, .usingDecl n' a' => n = n' && a = a'
  | .ifElse c b o, .ifElse c' b' o' => c.equal c' && Stmt.allEqual b b' && o.equal o'
  | .whileLoop c b, .whileLoop c' b' => c.equal c' && Stmt.allEqual b b'
  | .doWhile b c, .doWhile b' c' => Stmt.allEqual b b' && c.equal c'
  | .forLoop i c e b, .forLoop i' c' e' b' =>
    i.equal i' && c.equal c' && e.equal e' && Stmt.allEqual b b'
  | .breakLoop, .breakLoop => true
  | .continueLoop, .continueLoop => true
  | .returnValue v, .returnValue v' => Expr.optionEqual v v'
  | .free e, .free e' => e.equal e'
  | .assembly os, .assembly os' => os = os'
  | .expression e, .expression e' => e.equal e'
  | .typeName t, .typeName t' => t.equal t'
  | _, _ => false

def Stmt.allEqual : List Stmt → List Stmt → Bool
  | [], [] => true
  | s :: ss, s' :: ss' => s.equal s' && Stmt.allEqual ss ss'
  | _, _ => false

def Otherwise.equal : Otherwise → Otherwise → Bool
  | .nothing, .nothing => true
  | .block b, .block b' => Stmt.allEqual b b'
  | .elseIf c b o, .elseIf c' b' o' => c.equal c' && Stmt.allEqual b b' && o.equal o'
  | _, _ => false

end

end FrontEnd
