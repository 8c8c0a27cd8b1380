import FrontEnd.Proofs.Phrase.Soundness
import FrontEnd.Proofs.RoundTrip
import Mathlib.Data.List.Infix

/-!
Trees that need no parentheses beyond those they have. Every operand of a stratified tree binds as
tightly as its place asks for, so the tree can be told from the tokens that write it. What is read
as an expression or a type is stratified and accounts for every token that was taken.
-/

set_option autoImplicit false

namespace FrontEnd

/-! ### Levels -/

namespace Precedence

instance : LE Precedence := ⟨fun p q => p.rank ≤ q.rank⟩

instance (p q : Precedence) : Decidable (p ≤ q) := inferInstanceAs (Decidable (p.rank ≤ q.rank))

theorem le_def {p q : Precedence} : p ≤ q ↔ p.rank ≤ q.rank := Iff.rfl

theorem lt_def {p q : Precedence} : p < q ↔ p.rank < q.rank := Iff.rfl

/-- Nothing binds more tightly than what stands behind its operand. -/
theorem le_postfixUnary (p : Precedence) : p ≤ postfixUnary := by cases p <;> decide

/-- The level of an operator that stands between two operands. -/
def of? (operator : TokenKind) : Option Precedence :=
  (assignment :: binaryLevels).find? (operator ∈ ·.operators)

/-- An operator of this level may join operands of the levels `left` and `right`: assignments nest
to the right and all other operators to the left. -/
def Joins (level left right : Precedence) : Prop :=
  if level = assignment then level < left else level ≤ left ∧ level < right

theorem of?_eq_some {operator : TokenKind} {level : Precedence} (h : of? operator = some level) :
    operator ∈ level.operators ∧ (level = assignment ∨ level ∈ binaryLevels) := by
  have hm := List.mem_of_find?_eq_some h
  have hk := List.find?_some h
  exact ⟨by simpa using hk, List.mem_cons.1 hm⟩

theorem of?_eq_none {kind : TokenKind} (ha : kind ∉ Grammar.Phrase.assigning)
    (hl : kind ∉ Grammar.Phrase.ladder.flatten) : of? kind = none := by
  have hassign : Grammar.Phrase.assigning = assignment.operators := rfl
  have hladder : Grammar.Phrase.ladder = binaryLevels.map operators := rfl
  rw [hassign] at ha
  rw [hladder] at hl
  refine List.find?_eq_none.2 fun level hm => ?_
  rcases List.mem_cons.1 hm with rfl | hm
  · simpa using ha
  · simpa using fun hk => hl (List.mem_flatten.2 ⟨_, List.mem_map_of_mem hm, hk⟩)

theorem of?_assigning : ∀ kind ∈ Grammar.Phrase.assigning, of? kind = some assignment := by decide

/-- The operators of a binary level are told by how many levels are tighter. -/
theorem of?_ladder {kinds : List TokenKind} {ladder : List (List TokenKind)}
    (h : kinds :: ladder <:+ Grammar.Phrase.ladder) {kind : TokenKind} (hk : kind ∈ kinds) :
    ∃ level, of? kind = some level ∧ level.rank = 10 - ladder.length ∧ ladder.length < 10 := by
  have hd : ∀ s ∈ Grammar.Phrase.ladder.tails, ∀ kind ∈ s.headD [],
      (of? kind).map rank = some (11 - s.length) := by decide
  have hlength : (kinds :: ladder).length ≤ 10 := h.length_le
  have hm := hd (kinds :: ladder) ((List.mem_tails _ _).2 h) kind hk
  obtain ⟨level, hl, hr⟩ := Option.map_eq_some_iff.1 hm
  rw [List.length_cons] at hlength hr
  exact ⟨level, hl, by omega, by omega⟩

/-- The level with `n` looser ones before it comes first among the levels behind those. -/
theorem drop_rank : ∀ level ∈ binaryLevels,
    binaryLevels.drop (level.rank - 1) = level :: binaryLevels.drop level.rank := by decide

theorem rank_pos : ∀ level ∈ binaryLevels, 0 < level.rank := by decide

theorem rank_le : ∀ level ∈ binaryLevels, level.rank ≤ 10 := by decide

end Precedence

/-! ### Stratified trees -/

namespace Expr

/-- The level at which an expression binds: that of its outermost operator. -/
def level : Expr → Precedence
  | .binary operator _ _ => (Precedence.of? operator).getD .assignment
  | .cast _ _ => .cast
  | .unary _ _ | .addressOf _ | .dereference _ | .new _ => .prefixUnary
  | _ => .postfixUnary

/-- A literal, a name or an expression in parentheses. -/
def isPrimary : Expr → Bool
  | .boolean _ | .integer _ | .realNumber _ | .string _ | .character _ | .identifier _ | .null
  | .group _ => true
  | _ => false

/-- What can be indexed. -/
def isChain : Expr → Bool
  | .call _ _ | .arrayLiteral _ | .index _ _ => true
  | e => e.isPrimary

/-- What members can be taken of: a chain, or what it points to. -/
def hasMembers : Expr → Bool
  | .dereference pointer => pointer.isChain
  | e => e.isChain

theorem isChain_of_isPrimary {e : Expr} (h : e.isPrimary) : e.isChain := by
  cases e <;> simp_all [isChain, isPrimary]

theorem level_of_isChain {e : Expr} (h : e.isChain) : e.level = .postfixUnary := by
  cases e <;> simp_all [isChain, isPrimary, level]

theorem hasMembers_of_isChain {e : Expr} (h : e.isChain) : e.hasMembers := by
  cases e <;> simp_all [isChain, isPrimary, hasMembers]

end Expr

mutual

def TypeExpr.Stratified : TypeExpr → Prop
  | .path _ _ => True
  | .array element => element.Stratified
  | .sizedArray element size => element.Stratified ∧ size.Stratified
  | .pointer pointee => pointee.Stratified

/-- Every operand binds at the level that its place asks for. -/
def Expr.Stratified : Expr → Prop
  | .boolean _ | .integer _ | .realNumber _ | .string _ | .character _ | .identifier _
  | .null => True
  | .unary operator operand =>
    (operator = .bang ∨ operator = .minus) ∧ .prefixUnary ≤ operand.level ∧ operand.Stratified
  | .binary operator left right =>
    (∃ level, Precedence.of? operator = some level ∧ level.Joins left.level right.level) ∧
      left.Stratified ∧ right.Stratified
  | .group inner => inner.Stratified
  | .cast operand target => .cast ≤ operand.level ∧ operand.Stratified ∧ target.Stratified
  | .call _ arguments => Expr.AllStratified arguments
  | .addressOf operand => operand.level = .postfixUnary ∧ operand.Stratified
  | .dereference operand => operand.level = .postfixUnary ∧ operand.Stratified
  | .new type => type.Stratified
  | .arrayLiteral elements => Expr.AllStratified elements
  | .index array subscript => array.isChain ∧ array.Stratified ∧ subscript.Stratified
  | .member left right =>
    left.hasMembers ∧ left.Stratified ∧ right.level = .postfixUnary ∧ right.Stratified
  | .qualified left right =>
    left.isPrimary ∧ left.Stratified ∧ right.level = .postfixUnary ∧ right.Stratified

def Expr.AllStratified : List Expr → Prop
  | [] => True
  | e :: rest => e.Stratified ∧ Expr.AllStratified rest

end

/-! ### What a token says -/

/-- A token without its position, and a number as its value. -/
def Token.lexeme (t : Token) : Lexeme :=
  match t.kind with
  | .integer => .text .integer (((Number.int64? t.value).map Number.int64Text).getD t.value)
  | .realNumber =>
    ((Number.Binary64.ofText? t.value).map Lexeme.real).getD (.text .realNumber t.value)
  | .identifier => .text .identifier t.value
  | .string => .text .string t.value
  | .character => .text .character t.value
  | kind => .fixed kind

namespace Token

variable {t : Token}

theorem lexeme_of_operator
    (h : t.kind ∈ Grammar.Phrase.assigning ++ Grammar.Phrase.ladder.flatten) :
    t.lexeme = .fixed t.kind := by
  unfold lexeme
  split <;> simp_all [Grammar.Phrase.assigning, Grammar.Phrase.ladder]

theorem kind_of_lexeme {kind : TokenKind} (h : t.lexeme = .fixed kind) : t.kind = kind := by
  unfold lexeme at h
  split at h
  · cases h
  · cases hv : Number.Binary64.ofText? t.value <;> simp [hv] at h
  · cases h
  · cases h
  · cases h
  · exact Lexeme.fixed.inj h

theorem word_of_lexeme {kind : TokenKind} {value : String} (h : t.lexeme = .text kind value)
    (hk : kind ∈ [TokenKind.identifier, .string, .character]) :
    t.kind = kind ∧ t.value = value := by
  unfold lexeme at h
  split at h
  · obtain ⟨rfl, -⟩ := Lexeme.text.inj h
    simp at hk
  · cases hv : Number.Binary64.ofText? t.value <;> simp_all
  · simp_all
  · simp_all
  · simp_all
  · cases h

theorem integer_of_lexeme {n : Int64} (h : t.lexeme = .text .integer (Number.int64Text n)) :
    t.kind = .integer ∧ Number.int64? t.value = some n := by
  unfold lexeme at h
  split at h
  · rename_i hk
    have htext := (Lexeme.text.inj h).2
    cases hv : Number.int64? t.value with
    | none =>
      -- the text of a number is always read, so it is not the text of this token
      have hn : t.value = Number.int64Text n := by simpa [hv] using htext
      rw [hn, Number.int64?_int64Text] at hv
      cases hv
    | some m =>
      have hm : Number.int64Text m = Number.int64Text n := by simpa [hv] using htext
      have hr := Number.int64?_int64Text m
      rw [hm, Number.int64?_int64Text] at hr
      exact ⟨hk, hr.symm⟩
  · cases hv : Number.Binary64.ofText? t.value <;> simp [hv] at h
  · simp at h
  · simp at h
  · simp at h
  · cases h

theorem real_of_lexeme {x : Number.Binary64} (h : t.lexeme = .real x) :
    t.kind = .realNumber ∧ Number.Binary64.ofText? t.value = some x := by
  unfold lexeme at h
  split at h
  · cases h
  · rename_i hk
    cases hv : Number.Binary64.ofText? t.value with
    | none => simp [hv] at h
    | some y => exact ⟨hk, by simpa [hv] using h⟩
  · cases h
  · cases h
  · cases h
  · cases h

end Token

namespace Grammar

/-! ### What is derived -/

/-- A phrase is stratified, and binds at the level of the phrase. -/
def Phrase.Stratifies : (p : Phrase) → p.Tree → Prop
  | .assignment, e => e.Stratified
  | .binary ladder, e => e.Stratified ∧ 10 - ladder.length < e.level.rank
  | .cast, e => e.Stratified ∧ .cast ≤ e.level
  | .unary, e => e.Stratified ∧ .prefixUnary ≤ e.level
  | .access, e => e.Stratified ∧ e.level = .postfixUnary
  | .chain, e => e.Stratified ∧ e.isChain
  | .primary, e => e.Stratified ∧ e.isPrimary
  | .elements, es | .list, es => Expr.AllStratified es
  | .typeExpr, t => t.Stratified

theorem Derives.stratifies {p : Phrase} {w : List Token} {e : p.Tree} (h : Derives p w e)
    (hp : p.Proper) : p.Stratifies e := by
  induction h with
  | operand _ ih => exact (ih List.suffix_rfl).1
  | @assign w v o l r _ ho _ ihl ihr =>
    have hl := ihl List.suffix_rfl
    have hjoins : Precedence.assignment.Joins l.level r.level := hl.2
    exact ⟨⟨_, Precedence.of?_assigning _ ho, hjoins⟩, hl.1, ihr trivial⟩
  | casted _ ih => exact ih trivial
  | @tighter w e kinds ladder _ ih =>
    obtain ⟨he, hl⟩ := ih hp.of_cons
    refine ⟨he, ?_⟩
    rw [List.length_cons]
    omega
  | @operate w v o l r kinds ladder _ ho _ ihl ihr =>
    obtain ⟨level, hlevel, hrank, hlength⟩ := Precedence.of?_ladder hp ho
    obtain ⟨hl, hleft⟩ := ihl hp
    obtain ⟨hr, hright⟩ := ihr hp.of_cons
    rw [List.length_cons] at hleft
    have hne : level ≠ .assignment := by
      rintro rfl
      have hzero : Precedence.assignment.rank = 0 := by decide
      omega
    have hjoins : level.Joins l.level r.level := by
      rw [Precedence.Joins, if_neg hne, Precedence.le_def, Precedence.lt_def]
      omega
    refine ⟨⟨⟨level, hlevel, hjoins⟩, hl, hr⟩, ?_⟩
    rw [Expr.level, hlevel, List.length_cons, Option.getD_some]
    omega
  | uncast _ ih =>
    obtain ⟨he, hl⟩ := ih trivial
    exact ⟨he, Nat.le_trans (by decide) hl⟩
  | castTo _ _ _ ihe iht =>
    obtain ⟨he, hl⟩ := ihe trivial
    exact ⟨⟨hl, he, iht trivial⟩, Nat.le_refl _⟩
  | unmarked _ ih =>
    obtain ⟨he, hl⟩ := ih trivial
    exact ⟨he, hl ▸ by decide⟩
  | addressOf _ _ ih | dereference _ _ ih =>
    obtain ⟨he, hl⟩ := ih trivial
    exact ⟨⟨hl, he⟩, Nat.le_refl _⟩
  | new _ _ ih => exact ⟨ih trivial, Nat.le_refl _⟩
  | marked ho _ ih =>
    obtain ⟨he, hl⟩ := ih trivial
    exact ⟨⟨ho, hl, he⟩, Nat.le_refl _⟩
  | chained _ ih =>
    obtain ⟨he, hc⟩ := ih trivial
    exact ⟨he, Expr.level_of_isChain hc⟩
  | member _ _ _ ihl ihr =>
    obtain ⟨hl, hc⟩ := ihl trivial
    obtain ⟨hr, hlevel⟩ := ihr trivial
    exact ⟨⟨Expr.hasMembers_of_isChain hc, hl, hlevel, hr⟩, rfl⟩
  | arrow _ _ _ ihl ihr =>
    obtain ⟨hl, hc⟩ := ihl trivial
    obtain ⟨hr, hlevel⟩ := ihr trivial
    exact ⟨⟨hc, ⟨Expr.level_of_isChain hc, hl⟩, hlevel, hr⟩, rfl⟩
  | qualified _ _ _ ihl ihr =>
    obtain ⟨hl, hc⟩ := ihl trivial
    obtain ⟨hr, hlevel⟩ := ihr trivial
    exact ⟨⟨hc, hl, hlevel, hr⟩, rfl⟩
  | base _ ih =>
    obtain ⟨he, hc⟩ := ih trivial
    exact ⟨he, Expr.isChain_of_isPrimary hc⟩
  | arrayLiteral _ _ _ ih | call _ _ _ _ ih => exact ⟨ih trivial, rfl⟩
  | index _ _ _ _ iha ihi =>
    obtain ⟨ha, hc⟩ := iha trivial
    exact ⟨⟨hc, ha, ihi trivial⟩, rfl⟩
  | isTrue | isFalse | null | integer | realNumber | string | character | identifier =>
    exact ⟨trivial, rfl⟩
  | group _ _ _ ih => exact ⟨ih trivial, rfl⟩
  | last _ ih => exact ⟨ih trivial, trivial⟩
  | more _ _ _ ih ihs => exact ⟨ih trivial, ihs trivial⟩
  | none => trivial
  | some _ ih => exact ih trivial
  | named => trivial
  | array _ _ _ ih | pointer _ _ ih => exact ih trivial
  | sizedArray _ _ _ _ _ iht ihe => exact ⟨iht trivial, ihe trivial⟩

theorem Names.lexemes_eq {w : List Token} {head : String} {tail : List String}
    (h : Names w head tail) : w.map Token.lexeme = Lexeme.path head tail := by
  induction h with
  | one ht => simp [Lexeme.path, Token.lexeme, ht]
  | more ht ho _ ih => simp [Lexeme.path, Token.lexeme, ht, ho, ih]

/-- The tokens of a phrase, one by one and in order, are what its tree is written with. -/
theorem Derives.lexemes_eq {p : Phrase} {w : List Token} {e : p.Tree} (h : Derives p w e)
    (hp : p.Proper) : w.map Token.lexeme = p.lexemes e := by
  induction h with
  | operand _ ih => exact ih List.suffix_rfl
  | @assign w v o l r _ ho _ ihl ihr =>
    have hl : w.map Token.lexeme = l.lexemes := ihl List.suffix_rfl
    have hr : v.map Token.lexeme = r.lexemes := ihr trivial
    have ho := Token.lexeme_of_operator (List.mem_append_left _ ho)
    simp [Phrase.lexemes, Expr.lexemes, hl, hr, ho]
  | casted _ ih => exact ih trivial
  | tighter _ ih => exact ih hp.of_cons
  | @operate w v o l r kinds ladder _ ho _ ihl ihr =>
    have hl : w.map Token.lexeme = l.lexemes := ihl hp
    have hr : v.map Token.lexeme = r.lexemes := ihr hp.of_cons
    have hk : kinds ∈ Phrase.ladder := hp.subset List.mem_cons_self
    have ho := Token.lexeme_of_operator
      (List.mem_append_right Phrase.assigning (List.mem_flatten.2 ⟨kinds, hk, ho⟩))
    simp [Phrase.lexemes, Expr.lexemes, hl, hr, ho]
  | marked ho _ ih =>
    have he := ih trivial
    rcases ho with ho | ho <;> simp_all [Phrase.lexemes, Expr.lexemes, Token.lexeme]
  | member hl ho _ ihl ihr =>
    have hl' := ihl trivial
    have hr' := ihr trivial
    simp_all [Phrase.lexemes, hl.lexemes_member, Token.lexeme]
  | named h => exact h.lexemes_eq
  | @more w v o e es _ ho hes ih ihs =>
    have he := ih trivial
    have hs := ihs trivial
    cases es with
    | nil => cases hes
    | cons e' es => simp_all [Phrase.lexemes, Expr.lexemesOf, Lexeme.separated, Token.lexeme]
  | none => rfl
  | _ =>
    simp_all [Phrase.Proper, Phrase.lexemes, Expr.lexemes, Expr.lexemesOf, TypeExpr.lexemes,
      Lexeme.separated, Token.lexeme]

/-! ### What is stratified -/

/-- The phrase of the levels that have at least `n` looser ones. -/
abbrev Phrase.binaryFrom (n : Nat) : Phrase := .binaryOf (Precedence.binaryLevels.drop n)

/-- The levels of the grammar, numbered by how tightly they bind: assignments, the binary operators
and casts, and four levels behind those. -/
def DerivesAt (n : Nat) (w : List Token) (e : Expr) : Prop :=
  match n with
  | 0 => Derives .assignment w e
  | 12 => Derives .unary w e
  | 13 => Derives .access w e
  | 14 => Derives .chain w e
  | 15 => Derives .primary w e
  | n + 1 => Derives (.binaryFrom n) w e

section

variable {n m : Nat} {w : List Token} {e : Expr}

theorem derivesAt_succ (hn : n ≤ 10) : DerivesAt (n + 1) w e ↔ Derives (.binaryFrom n) w e := by
  match n, hn with
  | 0, _ | 1, _ | 2, _ | 3, _ | 4, _ | 5, _ | 6, _ | 7, _ | 8, _ | 9, _ | 10, _ => exact Iff.rfl

theorem DerivesAt.looser (h : DerivesAt (n + 1) w e) (hn : n < 15) : DerivesAt n w e := by
  match n, hn, h with
  | 0, _, h => exact .operand h
  | 1, _, h | 2, _, h | 3, _, h | 4, _, h | 5, _, h | 6, _, h | 7, _, h | 8, _, h | 9, _, h
  | 10, _, h => exact .tighter h
  | 11, _, h => exact .casted (.uncast h)
  | 12, _, h => exact .unmarked h
  | 13, _, h => exact .chained h
  | 14, _, h => exact .base h

theorem DerivesAt.of_le (h : DerivesAt m w e) (hm : m ≤ 15) (hn : n ≤ m) : DerivesAt n w e := by
  induction m with
  | zero => exact Nat.le_zero.1 hn ▸ h
  | succ m ih =>
    by_cases he : n = m + 1
    · exact he ▸ h
    · exact ih (h.looser (by omega)) (by omega) (by omega)

end

end Grammar

/-- The tightest level of the grammar at which an expression can be derived. -/
def Expr.tightness (e : Expr) : Nat :=
  if e.isPrimary then 15 else if e.isChain then 14 else e.level.rank

namespace Expr

variable {e : Expr}

theorem tightness_le (e : Expr) : e.tightness ≤ 15 := by
  have hl : e.level.rank ≤ 13 := Precedence.le_postfixUnary e.level
  unfold tightness
  split
  · exact Nat.le_refl _
  · split <;> omega

theorem rank_le_tightness (e : Expr) : e.level.rank ≤ e.tightness := by
  have hl : e.level.rank ≤ 13 := Precedence.le_postfixUnary e.level
  unfold tightness
  split
  · omega
  · split <;> omega

theorem access_le_tightness (h : e.level = .postfixUnary) : 13 ≤ e.tightness := by
  have hr := rank_le_tightness e
  rw [h] at hr
  exact hr

theorem chain_le_tightness (h : e.isChain) : 14 ≤ e.tightness := by
  rw [tightness, if_pos h]
  split <;> omega

theorem primary_le_tightness (h : e.isPrimary) : 15 ≤ e.tightness := by
  rw [tightness, if_pos h]

end Expr

namespace Grammar

theorem names_of_lexemes {head : String} {tail : List String} {w : List Token}
    (h : w.map Token.lexeme = Lexeme.path head tail) : Names w head tail := by
  induction tail generalizing head w with
  | nil =>
    simp only [Lexeme.path, List.map_eq_cons_iff, List.map_eq_nil_iff] at h
    obtain ⟨t, _, rfl, ht, rfl⟩ := h
    obtain ⟨hk, rfl⟩ := Token.word_of_lexeme ht (by decide)
    exact .one hk
  | cons name tail ih =>
    simp only [Lexeme.path, List.map_eq_cons_iff] at h
    obtain ⟨t, _, rfl, ht, o, v, rfl, ho, hv⟩ := h
    obtain ⟨hk, rfl⟩ := Token.word_of_lexeme ht (by decide)
    exact .more hk (Token.kind_of_lexeme ho) (ih hv)

/-- An operand is derived at the level that its place asks for. -/
theorem DerivesAt.place {n : Nat} {w : List Token} {e : Expr} (h : DerivesAt e.tightness w e)
    (hn : n ≤ e.tightness) : DerivesAt n w e := h.of_le e.tightness_le hn

theorem derivesAt_binary {operator : TokenKind} {l r : Expr} {w v : List Token} {o : Token}
    (ho : o.kind = operator)
    (hs : ∃ level, Precedence.of? operator = some level ∧ level.Joins l.level r.level)
    (hl : DerivesAt l.tightness w l) (hr : DerivesAt r.tightness v r) :
    DerivesAt (Expr.binary operator l r).tightness (w ++ o :: v) (.binary operator l r) := by
  obtain ⟨level, hlevel, hjoins⟩ := hs
  obtain ⟨hop, hkind⟩ := Precedence.of?_eq_some hlevel
  have ht : (Expr.binary operator l r).tightness = level.rank := by
    simp [Expr.tightness, Expr.isPrimary, Expr.isChain, Expr.level, hlevel]
  have hlt := l.rank_le_tightness
  have hrt := r.rank_le_tightness
  subst ho
  rw [ht]
  rw [Precedence.Joins] at hjoins
  by_cases ha : level = .assignment
  · subst ha
    have hleft : 0 < l.level.rank := hjoins
    have h₁ : DerivesAt 1 w l := hl.place (by omega)
    have h₀ : DerivesAt 0 v r := hr.place (Nat.zero_le _)
    exact Derives.assign h₁ hop h₀
  · rw [if_neg ha, Precedence.le_def, Precedence.lt_def] at hjoins
    have hmem : level ∈ Precedence.binaryLevels := hkind.resolve_left ha
    have hpos := Precedence.rank_pos level hmem
    have hle := Precedence.rank_le level hmem
    obtain ⟨n, hn⟩ : ∃ n, level.rank = n + 1 := ⟨level.rank - 1, by omega⟩
    have hdrop := Precedence.drop_rank level hmem
    rw [hn, Nat.add_sub_cancel] at hdrop
    have hleft : Derives (.binaryFrom n) w l :=
      (derivesAt_succ (by omega)).1 (hl.place (by omega))
    have hright : Derives (.binaryFrom (n + 1)) v r :=
      (derivesAt_succ (by omega)).1 (hr.place (by omega))
    rw [hn, derivesAt_succ (by omega)]
    simp only [Phrase.binaryFrom] at hleft ⊢
    generalize Precedence.binaryLevels.drop n = levels at hdrop hleft ⊢
    subst hdrop
    exact .operate hleft hop hright

/-! ### Tokens that write a tree -/

section

variable {w : List Token} {kind : TokenKind} {as bs : List Lexeme}

theorem exists_cons_of_lexemes (h : w.map Token.lexeme = .fixed kind :: as) :
    ∃ o v, w = o :: v ∧ o.kind = kind ∧ v.map Token.lexeme = as := by
  obtain ⟨o, v, rfl, ho, hv⟩ := List.map_eq_cons_iff.1 h
  exact ⟨o, v, rfl, Token.kind_of_lexeme ho, hv⟩

theorem exists_singleton_of_lexemes (h : w.map Token.lexeme = [.fixed kind]) :
    ∃ t, w = [t] ∧ t.kind = kind := by
  obtain ⟨t, rfl, ht⟩ := List.map_eq_singleton_iff.1 h
  exact ⟨t, rfl, Token.kind_of_lexeme ht⟩

theorem exists_infix_of_lexemes (h : w.map Token.lexeme = as ++ .fixed kind :: bs) :
    ∃ u o v, w = u ++ o :: v ∧ u.map Token.lexeme = as ∧ o.kind = kind ∧
      v.map Token.lexeme = bs := by
  obtain ⟨u, v, rfl, hu, hv⟩ := List.map_eq_append_iff.1 h
  obtain ⟨o, v, rfl, ho, hv⟩ := exists_cons_of_lexemes hv
  exact ⟨u, o, v, rfl, hu, ho, hv⟩

theorem exists_concat_of_lexemes (h : w.map Token.lexeme = as ++ [.fixed kind]) :
    ∃ v c, w = v ++ [c] ∧ v.map Token.lexeme = as ∧ c.kind = kind := by
  obtain ⟨v, c, x, rfl, hv, hc, hx⟩ := exists_infix_of_lexemes h
  obtain rfl := List.map_eq_nil_iff.1 hx
  exact ⟨v, c, rfl, hv, hc⟩

end

-- a stratified tree is derived as tightly as it binds, and its operands by the same argument
mutual

theorem derives_typeExpr_of_lexemes : ∀ (t : TypeExpr) (w : List Token), t.Stratified →
    w.map Token.lexeme = t.lexemes → Derives .typeExpr w t
  | .path head tail, w, _, h => .named (names_of_lexemes h)
  | .array element, w, hs, h => by
    obtain ⟨o, v, rfl, ho, hv⟩ := exists_cons_of_lexemes h
    obtain ⟨v, c, rfl, hv, hc⟩ := exists_concat_of_lexemes hv
    exact .array ho (derives_typeExpr_of_lexemes element v hs hv) hc
  | .sizedArray element size, w, hs, h => by
    obtain ⟨o, v, rfl, ho, hv⟩ := exists_cons_of_lexemes h
    obtain ⟨v, comma, x, rfl, helement, hcomma, hx⟩ := exists_infix_of_lexemes hv
    obtain ⟨x, c, rfl, hx, hc⟩ := exists_concat_of_lexemes hx
    have hsize := derivesAt_of_lexemes size x hs.2 hx
    exact .sizedArray ho (derives_typeExpr_of_lexemes element v hs.1 helement) hcomma
      (hsize.place (Nat.zero_le _)) hc
  | .pointer pointee, w, hs, h => by
    obtain ⟨o, v, rfl, ho, hv⟩ := exists_cons_of_lexemes h
    exact .pointer ho (derives_typeExpr_of_lexemes pointee v hs hv)

theorem derivesAt_of_lexemes : ∀ (e : Expr) (w : List Token), e.Stratified →
    w.map Token.lexeme = e.lexemes → DerivesAt e.tightness w e
  | .boolean true, w, _, h => by
    obtain ⟨t, rfl, ht⟩ := exists_singleton_of_lexemes h
    exact Derives.isTrue ht
  | .boolean false, w, _, h => by
    obtain ⟨t, rfl, ht⟩ := exists_singleton_of_lexemes h
    exact Derives.isFalse ht
  | .null, w, _, h => by
    obtain ⟨t, rfl, ht⟩ := exists_singleton_of_lexemes h
    exact Derives.null ht
  | .integer value, w, _, h => by
    obtain ⟨t, rfl, ht⟩ := List.map_eq_singleton_iff.1 h
    obtain ⟨hk, hv⟩ := Token.integer_of_lexeme ht
    exact Derives.integer hk hv
  | .realNumber value, w, _, h => by
    obtain ⟨t, rfl, ht⟩ := List.map_eq_singleton_iff.1 h
    obtain ⟨hk, hv⟩ := Token.real_of_lexeme ht
    exact Derives.realNumber hk hv
  | .string value, w, _, h => by
    obtain ⟨t, rfl, ht⟩ := List.map_eq_singleton_iff.1 h
    obtain ⟨hk, rfl⟩ := Token.word_of_lexeme ht (by decide)
    exact Derives.string hk
  | .character value, w, _, h => by
    obtain ⟨t, rfl, ht⟩ := List.map_eq_singleton_iff.1 h
    obtain ⟨hk, rfl⟩ := Token.word_of_lexeme ht (by decide)
    exact Derives.character hk
  | .identifier name, w, _, h => by
    obtain ⟨t, rfl, ht⟩ := List.map_eq_singleton_iff.1 h
    obtain ⟨hk, rfl⟩ := Token.word_of_lexeme ht (by decide)
    exact Derives.identifier hk
  | .unary operator operand, w, hs, h => by
    obtain ⟨o, v, rfl, rfl, hv⟩ := exists_cons_of_lexemes h
    obtain ⟨ho, hlevel, hs⟩ := hs
    have hoperand := derivesAt_of_lexemes operand v hs hv
    exact Derives.marked ho (hoperand.place (Nat.le_trans hlevel operand.rank_le_tightness))
  | .binary operator left right, w, hs, h => by
    obtain ⟨u, o, v, rfl, hu, ho, hv⟩ := exists_infix_of_lexemes h
    obtain ⟨hjoins, hl, hr⟩ := hs
    exact derivesAt_binary ho hjoins (derivesAt_of_lexemes left u hl hu)
      (derivesAt_of_lexemes right v hr hv)
  | .group inner, w, hs, h => by
    obtain ⟨o, v, rfl, ho, hv⟩ := exists_cons_of_lexemes h
    obtain ⟨v, c, rfl, hv, hc⟩ := exists_concat_of_lexemes hv
    have hinner := derivesAt_of_lexemes inner v hs hv
    exact Derives.group ho (hinner.place (Nat.zero_le _)) hc
  | .cast operand target, w, hs, h => by
    obtain ⟨u, o, v, rfl, hu, ho, hv⟩ := exists_infix_of_lexemes h
    obtain ⟨hlevel, hs, ht⟩ := hs
    have hoperand := derivesAt_of_lexemes operand u hs hu
    have hcast : DerivesAt 11 u operand :=
      hoperand.place (Nat.le_trans hlevel operand.rank_le_tightness)
    cases hcast with
    | casted hcast =>
      exact Derives.casted (.castTo hcast ho (derives_typeExpr_of_lexemes target v ht hv))
  | .call name arguments, w, hs, h => by
    obtain ⟨t, v, rfl, ht, hv⟩ := List.map_eq_cons_iff.1 h
    obtain ⟨hk, rfl⟩ := Token.word_of_lexeme ht (by decide)
    obtain ⟨o, v, rfl, ho, hv⟩ := exists_cons_of_lexemes hv
    obtain ⟨v, c, rfl, hv, hc⟩ := exists_concat_of_lexemes hv
    exact Derives.call hk ho (derives_list_of_lexemes arguments v hs hv) hc
  | .addressOf operand, w, hs, h => by
    obtain ⟨o, v, rfl, ho, hv⟩ := exists_cons_of_lexemes h
    have hoperand := derivesAt_of_lexemes operand v hs.2 hv
    exact Derives.addressOf ho (hoperand.place (Expr.access_le_tightness hs.1))
  | .dereference operand, w, hs, h => by
    obtain ⟨o, v, rfl, ho, hv⟩ := exists_cons_of_lexemes h
    have hoperand := derivesAt_of_lexemes operand v hs.2 hv
    exact Derives.dereference ho (hoperand.place (Expr.access_le_tightness hs.1))
  | .new type, w, hs, h => by
    obtain ⟨o, v, rfl, ho, hv⟩ := exists_cons_of_lexemes h
    exact Derives.new ho (derives_typeExpr_of_lexemes type v hs hv)
  | .arrayLiteral elements, w, hs, h => by
    obtain ⟨o, v, rfl, ho, hv⟩ := exists_cons_of_lexemes h
    obtain ⟨v, c, rfl, hv, hc⟩ := exists_concat_of_lexemes hv
    exact Derives.arrayLiteral ho (derives_list_of_lexemes elements v hs hv) hc
  | .index array subscript, w, hs, h => by
    obtain ⟨u, o, v, rfl, hu, ho, hv⟩ := exists_infix_of_lexemes h
    obtain ⟨v, c, rfl, hv, hc⟩ := exists_concat_of_lexemes hv
    obtain ⟨hchain, ha, hi⟩ := hs
    have harray := derivesAt_of_lexemes array u ha hu
    have hsubscript := derivesAt_of_lexemes subscript v hi hv
    exact Derives.index (harray.place (Expr.chain_le_tightness hchain)) ho
      (hsubscript.place (Nat.zero_le _)) hc
  | .member left right, w, hs, h => by
    obtain ⟨hmembers, hl, hlevel, hr⟩ := hs
    cases left with
    | dereference pointer =>
      obtain ⟨u, o, v, rfl, hu, ho, hv⟩ := exists_infix_of_lexemes h
      have hpointer := derivesAt_of_lexemes pointer u hl.2 hu
      have hright := derivesAt_of_lexemes right v hr hv
      exact Derives.arrow (hpointer.place (Expr.chain_le_tightness hmembers)) ho
        (hright.place (Expr.access_le_tightness hlevel))
    | _ =>
      obtain ⟨u, o, v, rfl, hu, ho, hv⟩ := exists_infix_of_lexemes h
      have hleft := derivesAt_of_lexemes _ u hl hu
      have hright := derivesAt_of_lexemes right v hr hv
      exact Derives.member (hleft.place (Expr.chain_le_tightness hmembers)) ho
        (hright.place (Expr.access_le_tightness hlevel))
  | .qualified left right, w, hs, h => by
    obtain ⟨u, o, v, rfl, hu, ho, hv⟩ := exists_infix_of_lexemes h
    obtain ⟨hprimary, hl, hlevel, hr⟩ := hs
    have hleft := derivesAt_of_lexemes left u hl hu
    have hright := derivesAt_of_lexemes right v hr hv
    exact Derives.qualified (hleft.place (Expr.primary_le_tightness hprimary)) ho
      (hright.place (Expr.access_le_tightness hlevel))

theorem derives_list_of_lexemes : ∀ (es : List Expr) (w : List Token), Expr.AllStratified es →
    w.map Token.lexeme = Lexeme.separated (Expr.lexemesOf es) → Derives .list w es
  | [], w, _, h => by
    obtain rfl := List.map_eq_nil_iff.1 h
    exact .none
  | [e], w, hs, h => .some (.last ((derivesAt_of_lexemes e w hs.1 h).place (Nat.zero_le _)))
  | e :: e' :: es, w, hs, h => by
    obtain ⟨u, o, v, rfl, hu, ho, hv⟩ := exists_infix_of_lexemes h
    have hfirst := derivesAt_of_lexemes e u hs.1 hu
    have hrest := derives_list_of_lexemes (e' :: es) v hs.2 hv
    cases hrest with
    | some hrest => exact .some (.more (hfirst.place (Nat.zero_le _)) ho hrest)

end

/-! ### What is read -/

/-- Tokens write at most one expression. -/
theorem Derives.assignment_unique {w : List Token} {e e' : Expr} (h : Derives .assignment w e)
    (h' : Derives .assignment w e') : e = e' :=
  (h.isRead [] (by decide)).unique (h'.isRead [] (by decide))

theorem Derives.typeExpr_unique {w : List Token} {t t' : TypeExpr} (h : Derives .typeExpr w t)
    (h' : Derives .typeExpr w t') : t = t' :=
  (h.isRead [] (by decide)).unique (h'.isRead [] (by decide))

/-- What is read as an expression or as a type accounts for every token that was taken, one by one
and in order. The tree is stratified, and no other stratified tree is written with these tokens.
Behind an expression stands nothing that carries it on. -/
theorem stratified_of_gives (ts : List Token) :
    (∀ (e : Expr) (rest : List Token), (assignment ts).Gives e rest →
      ∃ w, ts = w ++ rest ∧ w.map Token.lexeme = e.lexemes ∧ e.Stratified ∧
        (∀ e' : Expr, e'.Stratified → e'.lexemes = e.lexemes → e' = e) ∧
        Precedence.of? (headKind rest) = none ∧ headKind rest ≠ .kwAs) ∧
    ∀ (t : TypeExpr) (rest : List Token), (typeExpr ts).Gives t rest →
      ∃ w, ts = w ++ rest ∧ w.map Token.lexeme = t.lexemes ∧ t.Stratified ∧
        ∀ t' : TypeExpr, t'.Stratified → t'.lexemes = t.lexemes → t' = t := by
  constructor
  · intro e rest hg
    obtain ⟨w, hts, hd, hstop⟩ := (sound ts).assignment.of_gives hg
    have hw : w.map Token.lexeme = e.lexemes := hd.lexemes_eq trivial
    refine ⟨w, hts, hw, hd.stratifies trivial, ?_, ?_⟩
    · intro e' hs' he'
      have hd' := derivesAt_of_lexemes e' w hs' (hw.trans he'.symm)
      exact Derives.assignment_unique (hd'.place (Nat.zero_le _)) hd
    · simp only [Phrase.stops, List.mem_append, List.mem_singleton, not_or] at hstop
      obtain ⟨hassign, hladder, has⟩ := hstop
      exact ⟨Precedence.of?_eq_none hassign hladder, has⟩
  · intro t rest hg
    obtain ⟨w, hts, hd, -⟩ := (sound ts).typeExpr.of_gives hg
    have hw : w.map Token.lexeme = t.lexemes := hd.lexemes_eq trivial
    refine ⟨w, hts, hw, hd.stratifies trivial, ?_⟩
    intro t' hs' ht'
    exact (derives_typeExpr_of_lexemes t' w hs' (hw.trans ht'.symm)).typeExpr_unique hd

/-- Two subtractions and a semicolon: `null - null - null;`. -/
def subtractionTokens : List Token :=
  [bareToken .kwNull, bareToken .minus, bareToken .kwNull, bareToken .minus, bareToken .kwNull,
    bareToken .semicolon]

theorem stratified_of_gives_subtractionTokens :
    (assignment subtractionTokens).Gives
        (.binary .minus (.binary .minus .null .null) .null) [bareToken .semicolon] ∧
      (typeExpr [bareToken .caret, bareToken .identifier]).Gives (.pointer (.path "" [])) [] ∧
      (∀ e : Expr, e.Stratified →
        e.lexemes = [.fixed .kwNull, .fixed .minus, .fixed .kwNull, .fixed .minus, .fixed .kwNull] →
        e = .binary .minus (.binary .minus .null .null) .null) ∧
      ∀ t : TypeExpr, t.Stratified → t.lexemes = [.fixed .caret, .text .identifier ""] →
        t = .pointer (.path "" []) := by
  have hg : (assignment subtractionTokens).Gives
      (.binary .minus (.binary .minus .null .null) .null) [bareToken .semicolon] := by
    with_unfolding_all rfl
  have ht : (typeExpr [bareToken .caret, bareToken .identifier]).Gives
      (.pointer (.path "" [])) [] := by
    with_unfolding_all rfl
  obtain ⟨_, -, -, -, he, -⟩ := (stratified_of_gives _).1 _ _ hg
  obtain ⟨_, -, -, -, htype⟩ := (stratified_of_gives _).2 _ _ ht
  exact ⟨hg, ht, he, htype⟩

end Grammar

end FrontEnd
