import FrontEnd.Proofs.Phrase.Completeness

/-!
What is read as an expression or a type is derived by the grammar. The tokens that were taken
write the tree that was read, and the token behind them does not carry it on. When reading fails,
what was taken up to there can still be completed to a phrase.
-/

set_option autoImplicit false

namespace FrontEnd.Grammar

namespace Phrase

/-- The tokens `w` are the beginning of a phrase. -/
def Viable (p : Phrase) (w : List Token) : Prop := ∃ v e, Derives p (w ++ v) e

/-- The kinds of token that are never left behind a phrase that was read. -/
def stops : Phrase → List TokenKind
  | .assignment => Phrase.assigning ++ (Phrase.ladder.flatten ++ [.kwAs])
  | .binary ladder => ladder.flatten ++ [.kwAs]
  | .cast => [.kwAs]
  | .access => Precedence.postfixUnary.operators
  | _ => []

/-- Behind the tokens `w`, a phrase is read off `ts` as the grammar derives it. -/
def Reads (p : Phrase) (w : List Token) (ts : List Token) {n : Nat} (q : Parsed p.Tree n) : Prop :=
  q.Meets ts (fun v e rest => Derives p (w ++ v) e ∧ headKind rest ∉ p.stops)
    (fun v => p.Viable (w ++ v))

/-- The tokens before and the tokens that were taken may be grouped in another way. -/
theorem Reads.regroup {p : Phrase} {w ts : List Token} {n : Nat} {q : Parsed p.Tree n}
    (h : p.Reads w ts q) {f : List Token → List Token} (hf : ∀ v, w ++ v = f v) :
    q.Meets ts (fun v e rest => Derives p (f v) e ∧ headKind rest ∉ p.stops)
      (fun v => p.Viable (f v)) := by
  rw [← funext hf]
  exact h

end Phrase

/-! ### Completing what was begun -/

/-- A token of the given kind, to complete a phrase with. -/
def bareToken (kind : TokenKind) : Token := ⟨kind, "", .null⟩

theorem exists_derives_binary (ladder : List (List TokenKind)) :
    ∃ w e, Derives (.binary ladder) w e := by
  induction ladder with
  | nil =>
    exact ⟨_, _, .casted (.uncast (.unmarked (.chained (.base
      (.identifier (t := bareToken .identifier) rfl)))))⟩
  | cons kinds ladder ih =>
    obtain ⟨w, e, h⟩ := ih
    exact ⟨w, e, .tighter h⟩

theorem exists_derives_assignment : ∃ w e, Derives .assignment w e := by
  obtain ⟨w, e, h⟩ := exists_derives_binary Phrase.ladder
  exact ⟨w, e, .operand h⟩

/-- Every level of the grammar has phrases. -/
theorem viable_nil (p : Phrase) : p.Viable [] := by
  have hi : Derives .primary [bareToken .identifier] (.identifier "") := .identifier rfl
  obtain ⟨w, e, h⟩ := exists_derives_assignment
  cases p with
  | assignment => exact ⟨w, e, h⟩
  | binary ladder => exact exists_derives_binary ladder
  | cast => exact ⟨_, _, .uncast (.unmarked (.chained (.base hi)))⟩
  | unary => exact ⟨_, _, .unmarked (.chained (.base hi))⟩
  | access => exact ⟨_, _, .chained (.base hi)⟩
  | chain => exact ⟨_, _, .base hi⟩
  | primary => exact ⟨_, _, hi⟩
  | elements => exact ⟨w, [e], .last h⟩
  | list => exact ⟨[], [], .none⟩
  | typeExpr => exact ⟨_, _, .named (.one (t := bareToken .identifier) rfl)⟩

theorem Derives.viable {p : Phrase} {w : List Token} {e : p.Tree} (h : Derives p w e) :
    p.Viable w := ⟨[], e, by rwa [List.append_nil]⟩

theorem Phrase.Viable.plain {p : Phrase} {w : List Token} (h : p.Viable w) (hp : p.Proper) :
    Plain w := by
  obtain ⟨v, e, hd⟩ := h
  exact (plain_append.1 (hd.plain hp)).1

/-- Only a plain name can be followed by arguments, and a name in a chain is a single token. -/
theorem Derives.chain_identifier {w : List Token} {name : String}
    (h : Derives .chain w (.identifier name)) :
    ∃ t, w = [t] ∧ t.kind = .identifier ∧ t.value = name := by
  cases h with
  | base h =>
    cases h with
    | identifier ht => exact ⟨_, rfl, ht, rfl⟩

/-! ### The readers, on lists whose tails are read soundly -/

/-- The phrase that is read at the given levels. -/
abbrev Phrase.binaryOf (levels : List Precedence) : Phrase :=
  .binary (levels.map Precedence.operators)

/-- Every reader that starts at `ts` is sound. -/
structure Sound (ts : List Token) : Prop where
  assignment : Phrase.assignment.Reads [] ts (assignment ts)
  binary (levels : List Precedence) : (Phrase.binaryOf levels).Reads [] ts (binary levels ts)
  binaryTail {level : Precedence} {levels : List Precedence} {left : Expr} {w : List Token} :
    Derives (.binaryOf (level :: levels)) w left → headKind ts ∉ (Phrase.binaryOf levels).stops →
    (Phrase.binaryOf (level :: levels)).Reads w ts (binaryTail level levels left ts)
  castTail {operand : Expr} {w : List Token} :
    Derives .cast w operand → Phrase.cast.Reads w ts (castTail operand ts)
  unary : Phrase.unary.Reads [] ts (unary ts)
  access : Phrase.access.Reads [] ts (access ts)
  accessTail {base : Expr} {w : List Token} :
    Derives .chain w base → Phrase.access.Reads w ts (accessTail base ts)
  listUntil (close : TokenKind) : (listUntil close ts).Meets ts
    (fun w es _ => ∃ v c, w = v ++ [c] ∧ c.kind = close ∧ Derives .list v es)
    Phrase.list.Viable
  elements : Phrase.elements.Reads [] ts (elements ts)
  typeExpr : Phrase.typeExpr.Reads [] ts (typeExpr ts)

section

variable {ts : List Token} (ih : ∀ us, us.length < ts.length → Sound us)

theorem literal_reads {α : Type} {make : α → Expr} {value? : Option α} {front : Front ts}
    (hts : ts = front.token :: front.rest)
    (h : ∀ value, value? = some value → Derives .primary [front.token] (make value)) :
    Phrase.primary.Reads [] ts (literal make value? front) := by
  cases value? with
  | none => exact Parsed.meets_refuse (viable_nil _)
  | some value => exact Parsed.meets_give hts ⟨h value rfl, by simp [Phrase.stops]⟩

include ih

theorem primary_reads : Phrase.primary.Reads [] ts (primary ts) := by
  rw [primary]
  split
  · exact Parsed.meets_refuse (viable_nil _)
  · rename_i front hf
    have hts := front?_eq_some hf
    have hn : ∀ rest, headKind rest ∉ Phrase.primary.stops := by simp [Phrase.stops]
    split
    · exact Parsed.meets_give hts ⟨.isTrue (by assumption), hn _⟩
    · exact Parsed.meets_give hts ⟨.isFalse (by assumption), hn _⟩
    · exact Parsed.meets_give hts ⟨.null (by assumption), hn _⟩
    · exact literal_reads hts fun value hv => .integer (by assumption) hv
    · exact literal_reads hts fun value hv => .realNumber (by assumption) hv
    · exact Parsed.meets_give hts ⟨.string (by assumption), hn _⟩
    · exact Parsed.meets_give hts ⟨.character (by assumption), hn _⟩
    · exact Parsed.meets_give hts ⟨.identifier (by assumption), hn _⟩
    · rename_i ho
      refine Front.meets_chain hts (Parsed.meets_chain (ih _ front.shorter).assignment ?_ ?_)
      · rintro w ⟨x, e, h⟩
        exact ⟨x ++ [bareToken .rParen], _, by simpa using Derives.group ho h rfl⟩
      · rintro e w rest _ _ ⟨he, _⟩
        refine Parsed.meets_map (expect_meets ?_ ?_)
        · intro c rest hc
          exact ⟨.group ho he hc, hn _⟩
        · exact ⟨[bareToken .rParen], _, by simpa using Derives.group ho he rfl⟩
    · exact Parsed.meets_refuse (viable_nil _)

theorem qualified_meets : (qualified ts).Meets ts
    (fun w e rest => Derives .chain w e ∨
      (Derives .access w e ∧ headKind rest ∉ Phrase.access.stops)) Phrase.access.Viable := by
  rw [qualified]
  refine Parsed.meets_andThen (primary_reads ih) ?_ ?_
  · rintro w ⟨x, e, h⟩
    exact ⟨x, e, .chained (.base h)⟩
  · rintro l w rest hr _ ⟨hl, _⟩
    split
    · exact Parsed.meets_stay (Or.inl (by simpa using Derives.base hl))
    · rename_i front hf
      obtain ⟨hts, ho⟩ := accept?_eq_some hf
      have ho : front.token.kind = .scopeResolution := by simpa using ho
      refine Parsed.meets_loose.2 (Front.meets_chain hts (Parsed.meets_map ?_))
      refine (ih _ (Nat.lt_trans front.shorter hr)).access.mono ?_ ?_
      · rintro v r rest' ⟨h, hs⟩
        exact Or.inr ⟨.qualified hl ho h, hs⟩
      · rintro v ⟨x, r, h⟩
        exact ⟨x, _, by simpa using Derives.qualified hl ho h⟩

theorem arrayLiteral_meets : (arrayLiteral ts).Meets ts
    (fun w e rest => Derives .chain w e ∨
      (Derives .access w e ∧ headKind rest ∉ Phrase.access.stops)) Phrase.access.Viable := by
  rw [arrayLiteral]
  split
  · exact qualified_meets ih
  · rename_i front hf
    obtain ⟨hts, ho⟩ := accept?_eq_some hf
    have ho : front.token.kind = .lBracket := by simpa using ho
    refine Front.meets_chain hts (Parsed.meets_map ?_)
    refine ((ih _ front.shorter).listUntil .rBracket).mono ?_ ?_
    · rintro w es rest ⟨v, c, rfl, hc, h⟩
      exact Or.inl (.arrayLiteral ho h hc)
    · rintro w ⟨x, es, h⟩
      exact ⟨x ++ [bareToken .rBracket], _,
        by simpa using Derives.chained (Derives.arrayLiteral ho h rfl)⟩

theorem access_reads : Phrase.access.Reads [] ts (access ts) := by
  rw [access]
  refine Parsed.meets_andThen (arrayLiteral_meets ih) (fun _ h => h) ?_
  intro base w rest hr _ hb
  rcases hb with hb | ⟨hb, hs⟩
  · exact (ih rest hr).accessTail hb
  · have hb : Derives .access (w ++ []) base := by simpa using hb
    exact Parsed.meets_of_gives (accessTail_stay hs) (List.nil_append _).symm ⟨hb, hs⟩

theorem accessTail_reads {base : Expr} {w : List Token} (hb : Derives .chain w base) :
    Phrase.access.Reads w ts (accessTail base ts) := by
  have hv : Phrase.access.Viable w := (Derives.chained hb).viable
  rw [accessTail]
  split
  · rename_i hf
    rw [front?_eq_none hf]
    exact Parsed.meets_stay ⟨by simpa using Derives.chained hb, by decide⟩
  · rename_i front hf
    have hts := front?_eq_some hf
    split
    · rename_i ho
      split
      · rename_i name
        obtain ⟨t, rfl, ht, rfl⟩ := hb.chain_identifier
        refine Parsed.meets_loose.2 (Front.meets_chain hts ?_)
        refine Parsed.meets_andThen ((ih _ front.shorter).listUntil .rParen) ?_ ?_
        · rintro v ⟨x, es, h⟩
          exact ⟨x ++ [bareToken .rParen], _,
            by simpa using Derives.chained (Derives.call ht ho h rfl)⟩
        · rintro es _ rest hr _ ⟨v, c, rfl, hc, h⟩
          have hl := Nat.lt_trans hr front.shorter
          exact ((ih rest hl).accessTail (.call ht ho h hc)).regroup (by simp)
      · exact Parsed.meets_loose.2 (Parsed.meets_refuse (by simpa using hv))
    · rename_i ho
      refine Parsed.meets_loose.2 (Front.meets_chain hts ?_)
      refine Parsed.meets_chain (ih _ front.shorter).assignment ?_ ?_
      · rintro v ⟨x, i, h⟩
        exact ⟨x ++ [bareToken .rBracket], _,
          by simpa using Derives.chained (Derives.index hb ho h rfl)⟩
      · rintro i v rest hr _ ⟨hi, _⟩
        refine Parsed.meets_andThen (expect_takes .rBracket rest) ?_ ?_
        · rintro _ rfl
          exact ⟨[bareToken .rBracket], _,
            by simpa using Derives.chained (Derives.index hb ho hi rfl)⟩
        · rintro c _ rest' hr' _ ⟨rfl, hc⟩
          have hl := Nat.lt_trans hr' (Nat.lt_trans hr front.shorter)
          exact ((ih rest' hl).accessTail (.index hb ho hi hc)).regroup (by simp)
    · rename_i ho
      refine Parsed.meets_loose.2 (Front.meets_chain hts (Parsed.meets_map ?_))
      refine (ih _ front.shorter).access.mono ?_ ?_
      · rintro v r rest ⟨h, hs⟩
        exact ⟨.member hb ho h, hs⟩
      · rintro v ⟨x, r, h⟩
        exact ⟨x, _, by simpa using Derives.member hb ho h⟩
    · rename_i ho
      refine Parsed.meets_loose.2 (Front.meets_chain hts (Parsed.meets_map ?_))
      refine (ih _ front.shorter).access.mono ?_ ?_
      · rintro v r rest ⟨h, hs⟩
        exact ⟨.arrow hb ho h, hs⟩
      · rintro v ⟨x, r, h⟩
        exact ⟨x, _, by simpa using Derives.arrow hb ho h⟩
    · refine Parsed.meets_stay ⟨by simpa using Derives.chained hb, ?_⟩
      rw [headKind_eq_of_front? hf]
      simp_all [Phrase.stops, Precedence.operators]

theorem unary_reads : Phrase.unary.Reads [] ts (unary ts) := by
  have hn : ∀ rest, headKind rest ∉ Phrase.unary.stops := by simp [Phrase.stops]
  rw [unary]
  split
  · refine (access_reads ih).mono ?_ ?_
    · rintro w e rest ⟨h, _⟩
      exact ⟨.unmarked h, hn _⟩
    · rintro w ⟨x, e, h⟩
      exact ⟨x, e, .unmarked h⟩
  · rename_i front hf
    obtain ⟨hts, hk⟩ := accept?_eq_some hf
    have ih' := ih _ front.shorter
    refine Front.meets_chain hts ?_
    split
    · rename_i ho
      refine Parsed.meets_map (ih'.access.mono ?_ ?_)
      · rintro w e rest ⟨h, _⟩
        exact ⟨.addressOf ho h, hn _⟩
      · rintro w ⟨x, e, h⟩
        exact ⟨x, _, .addressOf ho h⟩
    · rename_i ho
      refine Parsed.meets_map (ih'.access.mono ?_ ?_)
      · rintro w e rest ⟨h, _⟩
        exact ⟨.dereference ho h, hn _⟩
      · rintro w ⟨x, e, h⟩
        exact ⟨x, _, .dereference ho h⟩
    · rename_i ho
      refine Parsed.meets_map (ih'.typeExpr.mono ?_ ?_)
      · rintro w t rest ⟨h, _⟩
        exact ⟨.new ho h, hn _⟩
      · rintro w ⟨x, t, h⟩
        exact ⟨x, _, .new ho h⟩
    · have ho : front.token.kind = .bang ∨ front.token.kind = .minus := by
        simp_all [Precedence.operators]
      refine Parsed.meets_map (ih'.unary.mono ?_ ?_)
      · rintro w e rest ⟨h, _⟩
        exact ⟨.marked ho h, hn _⟩
      · rintro w ⟨x, e, h⟩
        exact ⟨x, _, .marked ho h⟩

theorem castTail_reads {operand : Expr} {w : List Token} (hc : Derives .cast w operand) :
    Phrase.cast.Reads w ts (castTail operand ts) := by
  rw [castTail]
  split
  · rename_i hf
    refine Parsed.meets_stay ⟨by simpa using hc, fun hm => ?_⟩
    rw [headKind_of_accept?_eq_none hf hm] at hm
    simp [Phrase.stops] at hm
  · rename_i front hf
    obtain ⟨hts, ho⟩ := accept?_eq_some hf
    have ho : front.token.kind = .kwAs := by simpa [Precedence.operators] using ho
    refine Parsed.meets_loose.2 (Front.meets_chain hts ?_)
    refine Parsed.meets_andThen (ih _ front.shorter).typeExpr ?_ ?_
    · rintro v ⟨x, t, h⟩
      exact ⟨x, _, by simpa using Derives.castTo hc ho h⟩
    · rintro t v rest hr _ ⟨ht, _⟩
      have hl := Nat.lt_trans hr front.shorter
      exact ((ih rest hl).castTail (.castTo hc ho ht)).regroup (by simp)

theorem cast_reads : Phrase.cast.Reads [] ts (cast ts) := by
  rw [cast]
  refine Parsed.meets_andThen (unary_reads ih) ?_ ?_
  · rintro w ⟨x, e, h⟩
    exact ⟨x, e, .uncast h⟩
  · rintro e w rest hr _ ⟨h, _⟩
    exact (ih rest hr).castTail (.uncast h)

theorem binaryTail_reads {level : Precedence} {levels : List Precedence} {left : Expr}
    {w : List Token} (hl : Derives (.binaryOf (level :: levels)) w left)
    (hs : headKind ts ∉ (Phrase.binaryOf levels).stops) :
    (Phrase.binaryOf (level :: levels)).Reads w ts (binaryTail level levels left ts) := by
  rw [binaryTail]
  split
  · rename_i hf
    refine Parsed.meets_stay ⟨by simpa using hl, fun hm => ?_⟩
    rw [Phrase.stops, List.map_cons, List.flatten_cons, List.append_assoc, List.mem_append] at hm
    rcases hm with hm | hm
    · rw [headKind_of_accept?_eq_none hf hm] at hm
      exact absurd hm (by cases level <;> decide)
    · exact hs hm
  · rename_i front hf
    obtain ⟨hts, ho⟩ := accept?_eq_some hf
    refine Parsed.meets_loose.2 (Front.meets_chain hts ?_)
    refine Parsed.meets_andThen ((ih _ front.shorter).binary levels) ?_ ?_
    · rintro v ⟨x, r, h⟩
      refine ⟨x, .binary front.token.kind left r, ?_⟩
      rw [List.append_assoc]
      exact .operate hl ho h
    · rintro r v rest hr _ ⟨h, hs'⟩
      have hl' := Nat.lt_trans hr front.shorter
      exact ((ih rest hl').binaryTail (.operate hl ho h) hs').regroup (by simp)

theorem binary_reads (levels : List Precedence) :
    (Phrase.binaryOf levels).Reads [] ts (binary levels ts) := by
  induction levels with
  | nil =>
    rw [binary]
    refine (cast_reads ih).mono ?_ ?_
    · rintro w e rest ⟨h, hs⟩
      exact ⟨.casted h, hs⟩
    · rintro w ⟨x, e, h⟩
      exact ⟨x, e, .casted h⟩
  | cons level levels ihl =>
    rw [binary]
    refine Parsed.meets_andThen ihl ?_ ?_
    · rintro w ⟨x, e, h⟩
      exact ⟨x, e, .tighter h⟩
    · rintro e w rest hr _ ⟨h, hs⟩
      exact (ih rest hr).binaryTail (.tighter h) hs

theorem assignment_reads : Phrase.assignment.Reads [] ts (assignment ts) := by
  rw [assignment]
  refine Parsed.meets_andThen (binary_reads ih Precedence.binaryLevels) ?_ ?_
  · rintro w ⟨x, e, h⟩
    exact ⟨x, e, .operand h⟩
  · rintro l w rest hr _ ⟨hl, hs⟩
    split
    · rename_i hf
      refine Parsed.meets_stay ⟨by simpa using Derives.operand hl, fun hm => ?_⟩
      rcases List.mem_append.1 hm with hm | hm
      · rw [headKind_of_accept?_eq_none hf hm] at hm
        exact absurd hm (by decide)
      · exact hs hm
    · rename_i front hf
      obtain ⟨hts, ho⟩ := accept?_eq_some hf
      refine Parsed.meets_loose.2 (Front.meets_chain hts (Parsed.meets_map ?_))
      refine (ih _ (Nat.lt_trans front.shorter hr)).assignment.mono ?_ ?_
      · rintro v r rest' ⟨h, hs'⟩
        exact ⟨.assign hl ho h, hs'⟩
      · rintro v ⟨x, r, h⟩
        exact ⟨x, _, by simpa using Derives.assign hl ho h⟩

theorem elements_reads : Phrase.elements.Reads [] ts (elements ts) := by
  have hn : ∀ rest, headKind rest ∉ Phrase.elements.stops := by simp [Phrase.stops]
  rw [elements]
  refine Parsed.meets_andThen (assignment_reads ih) ?_ ?_
  · rintro w ⟨x, e, h⟩
    exact ⟨x, [e], .last h⟩
  · rintro e w rest hr _ ⟨he, _⟩
    split
    · exact Parsed.meets_stay ⟨by simpa using Derives.last he, hn _⟩
    · rename_i front hf
      obtain ⟨hts, ho⟩ := accept?_eq_some hf
      have ho : front.token.kind = .comma := by simpa using ho
      refine Parsed.meets_loose.2 (Front.meets_chain hts (Parsed.meets_map ?_))
      refine (ih _ (Nat.lt_trans front.shorter hr)).elements.mono ?_ ?_
      · rintro v es rest' ⟨h, _⟩
        exact ⟨.more he ho h, hn _⟩
      · rintro v ⟨x, es, h⟩
        exact ⟨x, _, by simpa using Derives.more he ho h⟩

theorem listUntil_meets (close : TokenKind) : (listUntil close ts).Meets ts
    (fun w es _ => ∃ v c, w = v ++ [c] ∧ c.kind = close ∧ Derives .list v es)
    Phrase.list.Viable := by
  rw [listUntil]
  split
  · rename_i front hf
    obtain ⟨hts, hc⟩ := accept?_eq_some hf
    exact Parsed.meets_give hts ⟨[], front.token, rfl, by simpa using hc, .none⟩
  · refine Parsed.meets_chain (elements_reads ih) ?_ ?_
    · rintro w ⟨x, es, h⟩
      exact ⟨x, es, .some h⟩
    · rintro es w rest _ _ ⟨h, _⟩
      refine Parsed.meets_map (expect_meets ?_ ?_)
      · intro c _ hc
        exact ⟨w, c, rfl, hc, .some h⟩
      · exact ⟨[], es, by simpa using Derives.some h⟩

end

/-! ### Types -/

theorem path_meets (ts : List Token) : (path ts).Meets ts (fun w p _ => Names w p.1 p.2)
    (fun w => ∃ v head tail, Names (w ++ v) head tail) := by
  fun_induction path ts with
  | case1 ts ih =>
    refine Parsed.meets_andThen (expect_takes .identifier ts) ?_ ?_
    · rintro _ rfl
      exact ⟨[bareToken .identifier], _, _, .one rfl⟩
    · rintro t _ rest hr _ ⟨rfl, ht⟩
      split
      · exact Parsed.meets_stay (.one ht)
      · rename_i front hf
        obtain ⟨hts, ho⟩ := accept?_eq_some hf
        have ho : front.token.kind = .scopeResolution := by simpa using ho
        refine Parsed.meets_loose.2 (Front.meets_chain hts (Parsed.meets_map ?_))
        refine (ih rest hr front.rest front.shorter).mono ?_ ?_
        · intro w p _ h
          exact .more ht ho h
        · rintro w ⟨v, head, tail, h⟩
          exact ⟨v, _, _, .more ht ho h⟩

section

variable {ts : List Token} (ih : ∀ us, us.length < ts.length → Sound us)
include ih

theorem pointerType_reads : Phrase.typeExpr.Reads [] ts (pointerType ts) := by
  have hn : ∀ rest, headKind rest ∉ Phrase.typeExpr.stops := by simp [Phrase.stops]
  rw [pointerType]
  split
  · refine Parsed.meets_map ((path_meets ts).mono ?_ ?_)
    · intro w p rest h
      exact ⟨.named h, hn _⟩
    · rintro w ⟨v, head, tail, h⟩
      exact ⟨v, _, .named h⟩
  · rename_i front hf
    obtain ⟨hts, ho⟩ := accept?_eq_some hf
    have ho : front.token.kind = .caret := by simpa using ho
    refine Front.meets_chain hts (Parsed.meets_map ?_)
    refine (ih _ front.shorter).typeExpr.mono ?_ ?_
    · rintro w t rest ⟨h, _⟩
      exact ⟨.pointer ho h, hn _⟩
    · rintro w ⟨x, t, h⟩
      exact ⟨x, _, .pointer ho h⟩

theorem typeExpr_reads : Phrase.typeExpr.Reads [] ts (typeExpr ts) := by
  have hn : ∀ rest, headKind rest ∉ Phrase.typeExpr.stops := by simp [Phrase.stops]
  rw [typeExpr]
  split
  · exact pointerType_reads ih
  · rename_i front hf
    obtain ⟨hts, ho⟩ := accept?_eq_some hf
    have ho : front.token.kind = .lBracket := by simpa using ho
    refine Front.meets_chain hts (Parsed.meets_chain (ih _ front.shorter).typeExpr ?_ ?_)
    · rintro w ⟨x, t, h⟩
      exact ⟨x ++ [bareToken .rBracket], _, by simpa using Derives.array ho h rfl⟩
    · rintro t w rest hr _ ⟨ht, _⟩
      split
      · refine Parsed.meets_map (expect_meets ?_ ?_)
        · intro c _ hc
          exact ⟨.array ho ht hc, hn _⟩
        · exact ⟨[bareToken .rBracket], _, by simpa using Derives.array ho ht rfl⟩
      · rename_i comma hf
        obtain ⟨hrest, hs⟩ := accept?_eq_some hf
        have hs : comma.token.kind = .comma := by simpa using hs
        have hl := Nat.lt_trans comma.shorter (Nat.lt_trans hr front.shorter)
        refine Front.meets_chain hrest (Parsed.meets_chain (ih _ hl).assignment ?_ ?_)
        · rintro v ⟨x, e, h⟩
          exact ⟨x ++ [bareToken .rBracket], _,
            by simpa using Derives.sizedArray ho ht hs h rfl⟩
        · rintro e v rest' _ _ ⟨he, _⟩
          refine Parsed.meets_map (expect_meets ?_ ?_)
          · intro c _ hc
            exact ⟨by simpa using Derives.sizedArray ho ht hs he hc, hn _⟩
          · exact ⟨[bareToken .rBracket], _,
              by simpa using Derives.sizedArray ho ht hs he rfl⟩

end

/-! ### Every reader -/

/-- What is read is derived, and what fails can still be completed. -/
theorem sound (ts : List Token) : Sound ts := by
  induction ts using tokens_induction with
  | step ts ih =>
    exact {
      assignment := assignment_reads ih
      binary := binary_reads ih
      binaryTail := binaryTail_reads ih
      castTail := castTail_reads ih
      unary := unary_reads ih
      access := access_reads ih
      accessTail := accessTail_reads ih
      listUntil := listUntil_meets ih
      elements := elements_reads ih
      typeExpr := typeExpr_reads ih }

end FrontEnd.Grammar
