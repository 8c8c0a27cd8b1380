import FrontEnd.Proofs.Clause.Completeness
import FrontEnd.Proofs.Phrase.Soundness

/-!
What is read as a statement is derived by the grammar. Without a fault, the tokens that were taken
write the tree that was read. With faults, some tokens write it all the same, so recovery leaves
nothing in a tree that the grammar does not allow.
-/

set_option autoImplicit false

namespace FrontEnd.Grammar

/-! ### Parts of statements -/

theorem assignment_meets (ts : List Token) :
    (assignment ts).Meets ts (fun w e _ => Derives .assignment w e) Plain :=
  (sound ts).assignment.mono (fun _ _ _ h => h.1) fun _ h => h.plain trivial

theorem typeExpr_meets (ts : List Token) :
    (typeExpr ts).Meets ts (fun w t _ => Derives .typeExpr w t) Plain :=
  (sound ts).typeExpr.mono (fun _ _ _ h => h.1) fun _ h => h.plain trivial

theorem access_meets (ts : List Token) :
    (access ts).Meets ts (fun w e _ => Derives .access w e) Plain :=
  (sound ts).access.mono (fun _ _ _ h => h.1) fun _ h => h.plain trivial

theorem expect_plain (kind : TokenKind) (ts : List Token) :
    (expect kind ts).Meets ts (fun w t _ => w = [t] ∧ t.kind = kind) Plain :=
  (expect_takes kind ts).mono (fun _ _ _ h => h) fun _ h => h ▸ plain_nil

theorem terminated_meets {α : Type} {n : Nat} {p : Parsed α n} {ts : List Token}
    {g good : List Token → α → Prop} (hp : p.Meets ts (fun w value _ => g w value) Plain)
    (hg : ∀ w value, g w value → Plain w)
    (h : ∀ w value s, g w value → s.kind = .semicolon → good (w ++ [s]) value) :
    (terminated p).Meets ts (fun w value _ => good w value) Plain := by
  refine Parsed.meets_chain hp (fun _ h => h) ?_
  intro value w rest _ _ hw
  refine Parsed.meets_map (expect_meets ?_ ?_)
  · intro s rest hs
    exact h w value s hw hs
  · simpa using hg w value hw

theorem typed_meets (ts : List Token) :
    (typed ts).Meets ts (fun w v _ => Typed w v.1 v.2) Plain := by
  refine Parsed.meets_chain (expect_plain .identifier ts) (fun _ h => h) ?_
  rintro n _ rest _ _ ⟨rfl, hn⟩
  refine Parsed.meets_chain (expect_takes .colon rest) ?_ ?_
  · rintro _ rfl
    simp [hn, outerKinds]
  · rintro c _ rest _ _ ⟨rfl, hc⟩
    refine Parsed.meets_map ((typeExpr_meets rest).mono ?_ ?_)
    · intro w t _ ht
      exact .mk hn hc ht
    · intro w hw
      simp [hn, hc, hw, outerKinds]

theorem initializer_meets (ts : List Token) :
    (initializer ts).Meets ts (fun w i _ => Initializer w i) Plain := by
  rw [initializer]
  split
  · exact Parsed.meets_stay .absent
  · rename_i front hf
    obtain ⟨hts, ho⟩ := accept?_eq_some hf
    have ho : front.token.kind = .equals := by simpa using ho
    refine Parsed.meets_loose.2 (Front.meets_chain hts (Parsed.meets_map ?_))
    refine (assignment_meets front.rest).mono ?_ ?_
    · intro w e _ he
      exact .present ho he
    · intro w hw
      simp [ho, hw, outerKinds]

theorem fields_meets (ts : List Token) :
    (fields ts).Meets ts (fun w fs _ => ∃ v c, w = v ++ [c] ∧ Fields v fs ∧ c.kind = .rBrace)
      Plain := by
  rw [fields]
  split
  · rename_i front hf
    obtain ⟨hts, hc⟩ := accept?_eq_some hf
    exact Parsed.meets_give hts ⟨[], front.token, rfl, .nil, by simpa using hc⟩
  · split
    · exact Parsed.meets_refuse plain_nil
    · have hp : (terminated (typed ts)).Meets ts (fun w v _ => ∃ u s, w = u ++ [s] ∧
          Typed u v.1 v.2 ∧ s.kind = .semicolon) Plain :=
        terminated_meets (typed_meets ts) (fun _ _ h => h.plain)
          fun w v s h hs => ⟨w, s, rfl, h, hs⟩
      refine Parsed.meets_chain hp (fun _ h => h) ?_
      rintro ⟨name, type⟩ _ rest hr _ ⟨u, s, rfl, hu, hs⟩
      refine Parsed.meets_map ((fields_meets rest).mono ?_ ?_)
      · rintro _ fs _ ⟨v, c, rfl, hv, hc⟩
        exact ⟨u ++ s :: v, c, by simp, .cons hu hs hv, hc⟩
      · intro v hv
        simp [hu.plain, hs, hv, outerKinds]
termination_by ts.length

theorem memberNumber_meets (ts : List Token) :
    (memberNumber ts).Meets ts
      (fun w value _ => ∃ i, w = [i] ∧ i.kind = .integer ∧ Number.int64? i.value = some value)
      Plain := by
  have h := expect_takes .integer ts
  unfold memberNumber
  cases he : expect .integer ts with
  | failed failure rest within =>
    obtain ⟨w, hts, rfl⟩ := he ▸ h
    exact ⟨[], hts, plain_nil⟩
  | done t rest shorter =>
    obtain ⟨_, hts, rfl, ht⟩ := he ▸ h
    dsimp only
    split
    · rename_i value hv
      exact ⟨[t], hts, t, rfl, ht, hv⟩
    · exact ⟨[t], hts, by simp [ht, outerKinds]⟩

theorem memberValue_meets (next : Int64) {n : Token} (hn : n.kind = .identifier)
    (ts : List Token) :
    (memberValue next ts).Meets ts (fun w value _ => Member next (n :: w) ⟨n.value, value⟩)
      Plain := by
  rw [memberValue]
  split
  · exact Parsed.meets_stay (.counted hn)
  · rename_i front hf
    obtain ⟨hts, ho⟩ := accept?_eq_some hf
    have ho : front.token.kind = .equals := by simpa using ho
    refine Parsed.meets_loose.2 (Front.meets_chain hts ?_)
    refine (memberNumber_meets front.rest).mono ?_ ?_
    · rintro _ value _ ⟨i, rfl, hi, hv⟩
      exact .valued hn ho hi hv
    · intro w hw
      simp [ho, hw, outerKinds]

theorem members_meets (next : Int64) (ts : List Token) :
    (members next ts).Meets ts (fun w ms _ => Members next w ms) Plain := by
  rw [members]
  split
  · exact Parsed.meets_stay .nil
  · refine Parsed.meets_loose.2 (Parsed.meets_andThen (expect_plain .identifier ts)
      (fun _ h => h) ?_)
    rintro n _ rest hr _ ⟨rfl, hn⟩
    refine Parsed.meets_andThen (memberValue_meets next hn rest) ?_ ?_
    · intro w hw
      simp [hn, hw, outerKinds]
    · intro value w rest' hr' _ hm
      split
      · exact Parsed.meets_stay (.last (by simpa using hm))
      · rename_i front hf
        obtain ⟨hts, ho⟩ := accept?_eq_some hf
        have ho : front.token.kind = .comma := by simpa using ho
        have hlt : front.rest.length < ts.length := by have := front.shorter; omega
        refine Parsed.meets_loose.2 (Front.meets_andThen hts (Parsed.meets_map ?_))
        refine (members_meets (value + 1) front.rest).mono ?_ ?_
        · intro v ms _ hv
          exact .more hm ho hv
        · intro v hv
          have hp := hm.plain
          simp_all [outerKinds]
termination_by ts.length

theorem localName_meets (ts : List Token) :
    (localName ts).Meets ts (fun w a _ => LocalName w a) Plain := by
  rw [localName]
  split
  · exact Parsed.meets_stay .absent
  · rename_i front hf
    obtain ⟨hts, hk⟩ := accept?_eq_some hf
    have hk : front.token.kind = .kwAs := by simpa using hk
    refine Parsed.meets_loose.2 (Front.meets_chain hts (Parsed.meets_map (expect_meets ?_ ?_)))
    · intro n _ hn
      exact .present hk hn
    · simp [hk, outerKinds]

theorem operations_meets (ts : List Token) :
    (operations ts).Meets ts
      (fun w texts _ => ∃ v c, w = v ++ [c] ∧ (∀ t ∈ v, t.kind = .string) ∧
        texts = v.map (·.value) ∧ c.kind = .rBrace) Plain := by
  rw [operations]
  split
  · rename_i front hf
    obtain ⟨hts, ht⟩ := accept?_eq_some hf
    have ht : front.token.kind = .string := by simpa using ht
    have hlt := front.shorter
    refine Front.meets_chain hts (Parsed.meets_map ((operations_meets front.rest).mono ?_ ?_))
    · rintro _ _ _ ⟨v, c, rfl, hv, rfl, hc⟩
      exact ⟨front.token :: v, c, rfl, List.forall_mem_cons.2 ⟨ht, hv⟩, rfl, hc⟩
    · intro w hw
      simp [ht, hw, outerKinds]
  · refine Parsed.meets_map (expect_meets ?_ plain_nil)
    intro c _ hc
    exact ⟨[], c, rfl, by simp, rfl, hc⟩
termination_by ts.length

/-! ### Signatures -/

theorem variableMark_meets {n c : Token} (hn : n.kind = .identifier) (hc : c.kind = .colon)
    (ts : List Token) :
    (variableMark ts).Meets ts (fun w mark _ => Plain w ∧ ∀ v t, Derives .typeExpr v t →
      Parameter (n :: c :: (w ++ v)) ⟨n.value, !mark, t⟩) Plain := by
  rw [variableMark]
  split
  · exact Parsed.meets_stay ⟨plain_nil, fun v t ht => .constant hn hc ht⟩
  · rename_i front hf
    obtain ⟨hts, hk⟩ := accept?_eq_some hf
    have hk : front.token.kind = .kwVar := by simpa using hk
    exact Parsed.meets_loose.2 (Parsed.meets_give hts
      ⟨by simp [hk, outerKinds], fun v t ht => .marked hn hc hk ht⟩)

theorem param_meets (ts : List Token) :
    (param ts).Meets ts (fun w p _ => Parameter w p) Plain := by
  refine Parsed.meets_chain (expect_plain .identifier ts) (fun _ h => h) ?_
  rintro n _ rest _ _ ⟨rfl, hn⟩
  refine Parsed.meets_andThen (expect_takes .colon rest) ?_ ?_
  · rintro _ rfl
    simp [hn, outerKinds]
  · rintro c _ rest _ _ ⟨rfl, hc⟩
    refine Parsed.meets_chain (variableMark_meets hn hc rest) ?_ ?_
    · intro w hw
      simp [hn, hc, hw, outerKinds]
    · rintro mark w rest _ _ ⟨hw, hp⟩
      refine Parsed.meets_map ((typeExpr_meets rest).mono ?_ ?_)
      · intro v t _ ht
        exact hp v t ht
      · intro v hv
        simp [hn, hc, hw, hv, outerKinds]

theorem params_meets (ts : List Token) :
    (params ts).Meets ts (fun w ps _ => Parameters w ps) Plain := by
  rw [params]
  refine Parsed.meets_andThen (param_meets ts) (fun _ h => h) ?_
  intro p w rest hr _ hp
  split
  · exact Parsed.meets_stay (.last (by simpa using hp))
  · rename_i front hf
    obtain ⟨hts, ho⟩ := accept?_eq_some hf
    have ho : front.token.kind = .comma := by simpa using ho
    have hlt : front.rest.length < ts.length := Nat.lt_trans front.shorter hr
    refine Parsed.meets_loose.2 (Front.meets_chain hts (Parsed.meets_map ?_))
    refine (params_meets front.rest).mono ?_ ?_
    · intro v ps _ hv
      exact .more hp ho hv
    · intro v hv
      simp [hp.plain, ho, hv, outerKinds]
termination_by ts.length

theorem paramList_meets (ts : List Token) :
    (paramList ts).Meets ts
      (fun w ps _ => ∃ v c, w = v ++ [c] ∧ ParameterList v ps ∧ c.kind = .rParen) Plain := by
  rw [paramList]
  split
  · rename_i front hf
    obtain ⟨hts, hc⟩ := accept?_eq_some hf
    exact Parsed.meets_give hts ⟨[], front.token, rfl, .nil, by simpa using hc⟩
  · refine Parsed.meets_chain (params_meets ts) (fun _ h => h) ?_
    intro ps w rest _ _ hw
    refine Parsed.meets_map (expect_meets ?_ ?_)
    · intro c _ hc
      exact ⟨w, c, rfl, .some hw, hc⟩
    · simpa using hw.plain

theorem resultType_meets (ts : List Token) :
    (resultType ts).Meets ts (fun w t _ => ResultType w t) Plain := by
  rw [resultType]
  split
  · exact Parsed.meets_stay .void
  · rename_i front hf
    obtain ⟨hts, ho⟩ := accept?_eq_some hf
    have ho : front.token.kind = .arrow := by simpa using ho
    refine Parsed.meets_loose.2 (Front.meets_chain hts ((typeExpr_meets front.rest).mono ?_ ?_))
    · intro w t _ ht
      exact .some ho ht
    · intro w hw
      simp [ho, hw, outerKinds]

theorem ownedName_meets (ts : List Token) :
    (ownedName ts).Meets ts (fun w v _ => OwnedName w v.1 v.2) Plain := by
  refine Parsed.meets_andThen (expect_plain .identifier ts) (fun _ h => h) ?_
  rintro n _ rest _ _ ⟨rfl, hn⟩
  split
  · exact Parsed.meets_stay (.free hn)
  · rename_i front hf
    obtain ⟨hts, ho⟩ := accept?_eq_some hf
    have ho : front.token.kind = .scopeResolution := by simpa using ho
    refine Parsed.meets_loose.2 (Front.meets_chain hts (Parsed.meets_map (expect_meets ?_ ?_)))
    · intro m _ hm
      exact .owned hn ho hm
    · simp [hn, ho, outerKinds]

/-- A function up to its body. -/
theorem signature_meets {k : Token} (hk : k.kind = .kwFunc) (ts : List Token) :
    (signature ts).Meets ts (fun w declaration _ => Plain w ∧ ∀ v body, Forms .block v body →
      Forms .statement (k :: (w ++ v)) (declaration body)) Plain := by
  refine Parsed.meets_chain (ownedName_meets ts) (fun _ h => h) ?_
  rintro ⟨owner, name⟩ w rest _ _ hw
  refine Parsed.meets_chain (expect_takes .lParen rest) ?_ ?_
  · rintro _ rfl
    simpa using hw.plain
  · rintro o _ rest _ _ ⟨rfl, ho⟩
    refine Parsed.meets_andThen (paramList_meets rest) ?_ ?_
    · intro v hv
      simp [hw.plain, ho, hv, outerKinds]
    · rintro ps _ rest _ _ ⟨v, c, rfl, hv, hc⟩
      refine Parsed.meets_map ((resultType_meets rest).mono ?_ ?_)
      · intro x t _ hx
        refine ⟨by simp [hw.plain, ho, hv.plain, hc, hx.plain, outerKinds], ?_⟩
        intro y body hy
        simpa using Forms.functionDecl hk hw ho hv hc hx hy
      · intro x hx
        simp [hw.plain, ho, hv.plain, hc, hx, outerKinds]

/-! ### Statements without blocks -/

/-- Tokens up to a brace that opens a body, and tokens of the body. -/
def Opened (w : List Token) : Prop :=
  ∃ v o u, w = v ++ o :: u ∧ Plain v ∧ o.kind = .lBrace ∧ Plain u

theorem record_meets {make : String → List Field → Stmt} {good : List Token → Stmt → Prop}
    (h : ∀ {n o c w fs}, n.kind = .identifier → o.kind = .lBrace → Fields w fs →
      c.kind = .rBrace → good (n :: o :: (w ++ [c])) (make n.value fs)) (ts : List Token) :
    (record make ts).Meets ts (fun w s _ => good w s) fun w => Plain w ∨ Opened w := by
  refine Parsed.meets_chain (expect_plain .identifier ts) (fun _ h => .inl h) ?_
  rintro n _ rest _ _ ⟨rfl, hn⟩
  have hp : Plain [n] := by simp [hn, outerKinds]
  refine Parsed.meets_chain (expect_takes .lBrace rest) ?_ ?_
  · rintro _ rfl
    exact .inl hp
  · rintro o _ rest _ _ ⟨rfl, ho⟩
    refine Parsed.meets_map ((fields_meets rest).mono ?_ ?_)
    · rintro _ fs _ ⟨v, c, rfl, hv, hc⟩
      exact h hn ho hv hc
    · intro w hw
      exact .inr ⟨[n], o, w, rfl, hp, ho, hw⟩

theorem enumDecl_meets {k : Token} (hk : k.kind = .kwEnum) (ts : List Token) :
    (enumDecl ts).Meets ts (fun w s _ => Forms .statement (k :: w) s)
      fun w => Plain w ∨ Opened w := by
  refine Parsed.meets_chain (expect_plain .identifier ts) (fun _ h => .inl h) ?_
  rintro n _ rest _ _ ⟨rfl, hn⟩
  have hp : Plain [n] := by simp [hn, outerKinds]
  refine Parsed.meets_andThen (expect_takes .lBrace rest) ?_ ?_
  · rintro _ rfl
    exact .inl hp
  · rintro o _ rest _ _ ⟨rfl, ho⟩
    refine Parsed.meets_chain (members_meets 0 rest) ?_ ?_
    · intro w hw
      exact .inr ⟨[n], o, w, rfl, hp, ho, hw⟩
    · intro ms w rest _ _ hw
      refine Parsed.meets_map (expect_meets ?_ ?_)
      · intro c _ hc
        exact .enumDecl hk hn ho hw hc
      · exact .inr ⟨[n], o, w, by simp, hp, ho, hw.plain⟩

theorem assembly_meets {k : Token} (hk : k.kind = .kwAsm) (ts : List Token) :
    (assembly ts).Meets ts (fun w s _ => Forms .statement (k :: w) s)
      fun w => Plain w ∨ Opened w := by
  refine Parsed.meets_chain (expect_plain .lBrace ts) (fun _ h => .inl h) ?_
  rintro o _ rest _ _ ⟨rfl, ho⟩
  refine Parsed.meets_map ((operations_meets rest).mono ?_ ?_)
  · rintro _ _ _ ⟨v, c, rfl, hv, rfl, hc⟩
    exact .assembly hk ho hv hc
  · intro w hw
    exact .inr ⟨[], o, w, rfl, plain_nil, ho, hw⟩

theorem variableDecl_meets {k : Token} {constant : Bool}
    (hk : k.kind = if constant then .kwLet else .kwVar) (ts : List Token) :
    (variableDecl constant ts).Meets ts (fun w s _ => Forms .statement (k :: w) s) Plain := by
  refine terminated_meets (g := fun w s => ∃ u v name t i,
    w = u ++ v ∧ Typed u name t ∧ Initializer v i ∧ s = .variableDecl constant name t i) ?_ ?_ ?_
  · refine Parsed.meets_andThen (typed_meets ts) (fun _ h => h) ?_
    rintro ⟨name, t⟩ u rest _ _ hu
    refine Parsed.meets_map ((initializer_meets rest).mono ?_ ?_)
    · intro v i _ hv
      exact ⟨u, v, name, t, i, rfl, hu, hv, rfl⟩
    · intro v hv
      exact plain_append.2 ⟨hu.plain, hv⟩
  · rintro _ _ ⟨u, v, name, t, i, rfl, hu, hv, rfl⟩
    exact plain_append.2 ⟨hu.plain, hv.plain⟩
  · rintro _ _ s ⟨u, v, name, t, i, rfl, hu, hv, rfl⟩ hs
    simpa using Forms.variableDecl hk hu hv hs

theorem usingDecl_meets {k : Token} (hk : k.kind = .kwUsing) (ts : List Token) :
    (usingDecl ts).Meets ts (fun w s _ => Forms .statement (k :: w) s) Plain := by
  refine terminated_meets (g := fun w s => ∃ n v a, w = n :: v ∧ n.kind = .identifier ∧
    LocalName v a ∧ s = .usingDecl n.value a) ?_ ?_ ?_
  · refine Parsed.meets_andThen (expect_plain .identifier ts) (fun _ h => h) ?_
    rintro n _ rest _ _ ⟨rfl, hn⟩
    refine Parsed.meets_map ((localName_meets rest).mono ?_ ?_)
    · intro v a _ hv
      exact ⟨n, v, a, rfl, hn, hv, rfl⟩
    · intro v hv
      simp [hn, hv, outerKinds]
  · rintro _ _ ⟨n, v, a, rfl, hn, hv, rfl⟩
    simp [hn, hv.plain, outerKinds]
  · rintro _ _ s ⟨n, v, a, rfl, hn, hv, rfl⟩ hs
    exact .usingDecl hk hn hv hs

theorem word_meets {statement : Stmt} {good : List Token → Stmt → Prop}
    (h : ∀ {s}, s.kind = .semicolon → good [s] statement) (ts : List Token) :
    (word statement ts).Meets ts (fun w s _ => good w s) Plain :=
  Parsed.meets_map (expect_meets (fun _ _ hs => h hs) plain_nil)

theorem returnValue_meets {k : Token} (hk : k.kind = .kwReturn) (ts : List Token) :
    (returnValue ts).Meets ts (fun w s _ => Forms .statement (k :: w) s) Plain := by
  rw [returnValue]
  split
  · rename_i front hf
    obtain ⟨hts, hs⟩ := accept?_eq_some hf
    exact Parsed.meets_give hts (.returnNothing hk (by simpa using hs))
  · refine Parsed.meets_map (terminated_meets (assignment_meets ts)
    (fun _ _ h => h.plain trivial) ?_)
    intro w e s hw hs
    exact .returnValue hk hw hs

theorem free_meets {k : Token} (hk : k.kind = .kwFree) (ts : List Token) :
    (free ts).Meets ts (fun w s _ => Forms .statement (k :: w) s) Plain := by
  refine Parsed.meets_map (terminated_meets (access_meets ts)
    (fun _ _ h => h.plain trivial) ?_)
  intro w e s hw hs
  exact .free hk hw hs

theorem expressionStmt_meets (ts : List Token) :
    (expressionStmt ts).Meets ts (fun w s _ => Forms .statement w s) Plain := by
  refine Parsed.meets_map (terminated_meets (assignment_meets ts)
    (fun _ _ h => h.plain trivial) ?_)
  intro w e s hw hs
  exact .expression hw hs

/-! ### Semicolons between statements -/

theorem exists_skipSemicolons (ts : List Token) :
    ∃ w, ts = w ++ skipSemicolons ts ∧ ∀ t ∈ w, t.kind = .semicolon := by
  induction ts with
  | nil => exact ⟨[], rfl, by simp⟩
  | cons t ts ih =>
    by_cases ht : t.kind = .semicolon
    · obtain ⟨w, hw, hs⟩ := ih
      have hskip : skipSemicolons (t :: ts) = skipSemicolons ts := if_pos ht
      refine ⟨t :: w, ?_, List.forall_mem_cons.2 ⟨ht, hs⟩⟩
      rw [hskip, List.cons_append, ← hw]
    · exact ⟨[], (if_neg ht).symm, by simp⟩

theorem Forms.stray_append {w v : List Token} {b : List Stmt} (hw : ∀ t ∈ w, t.kind = .semicolon)
    (hv : Forms .sequence v b) : Forms .sequence (w ++ v) b := by
  induction w with
  | nil => exact hv
  | cons t w ih =>
    obtain ⟨ht, hw⟩ := List.forall_mem_cons.1 hw
    exact .stray ht (ih hw)

/-! ### Statements and blocks, on lists whose tails are read soundly -/

/-- Statements in front of the brace that closes them. -/
def Closed (w : List Token) (b : List Stmt) : Prop :=
  ∃ v c, w = v ++ [c] ∧ Forms .sequence v b ∧ c.kind = .rBrace

/-- What is read off `ts` is formed by the grammar. -/
structure Formed (ts : List Token) : Prop where
  statement : (statement .standard ts).Yields ts (Forms .statement)
  ifElse : (ifElse .standard ts).Yields ts fun w (c, b, o) =>
    ∃ u v x, w = u ++ (v ++ x) ∧ Derives .assignment u c ∧ Forms .block v b ∧ Forms .otherwise x o
  block : (block .standard ts).Yields ts (Forms .block)
  blockTail : (blockTail .standard ts).Yields ts Closed

section

variable {ts : List Token} (ih : ∀ us, us.length < ts.length → Formed us)
include ih

theorem ifElse_yields : (ifElse .standard ts).Yields ts fun w (c, b, o) =>
    ∃ u v x, w = u ++ (v ++ x) ∧ Derives .assignment u c ∧ Forms .block v b ∧
      Forms .otherwise x o := by
  rw [ifElse]
  refine Run.yields_chain (Run.yields_silent (assignment_meets ts)) ?_
  intro c u rest hr hu
  refine Run.yields_andThen (ih rest hr).block ?_
  intro b v rest' hr' hv
  have hl := Nat.lt_trans hr' hr
  split
  · exact Run.yields_stay ⟨u, v, [], by simp, hu, hv, .nothing⟩
  · rename_i front hf
    obtain ⟨hts, hk⟩ := accept?_eq_some hf
    have hk : front.token.kind = .kwElse := by simpa using hk
    have hl := Nat.lt_trans front.shorter hl
    refine Run.yields_loose (Front.yields_run hts ?_)
    split
    · rename_i inner hf
      obtain ⟨hts, hi⟩ := accept?_eq_some hf
      have hi : inner.token.kind = .kwIf := by simpa using hi
      refine Front.yields_run hts (Run.yields_map ?_)
      refine (ih _ (Nat.lt_trans inner.shorter hl)).ifElse.mono ?_
      rintro _ ⟨c', b', o⟩ ⟨u', v', x, rfl, hu', hv', hx⟩
      exact ⟨u, v, _, by simp, hu, hv, .elseIf hk hi hu' hv' hx⟩
    · refine Run.yields_map ((ih _ hl).block.mono ?_)
      intro w b' hw
      exact ⟨u, v, _, by simp, hu, hv, .elseBlock hk hw⟩

theorem block_yields : (block .standard ts).Yields ts (Forms .block) := by
  rw [block]
  refine Run.yields_andThen (Run.yields_silent (expect_takes .lBrace ts)) ?_
  rintro o _ rest hr ⟨rfl, ho⟩
  refine (ih rest hr).blockTail.mono ?_
  rintro _ b ⟨v, c, rfl, hv, hc⟩
  exact .block ho hv hc

theorem namespaceDecl_yields {k : Token} (hk : k.kind = .kwNamespace) :
    (namespaceDecl .standard ts).Yields ts fun w s => Forms .statement (k :: w) s := by
  rw [namespaceDecl]
  refine Run.yields_chain (Run.yields_silent (path_meets ts)) ?_
  rintro ⟨name, inner⟩ w rest hr hw
  refine Run.yields_map ((ih rest hr).block.mono ?_)
  intro v body hv
  exact .namespaceDecl hk hw hv

theorem functionDecl_yields {k : Token} (hk : k.kind = .kwFunc) :
    (functionDecl .standard ts).Yields ts fun w s => Forms .statement (k :: w) s := by
  rw [functionDecl]
  refine Run.yields_chain (Run.yields_silent (signature_meets hk ts)) ?_
  rintro declaration w rest hr ⟨_, hw⟩
  refine Run.yields_map ((ih rest hr).block.mono ?_)
  intro v body hv
  exact hw v body hv

theorem whileLoop_yields {k : Token} (hk : k.kind = .kwWhile) :
    (whileLoop .standard ts).Yields ts fun w s => Forms .statement (k :: w) s := by
  rw [whileLoop]
  refine Run.yields_chain (Run.yields_silent (assignment_meets ts)) ?_
  intro c w rest hr hw
  refine Run.yields_map ((ih rest hr).block.mono ?_)
  intro v b hv
  exact .whileLoop hk hw hv

theorem doWhile_yields {k : Token} (hk : k.kind = .kwDo) :
    (doWhile .standard ts).Yields ts fun w s => Forms .statement (k :: w) s := by
  rw [doWhile]
  refine Run.yields_chain (block_yields ih) ?_
  intro b w rest _ hw
  refine Run.yields_chain (Run.yields_silent (expect_takes .kwWhile rest)) ?_
  rintro l _ rest _ ⟨rfl, hl⟩
  refine Run.yields_silent (Parsed.meets_map (terminated_meets (assignment_meets rest)
    (fun _ _ h => h.plain trivial) ?_))
  intro v c s hv hs
  simpa using Forms.doWhile hk hw hl hv hs

omit ih in
theorem forLoop_yields (ih : ∀ us, us.length ≤ ts.length → Formed us) {k : Token}
    (hk : k.kind = .kwFor) :
    (forLoop .standard ts).Yields ts fun w s => Forms .statement (k :: w) s := by
  rw [forLoop, dif_neg (by simp [RuleTable.standard])]
  refine Run.yields_chain (ih ts (Nat.le_refl _)).statement ?_
  intro i w rest hr hw
  refine Run.yields_chain (ih rest (Nat.le_of_lt hr)).statement ?_
  intro c v rest' hr' hv
  refine Run.yields_chain (Run.yields_silent (assignment_meets rest')) ?_
  intro e x rest'' hr'' hx
  refine Run.yields_map ((ih rest'' (by omega)).block.mono ?_)
  intro y b hy
  simpa using Forms.forLoop hk hw hv hx hy

/-- A statement starts with the token of its rule, or it is an expression. -/
theorem statement_yields : (statement .standard ts).Yields ts (Forms .statement) := by
  cases ts with
  | nil =>
    rw [statement_of_none rfl]
    exact Run.yields_after (Run.yields_silent (expressionStmt_meets []))
  | cons k ts =>
    have ih' : ∀ us, us.length ≤ ts.length → Formed us := fun us h => ih us (Nat.lt_succ_of_le h)
    have iht : ∀ us, us.length < ts.length → Formed us := fun us h => ih' us (Nat.le_of_lt h)
    cases hrule : RuleTable.standard k.kind with
    | none =>
      rw [statement_of_none hrule]
      exact Run.yields_after (Run.yields_silent (expressionStmt_meets _))
    | some rule =>
      rw [statement_of_rule hrule]
      apply Run.yields_after
      unfold RuleTable.standard at hrule
      split at hrule <;> cases hrule <;> rename_i hk <;> rw [byRule]
      · exact Run.yields_skipping (namespaceDecl_yields iht hk)
      · exact Run.yields_skipping (functionDecl_yields iht hk)
      · exact Run.yields_skipping (Run.yields_silent (record_meets (.structDecl hk) ts))
      · exact Run.yields_skipping (Run.yields_silent (enumDecl_meets hk ts))
      · exact Run.yields_skipping (Run.yields_silent (record_meets (.unionDecl hk) ts))
      · rw [headKind_cons, hk]
        exact Run.yields_skipping (Run.yields_silent (variableDecl_meets hk ts))
      · rw [headKind_cons, hk]
        exact Run.yields_skipping (Run.yields_silent (variableDecl_meets hk ts))
      · exact Run.yields_skipping (Run.yields_silent (usingDecl_meets hk ts))
      · refine Run.yields_skipping (Run.yields_map ((ih' ts (Nat.le_refl _)).ifElse.mono ?_))
        rintro _ ⟨c, b, o⟩ ⟨u, v, x, rfl, hu, hv, hx⟩
        exact .ifElse hk hu hv hx
      · exact Run.yields_skipping (whileLoop_yields iht hk)
      · exact Run.yields_skipping (doWhile_yields iht hk)
      · exact Run.yields_skipping (forLoop_yields ih' hk)
      · exact Run.yields_skipping (Run.yields_silent (word_meets (.breakLoop hk) ts))
      · exact Run.yields_skipping (Run.yields_silent (word_meets (.continueLoop hk) ts))
      · exact Run.yields_skipping (Run.yields_silent (returnValue_meets hk ts))
      · exact Run.yields_skipping (Run.yields_silent (free_meets hk ts))
      · exact Run.yields_skipping (Run.yields_silent (assembly_meets hk ts))

end

/-! ### Sequences -/

theorem skipGroup_suffix (inner : Nat) (ts : List Token) : skipGroup inner ts <:+ ts := by
  fun_induction skipGroup inner ts with
  | case1 | case2 => exact List.suffix_rfl
  | case3 inner t rest _ ih => exact ih.trans (List.suffix_cons t rest)
  | case4 t rest => exact List.suffix_cons t rest
  | case5 t rest _ inner ih => exact ih.trans (List.suffix_cons t rest)
  | case6 inner t rest _ _ _ ih => exact ih.trans (List.suffix_cons t rest)

theorem synchronize_suffix (ts : List Token) : synchronize ts <:+ ts := by
  induction ts with
  | nil => exact List.suffix_rfl
  | cons t rest ih =>
    rw [synchronize]
    split
    · split
      · exact List.suffix_rfl
      · exact (skipGroup_suffix 0 rest).trans (List.suffix_cons t rest)
      · exact List.suffix_cons t rest
    · split
      · exact List.suffix_rfl
      · exact ih.trans (List.suffix_cons t rest)

theorem resume_suffix (start rest : List Token) : resume start rest <:+ rest := by
  unfold resume
  dsimp only
  split
  · exact (List.tail_suffix _).trans (synchronize_suffix rest)
  · exact synchronize_suffix rest

/-- A statement that was read joins a sequence; one that failed leaves nothing and a fault. -/
theorem Run.Yields.recover {ts : List Token} {r : Run Stmt ts.length}
    (h : r.Yields ts (Forms .statement)) :
    ∃ w, Drawn ts w r.recover.rest ∧
      (Clean r.recover.events → ts = w ++ r.recover.rest) ∧ ∀ {v b}, Forms .sequence v b →
        Forms .sequence (w ++ v) (r.recover.statement?.toList ++ b) := by
  obtain ⟨events, outcome⟩ := r
  cases outcome with
  | failed failure rest within =>
    refine ⟨[], (resume_suffix ts rest).sublist.trans h.left, fun hclean => ?_, fun hv => hv⟩
    exact absurd (List.mem_append_right _ (List.mem_cons_self ..)) (hclean failure)
  | done s rest shorter =>
    obtain ⟨w, hw, ht, hc⟩ := h.tokens s rest rfl
    exact ⟨w, ht, hc, fun hv => .cons hw hv⟩

theorem Recovered.yields_andThen {ts w : List Token} {r : Recovered ts}
    (he : headKind ts ≠ .eof)
    {next : (rest : List Token) → rest.length < ts.length → Run (List Stmt) (rest.length + 1)}
    {good : List Token → List Stmt → Prop} (hwt : Drawn ts w r.rest)
    (hw : Clean r.events → ts = w ++ r.rest)
    (hn : (next r.rest (r.progress he)).Yields r.rest fun v b =>
      good (w ++ v) (r.statement?.toList ++ b)) :
    (r.andThen he next).Yields ts good := by
  have hn := Run.yields_map hn
  constructor
  · rw [Recovered.andThen, Parsed.result_before]
    exact hn.left.trans hwt.left
  · intro b rest hb
    rw [Parsed.Gives, Recovered.andThen, Parsed.result_before] at hb
    obtain ⟨v, hv, hvt, hc⟩ := hn.tokens b rest hb
    refine ⟨w ++ v, hv, hwt.trans hvt, fun hclean => ?_⟩
    obtain ⟨h₁, h₂⟩ := clean_append.1 hclean
    rw [List.append_assoc, ← hc h₂, ← hw h₁]

theorem blockRest_yields {ts : List Token} (ih : ∀ us, us.length < ts.length → Formed us) :
    (blockRest .standard ts).Yields ts Closed := by
  rw [blockRest]
  split
  · rename_i front hf
    obtain ⟨hts, hc⟩ := accept?_eq_some hf
    have hg : (front.give ([] : List Stmt)).Meets ts (fun w b _ => Closed w b) Plain :=
      Parsed.meets_give hts ⟨[], front.token, rfl, .nil, by simpa using hc⟩
    exact Run.yields_silent (Parsed.meets_loose.2 hg)
  · split
    · -- the end of input stands in for the brace that is missing
      refine ⟨List.Sublist.refl ts, fun b rest hb => ?_⟩
      simp only [Parsed.Gives, Run.outcome_after, Run.stay, Run.outcome_silent,
        Parsed.result_stay, Prod.mk.injEq, Except.ok.injEq] at hb
      refine ⟨[bareToken .rBrace], ⟨[], _, rfl, hb.1 ▸ .nil, rfl⟩, ?_, fun hclean => ?_⟩
      · rw [← hb.2]
        exact List.Sublist.refl ts
      · exact absurd (List.mem_cons_self ..) (hclean _)
    · rename_i he
      obtain ⟨w, hwt, hw, hs⟩ := (statement_yields ih).recover
      refine Run.yields_loose (Recovered.yields_andThen he hwt hw ?_)
      refine (ih _ (Recovered.progress _ he)).blockTail.mono ?_
      rintro _ b ⟨v, c, rfl, hv, hc⟩
      exact ⟨w ++ v, c, by simp, hs hv, hc⟩

theorem blockTail_yields {ts : List Token} (ih : ∀ us, us.length < ts.length → Formed us) :
    (blockTail .standard ts).Yields ts Closed := by
  obtain ⟨u, hu, hs⟩ := exists_skipSemicolons ts
  have hd : Drawn ts u (skipSemicolons ts) := drawn_of_eq hu
  have hl := skipSemicolons_length_le ts
  have h := blockRest_yields fun us (h : us.length < (skipSemicolons ts).length) =>
    ih us (Nat.lt_of_lt_of_le h hl)
  constructor
  · rw [blockTail, Run.result_trimming]
    exact h.left.trans hd.left
  · intro b rest hb
    rw [blockTail, Parsed.Gives, Run.result_trimming] at hb
    obtain ⟨_, ⟨v, c, rfl, hv, hc⟩, ht, hclean⟩ := h.tokens b rest hb
    refine ⟨u ++ (v ++ [c]), ⟨u ++ v, c, by simp, hv.stray_append hs, hc⟩, hd.trans ht,
      fun h => ?_⟩
    rw [blockTail] at h
    rw [List.append_assoc, ← hclean h, ← hu]

/-! ### Whole files -/

theorem formed (ts : List Token) : Formed ts := by
  induction ts using tokens_induction with
  | step ts ih =>
    exact {
      statement := statement_yields ih
      ifElse := ifElse_yields ih
      block := block_yields ih
      blockTail := blockTail_yields ih }

/-- A file is formed by the grammar, from tokens that are drawn from the list, and from the tokens
up to the end of input if there is no fault. -/
theorem program_yields (ts : List Token) :
    ∃ w, Forms .sequence w (program .standard ts).file ∧
      Drawn ts w (program .standard ts).rest ∧
      (Clean (program .standard ts).events → ts = w ++ (program .standard ts).rest) ∧
      headKind (program .standard ts).rest = .eof := by
  obtain ⟨u, hu, hs⟩ := exists_skipSemicolons ts
  have hd : Drawn ts u (skipSemicolons ts) := drawn_of_eq hu
  by_cases he : headKind (skipSemicolons ts) = .eof
  · rw [program_of_eof he]
    exact ⟨u, by simpa using Forms.nil.stray_append hs, hd, fun _ => hu, he⟩
  · have hlt := (statement .standard (skipSemicolons ts)).recover.progress he
    have hle := skipSemicolons_length_le ts
    obtain ⟨w, hwt, hw, hf⟩ := (formed (skipSemicolons ts)).statement.recover
    obtain ⟨v, hv, hvt, hc, hr⟩ :=
      program_yields (statement .standard (skipSemicolons ts)).recover.rest
    rw [program_of_statement he]
    refine ⟨u ++ (w ++ v), (hf hv).stray_append hs, hd.trans (hwt.trans hvt), fun hclean => ?_, hr⟩
    obtain ⟨h₁, h₂⟩ := clean_append.1 hclean
    rw [List.append_assoc, List.append_assoc, ← hc h₂, ← hw h₁, ← hu]
termination_by ts.length

/-- A file is formed by the grammar, and by the tokens up to the end of input if there is no
fault. -/
theorem program_formed (ts : List Token) :
    ∃ w, Forms .sequence w (program .standard ts).file ∧
      (Clean (program .standard ts).events → ts = w ++ (program .standard ts).rest) ∧
      headKind (program .standard ts).rest = .eof := by
  obtain ⟨w, hw, -, hc, hr⟩ := program_yields ts
  exact ⟨w, hw, hc, hr⟩

end FrontEnd.Grammar
