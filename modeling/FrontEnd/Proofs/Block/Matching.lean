import FrontEnd.Proofs.Block.Braces

/-!
Which brace closes a block. The loop of a block tries statement after statement, and a statement
reads further blocks and statements. A block ends at the brace that matches its own, unless a
statement somewhere inside fails behind the brace that opens the body of a struct, a union, an enum
or an assembly: that brace is never closed again, and every block around it ends too early.
-/

set_option autoImplicit false

namespace FrontEnd.Grammar

/-! ### Calls -/

/-- The loop of a block that starts at `ts` comes to `us`, where it tries a statement or ends. -/
inductive Reaches : List Token → List Token → Prop where
  | here {ts : List Token} : Reaches ts (skipSemicolons ts)
  | next {ts us : List Token} : headKind (skipSemicolons ts) ∉ [.rBrace, .eof] →
    Reaches (statement .standard (skipSemicolons ts)).recover.rest us → Reaches ts us

/-- A reader that is called at a list of tokens. -/
inductive Call where
  | statement (ts : List Token)
  | block (ts : List Token)
  | ifElse (ts : List Token)

/-- A call makes another. -/
inductive Makes : Call → Call → Prop where
  | namespaceBody {k : Token} {ts us : List Token} {names : String × List String} :
    k.kind = .kwNamespace → (path ts).Gives names us → Makes (.statement (k :: ts)) (.block us)
  | functionBody {k : Token} {ts us : List Token} {declaration : List Stmt → Stmt} :
    k.kind = .kwFunc → (signature ts).Gives declaration us →
    Makes (.statement (k :: ts)) (.block us)
  | whileBody {k : Token} {ts us : List Token} {condition : Expr} :
    k.kind = .kwWhile → (assignment ts).Gives condition us →
    Makes (.statement (k :: ts)) (.block us)
  | doBody {k : Token} {ts : List Token} :
    k.kind = .kwDo → Makes (.statement (k :: ts)) (.block ts)
  | forInitial {k : Token} {ts : List Token} :
    k.kind = .kwFor → Makes (.statement (k :: ts)) (.statement ts)
  | forCondition {k : Token} {ts us : List Token} {initial : Stmt} :
    k.kind = .kwFor → (statement .standard ts).outcome.Gives initial us →
    Makes (.statement (k :: ts)) (.statement us)
  | forBody {k : Token} {ts us vs xs : List Token} {initial condition : Stmt} {iteration : Expr} :
    k.kind = .kwFor → (statement .standard ts).outcome.Gives initial us →
    (statement .standard us).outcome.Gives condition vs → (assignment vs).Gives iteration xs →
    Makes (.statement (k :: ts)) (.block xs)
  | ifElse {k : Token} {ts : List Token} :
    k.kind = .kwIf → Makes (.statement (k :: ts)) (.ifElse ts)
  | thenBlock {ts us : List Token} {condition : Expr} :
    (assignment ts).Gives condition us → Makes (.ifElse ts) (.block us)
  | elseBlock {k : Token} {ts us vs : List Token} {condition : Expr} {body : List Stmt} :
    (assignment ts).Gives condition us → (block .standard us).outcome.Gives body (k :: vs) →
    k.kind = .kwElse → headKind vs ≠ .kwIf → Makes (.ifElse ts) (.block vs)
  | elseIf {k i : Token} {ts us vs : List Token} {condition : Expr} {body : List Stmt} :
    (assignment ts).Gives condition us → (block .standard us).outcome.Gives body (k :: i :: vs) →
    k.kind = .kwElse → i.kind = .kwIf → Makes (.ifElse ts) (.ifElse vs)
  | tried {o : Token} {ts us : List Token} :
    o.kind = .lBrace → Reaches ts us → headKind us ∉ [.rBrace, .eof] →
    Makes (.block (o :: ts)) (.statement us)

/-- The kinds of token that start a statement with a body of its own kind in braces. -/
def bodyKinds : List TokenKind := [.kwStruct, .kwUnion, .kwEnum, .kwAsm]

/-- A statement with a body fails behind the brace that opens the body. -/
def FailsInBody (ts : List Token) : Prop :=
  headKind ts ∈ bodyKinds ∧ ∃ failure w rest,
    (statement .standard ts).outcome.result = (.error failure, rest) ∧ ts = w ++ rest ∧
      ∃ t ∈ w, t.kind = .lBrace

/-- A statement that the call tries, itself or at any depth, fails in its body. -/
inductive Spoiled : Call → Prop where
  | body {ts : List Token} : FailsInBody ts → Spoiled (.statement ts)
  | call {c d : Call} : Makes c d → Spoiled d → Spoiled c

/-- Reading a whole file at `ts` makes the call. -/
inductive Called : List Token → Call → Prop where
  | here {ts : List Token} : headKind (skipSemicolons ts) ≠ .eof →
    Called ts (.statement (skipSemicolons ts))
  | next {ts : List Token} {c : Call} : headKind (skipSemicolons ts) ≠ .eof →
    Called (statement .standard (skipSemicolons ts)).recover.rest c → Called ts c
  | call {ts : List Token} {c d : Call} : Called ts c → Makes c d → Called ts d

/-! ### What spoils a call -/

/-- A statement that the loop of a block tries is spoiled. -/
def LoopSpoiled (ts : List Token) : Prop :=
  ∃ us, Reaches ts us ∧ headKind us ∉ [.rBrace, .eof] ∧ Spoiled (.statement us)

theorem not_loopSpoiled {ts : List Token} (h : headKind (skipSemicolons ts) ∈ [.rBrace, .eof]) :
    ¬ LoopSpoiled ts := by
  rintro ⟨us, hr, hu, -⟩
  cases hr with
  | here => exact hu h
  | next hn => exact hn h

theorem loopSpoiled_iff {ts : List Token} (h : headKind (skipSemicolons ts) ∉ [.rBrace, .eof]) :
    LoopSpoiled ts ↔ Spoiled (.statement (skipSemicolons ts)) ∨
      LoopSpoiled (statement .standard (skipSemicolons ts)).recover.rest := by
  constructor
  · rintro ⟨us, hr, hu, hs⟩
    cases hr with
    | here => exact .inl hs
    | next _ hr => exact .inr ⟨us, hr, hu, hs⟩
  · rintro (hs | ⟨us, hr, hu, hs⟩)
    · exact ⟨_, .here, h, hs⟩
    · exact ⟨us, .next h hr, hu, hs⟩

theorem spoiled_block_iff {o : Token} {ts : List Token} (ho : o.kind = .lBrace) :
    Spoiled (.block (o :: ts)) ↔ LoopSpoiled ts := by
  constructor
  · rintro (_ | ⟨hm, hs⟩)
    cases hm with
    | tried _ hr hu => exact ⟨_, hr, hu, hs⟩
  · rintro ⟨us, hr, hu, hs⟩
    exact .call (.tried ho hr hu) hs

theorem not_spoiled_block {ts : List Token} (h : headKind ts ≠ .lBrace) :
    ¬ Spoiled (.block ts) := by
  rintro (_ | ⟨hm, hs⟩)
  cases hm with
  | tried ho => exact h ho

/-- The kinds of token that start a statement with blocks or statements inside. -/
def compoundKinds : List TokenKind :=
  [.kwNamespace, .kwFunc, .kwIf, .kwWhile, .kwDo, .kwFor]

theorem spoiled_simple_iff {ts : List Token} (h : headKind ts ∉ compoundKinds) :
    Spoiled (.statement ts) ↔ FailsInBody ts := by
  constructor
  · rintro (hf | ⟨hm, hs⟩)
    · exact hf
    · cases hm <;> simp_all [compoundKinds]
  · exact .body

theorem not_spoiled_of_kind {ts : List Token} (h : headKind ts ∉ compoundKinds ++ bodyKinds) :
    ¬ Spoiled (.statement ts) := by
  rw [List.mem_append, not_or] at h
  rw [spoiled_simple_iff h.1]
  exact fun hf => h.2 hf.1

/-- A statement with statements inside is spoiled by what it calls. -/
theorem spoiled_compound_iff {ts : List Token} (h : headKind ts ∈ compoundKinds) :
    Spoiled (.statement ts) ↔ ∃ d, Makes (.statement ts) d ∧ Spoiled d := by
  constructor
  · rintro (hf | ⟨hm, hs⟩)
    · have hd : ∀ kind ∈ compoundKinds, kind ∉ bodyKinds := by decide
      exact absurd hf.1 (hd _ h)
    · exact ⟨_, hm, hs⟩
  · rintro ⟨d, hm, hs⟩
    exact .call hm hs

section

variable {k : Token} {ts : List Token}

theorem spoiled_namespace_iff (hk : k.kind = .kwNamespace) : Spoiled (.statement (k :: ts)) ↔
    ∃ names us, (path ts).Gives names us ∧ Spoiled (.block us) := by
  rw [spoiled_compound_iff (by simp [hk, compoundKinds])]
  constructor
  · rintro ⟨d, hm, hs⟩
    cases hm with
    | namespaceBody _ hp => exact ⟨_, _, hp, hs⟩
    | _ => simp_all
  · rintro ⟨names, us, hp, hs⟩
    exact ⟨_, .namespaceBody hk hp, hs⟩

theorem spoiled_function_iff (hk : k.kind = .kwFunc) : Spoiled (.statement (k :: ts)) ↔
    ∃ declaration us, (signature ts).Gives declaration us ∧ Spoiled (.block us) := by
  rw [spoiled_compound_iff (by simp [hk, compoundKinds])]
  constructor
  · rintro ⟨d, hm, hs⟩
    cases hm with
    | functionBody _ hp => exact ⟨_, _, hp, hs⟩
    | _ => simp_all
  · rintro ⟨declaration, us, hp, hs⟩
    exact ⟨_, .functionBody hk hp, hs⟩

theorem spoiled_while_iff (hk : k.kind = .kwWhile) : Spoiled (.statement (k :: ts)) ↔
    ∃ condition us, (assignment ts).Gives condition us ∧ Spoiled (.block us) := by
  rw [spoiled_compound_iff (by simp [hk, compoundKinds])]
  constructor
  · rintro ⟨d, hm, hs⟩
    cases hm with
    | whileBody _ hp => exact ⟨_, _, hp, hs⟩
    | _ => simp_all
  · rintro ⟨condition, us, hp, hs⟩
    exact ⟨_, .whileBody hk hp, hs⟩

theorem spoiled_do_iff (hk : k.kind = .kwDo) :
    Spoiled (.statement (k :: ts)) ↔ Spoiled (.block ts) := by
  rw [spoiled_compound_iff (by simp [hk, compoundKinds])]
  constructor
  · rintro ⟨d, hm, hs⟩
    cases hm with
    | doBody => exact hs
    | _ => simp_all
  · intro hs
    exact ⟨_, .doBody hk, hs⟩

theorem spoiled_if_iff (hk : k.kind = .kwIf) :
    Spoiled (.statement (k :: ts)) ↔ Spoiled (.ifElse ts) := by
  rw [spoiled_compound_iff (by simp [hk, compoundKinds])]
  constructor
  · rintro ⟨d, hm, hs⟩
    cases hm with
    | ifElse => exact hs
    | _ => simp_all
  · intro hs
    exact ⟨_, .ifElse hk, hs⟩

theorem spoiled_for_iff (hk : k.kind = .kwFor) : Spoiled (.statement (k :: ts)) ↔
    Spoiled (.statement ts) ∨ ∃ initial us, (statement .standard ts).outcome.Gives initial us ∧
      (Spoiled (.statement us) ∨ ∃ condition vs,
        (statement .standard us).outcome.Gives condition vs ∧
          ∃ iteration xs, (assignment vs).Gives iteration xs ∧ Spoiled (.block xs)) := by
  rw [spoiled_compound_iff (by simp [hk, compoundKinds])]
  constructor
  · rintro ⟨d, hm, hs⟩
    cases hm with
    | forInitial => exact .inl hs
    | forCondition _ hi => exact .inr ⟨_, _, hi, .inl hs⟩
    | forBody _ hi hc he => exact .inr ⟨_, _, hi, .inr ⟨_, _, hc, _, _, he, hs⟩⟩
    | _ => simp_all
  · rintro (hs | ⟨initial, us, hi, hs | ⟨condition, vs, hc, iteration, xs, he, hs⟩⟩)
    · exact ⟨_, .forInitial hk, hs⟩
    · exact ⟨_, .forCondition hk hi, hs⟩
    · exact ⟨_, .forBody hk hi hc he, hs⟩

end

/-- What an `if` calls behind its body, at `ts`, is spoiled. -/
def OtherwiseSpoiled (ts : List Token) : Prop :=
  ∃ k us, ts = k :: us ∧ k.kind = .kwElse ∧
    ((∃ i vs, us = i :: vs ∧ i.kind = .kwIf ∧ Spoiled (.ifElse vs)) ∨
      (headKind us ≠ .kwIf ∧ Spoiled (.block us)))

theorem not_otherwiseSpoiled {ts : List Token} (h : headKind ts ≠ .kwElse) :
    ¬ OtherwiseSpoiled ts := by
  rintro ⟨k, us, rfl, hk, -⟩
  exact h hk

theorem otherwiseSpoiled_elseIf_iff {k i : Token} {ts us vs : List Token} (hts : ts = k :: us)
    (hk : k.kind = .kwElse) (hus : us = i :: vs) (hi : i.kind = .kwIf) :
    OtherwiseSpoiled ts ↔ Spoiled (.ifElse vs) := by
  subst hts hus
  constructor
  · rintro ⟨_, _, ⟨rfl, rfl⟩, -, ⟨_, _, ⟨rfl, rfl⟩, -, hs⟩ | ⟨hn, -⟩⟩
    · exact hs
    · exact absurd hi hn
  · intro hs
    exact ⟨k, i :: vs, rfl, hk, .inl ⟨i, vs, rfl, hi, hs⟩⟩

theorem otherwiseSpoiled_elseBlock_iff {k : Token} {ts us : List Token} (hts : ts = k :: us)
    (hk : k.kind = .kwElse) (hi : headKind us ≠ .kwIf) :
    OtherwiseSpoiled ts ↔ Spoiled (.block us) := by
  subst hts
  constructor
  · rintro ⟨_, _, ⟨rfl, rfl⟩, -, ⟨i, vs, rfl, hn, -⟩ | ⟨-, hs⟩⟩
    · exact absurd hn hi
    · exact hs
  · intro hs
    exact ⟨k, us, rfl, hk, .inr ⟨hi, hs⟩⟩

theorem spoiled_ifElse_iff {ts : List Token} : Spoiled (.ifElse ts) ↔
    ∃ condition us, (assignment ts).Gives condition us ∧
      (Spoiled (.block us) ∨ ∃ body vs, (block .standard us).outcome.Gives body vs ∧
        OtherwiseSpoiled vs) := by
  constructor
  · rintro (_ | ⟨hm, hs⟩)
    cases hm with
    | thenBlock hc => exact ⟨_, _, hc, .inl hs⟩
    | elseBlock hc hb hk hi => exact ⟨_, _, hc, .inr ⟨_, _, hb, _, _, rfl, hk, .inr ⟨hi, hs⟩⟩⟩
    | elseIf hc hb hk hi =>
      exact ⟨_, _, hc, .inr ⟨_, _, hb, _, _, rfl, hk, .inl ⟨_, _, rfl, hi, hs⟩⟩⟩
  · rintro ⟨condition, us, hc, hs | ⟨body, _, hb, k, us, rfl, hk, h⟩⟩
    · exact .call (.thenBlock hc) hs
    · rcases h with ⟨i, vs, rfl, hi, hs⟩ | ⟨hi, hs⟩
      · exact .call (.elseIf hc hb hk hi) hs
      · exact .call (.elseBlock hc hb hk hi) hs

/-! ### Runs -/

namespace Run

variable {α β : Type} {n : Nat} {ts : List Token} {s : Prop}

theorem takes_skipping {k : Token} {r : Run α ts.length} (hk : k.kind ∉ outerKinds)
    (h : r.outcome.Takes ts s) : (skipping (k :: ts) r).outcome.Takes (k :: ts) s := by
  obtain ⟨w, hts, hw⟩ := Parsed.takes_loose.2 h
  have hp : Plain [k] := by simpa using hk
  exact ⟨k :: w, congrArg (k :: ·) hts, ((hp.taken _).append hw).congr (by simp)⟩

theorem takes_andThen {r : Run α n} {q : α → List Token → Prop}
    {next : (value : α) → (rest : List Token) → rest.length < n → Run β (rest.length + 1)}
    (hr : r.outcome.Takes ts s)
    (hn : ∀ value rest h, r.outcome.Gives value rest →
      (next value rest h).outcome.Takes rest (q value rest)) :
    (r.andThen next).outcome.Takes ts
      (s ∨ ∃ value rest, r.outcome.Gives value rest ∧ q value rest) := by
  rw [outcome_andThen]
  exact Parsed.takes_andThen hr hn

theorem takes_chain {r : Run α n} {q : α → List Token → Prop}
    {next : (value : α) → (rest : List Token) → rest.length < n → Run β rest.length}
    (hr : r.outcome.Takes ts s)
    (hn : ∀ value rest h, r.outcome.Gives value rest →
      (next value rest h).outcome.Takes rest (q value rest)) :
    (r.chain next).outcome.Takes ts
      (s ∨ ∃ value rest, r.outcome.Gives value rest ∧ q value rest) := by
  rw [outcome_chain]
  exact Parsed.takes_chain hr hn

/-- Behind tokens without braces, only what follows counts. -/
theorem takes_silent_chain {p : Parsed α n} {q : α → List Token → Prop}
    {next : (value : α) → (rest : List Token) → rest.length < n → Run β rest.length}
    (hp : p.Takes ts False)
    (hn : ∀ value rest h, p.Gives value rest →
      (next value rest h).outcome.Takes rest (q value rest)) :
    ((silent p).chain next).outcome.Takes ts (∃ value rest, p.Gives value rest ∧ q value rest) :=
  (takes_chain (r := silent p) hp hn).congr (by rw [false_or]; rfl)

end Run

theorem Front.takes_run {α : Type} {ts : List Token} {front : Front ts} {s : Prop}
    {next : (t : Token) → (rest : List Token) → rest.length < ts.length → Run α rest.length}
    (hts : ts = front.token :: front.rest) (hk : front.token.kind ∉ outerKinds)
    (h : (next front.token front.rest front.shorter).outcome.Takes front.rest s) :
    (front.run next).outcome.Takes ts s := by
  have hg : (front.give front.token).Gives front.token front.rest := Parsed.result_give _ _
  obtain ⟨w, hr, hw⟩ := h
  have hp : Plain [front.token] := by simpa using hk
  rw [Parsed.Takes, Front.run, Run.outcome_chain, Run.outcome_silent, Parsed.result_chain hg]
  refine ⟨front.token :: w, ?_, ((hp.taken _).append hw).congr (by simp)⟩
  rw [List.cons_append, ← hr]
  exact hts

/-! ### Calls, on lists whose tails are read as they should -/

/-- What is read at `ts` rises only if it is spoiled. -/
structure Braced (ts : List Token) : Prop where
  statement : (statement .standard ts).outcome.Takes ts (Spoiled (.statement ts))
  ifElse : (ifElse .standard ts).outcome.Takes ts (Spoiled (.ifElse ts))
  block : (block .standard ts).outcome.Takes ts (Spoiled (.block ts))

theorem assignment_takes (ts : List Token) : (assignment ts).Takes ts False :=
  Parsed.takes_of_meets (assignment_meets ts) fun _ _ rest h => (h.plain trivial).taken rest

section

variable {ts : List Token} (ih : ∀ us, us.length < ts.length → Braced us)
include ih

theorem ifElse_takes : (ifElse .standard ts).outcome.Takes ts (Spoiled (.ifElse ts)) := by
  rw [ifElse]
  refine (Run.takes_silent_chain (assignment_takes ts) ?_).congr spoiled_ifElse_iff.symm
  intro condition us hu _
  refine Run.takes_andThen (ih us hu).block ?_
  intro body vs hv _
  have hl := Nat.lt_trans hv hu
  split
  · rename_i hf
    have hk : headKind vs ≠ .kwElse := headKind_ne_of_accept? hf (by decide)
    exact ⟨[], rfl, (plain_nil.taken _).congr (iff_of_false id (not_otherwiseSpoiled hk))⟩
  · rename_i front hf
    obtain ⟨hts, hk⟩ := accept?_eq_some hf
    have hk : front.token.kind = .kwElse := by simpa using hk
    have hl := Nat.lt_trans front.shorter hl
    refine Parsed.takes_loose.2 (Front.takes_run hts (by simp [hk, outerKinds]) ?_)
    split
    · rename_i inner hf
      obtain ⟨hrest, hi⟩ := accept?_eq_some hf
      have hi : inner.token.kind = .kwIf := by simpa using hi
      refine Front.takes_run hrest (by simp [hi, outerKinds]) (Parsed.takes_map.2 ?_)
      exact (ih _ (Nat.lt_trans inner.shorter hl)).ifElse.congr
        (otherwiseSpoiled_elseIf_iff hts hk hrest hi).symm
    · rename_i hf
      have hi : headKind front.rest ≠ .kwIf := headKind_ne_of_accept? hf (by decide)
      exact Parsed.takes_map.2 ((ih _ hl).block.congr
        (otherwiseSpoiled_elseBlock_iff hts hk hi).symm)

end

/-! ### Statements -/

section

variable {k : Token} {ts : List Token}

theorem Run.meets_skipping {p : Parsed Stmt ts.length}
    {good : List Token → Stmt → List Token → Prop} {bad : List Token → Prop}
    (h : p.Meets ts (fun w => good (k :: w)) fun w => bad (k :: w)) :
    (Run.skipping (k :: ts) (.silent p)).outcome.Meets (k :: ts) good bad := by
  cases p with
  | done value rest shorter =>
    obtain ⟨w, hts, hw⟩ := h
    exact ⟨k :: w, congrArg (k :: ·) hts, hw⟩
  | failed failure rest within =>
    obtain ⟨w, hts, hw⟩ := h
    exact ⟨k :: w, congrArg (k :: ·) hts, hw⟩

/-- A statement without braces or blocks takes tokens that close what they open. -/
theorem simple_takes {p : Parsed Stmt ts.length} {event : Event}
    (hs : statement .standard (k :: ts) = .after event (.skipping (k :: ts) (.silent p)))
    (hk : k.kind ∉ outerKinds ++ (compoundKinds ++ bodyKinds))
    (h : p.Meets ts (fun w s _ => Forms .statement (k :: w) s) Plain) :
    (statement .standard (k :: ts)).outcome.Takes (k :: ts) (Spoiled (.statement (k :: ts))) := by
  rw [List.mem_append, not_or] at hk
  have hm : (Run.skipping (k :: ts) (.silent p)).outcome.Meets (k :: ts)
      (fun w s _ => Forms .statement w s) Plain :=
    Run.meets_skipping (h.mono (fun _ _ _ hw => hw) fun w hw => plain_cons.2 ⟨hk.1, hw⟩)
  rw [hs]
  exact (Parsed.takes_of_meets hm fun _ _ rest hw => hw.taken rest).congr
    (iff_of_false id (not_spoiled_of_kind hk.2))

/-- A statement with a body leaves a brace open exactly if it fails in the body. -/
theorem body_takes {p : Parsed Stmt ts.length} {event : Event}
    (hs : statement .standard (k :: ts) = .after event (.skipping (k :: ts) (.silent p)))
    (hk : k.kind ∈ bodyKinds)
    (h : p.Meets ts (fun w s _ => Forms .statement (k :: w) s) fun w => Plain w ∨ Opened w) :
    (statement .standard (k :: ts)).outcome.Takes (k :: ts) (Spoiled (.statement (k :: ts))) := by
  have ho : ∀ kind ∈ bodyKinds, kind ∉ outerKinds := by decide
  have hm : (statement .standard (k :: ts)).outcome.Meets (k :: ts)
      (fun w s _ => Forms .statement w s) fun w => Plain w ∨ Opened w := by
    rw [hs]
    refine Run.meets_skipping (h.mono (fun _ _ _ hw => hw) ?_)
    rintro w (hw | ⟨v, o, u, rfl, hv, hl, hu⟩)
    · exact .inl (plain_cons.2 ⟨ho _ hk, hw⟩)
    · exact .inr ⟨k :: v, o, u, rfl, plain_cons.2 ⟨ho _ hk, hv⟩, hl, hu⟩
  have hd : ∀ kind ∈ bodyKinds, kind ∉ compoundKinds := by decide
  have hc : headKind (k :: ts) ∉ compoundKinds := hd _ hk
  rw [Parsed.Takes, spoiled_simple_iff hc]
  unfold Parsed.Meets at hm
  split at hm <;> rename_i hr <;> rw [hr] <;> obtain ⟨w, hts, hw⟩ := hm
  · refine ⟨w, hts, (hw.taken _).congr (iff_of_false id ?_)⟩
    rintro ⟨-, failure, _, _, hf, -⟩
    simp [hr] at hf
  · rename_i failure rest
    refine ⟨w, hts, ?_⟩
    rcases hw with hw | hw
    · refine (hw.taken _).congr (iff_of_false id ?_)
      rintro ⟨-, _, v, _, hf, hts', t, ht, hb⟩
      simp only [hr, Prod.mk.injEq] at hf
      obtain ⟨-, rfl⟩ := hf
      rw [hts, List.append_cancel_right_eq] at hts'
      exact hw t (hts' ▸ ht) (by simp [hb, outerKinds])
    · refine ⟨hw.not_eof, .inr ⟨1, hw.rises, ?_⟩⟩
      refine iff_of_false (by decide) (not_not_intro ⟨hk, failure, w, rest, hr, hts, ?_⟩)
      obtain ⟨v, o, u, rfl, -, ho, -⟩ := hw
      exact ⟨o, by simp, ho⟩

end

section

variable {k : Token} {ts : List Token} (ih : ∀ us, us.length ≤ ts.length → Braced us)
include ih

theorem namespaceDecl_takes : (namespaceDecl .standard ts).outcome.Takes ts
    (∃ names us, (path ts).Gives names us ∧ Spoiled (.block us)) := by
  have hp : (path ts).Takes ts False :=
    Parsed.takes_of_meets ((path_meets ts).mono (fun _ _ _ h => h) fun w ⟨v, _, _, h⟩ =>
      (plain_append.1 h.plain).1) fun _ _ rest h => h.plain.taken rest
  rw [namespaceDecl]
  refine Run.takes_silent_chain hp fun names us hu _ => ?_
  exact Parsed.takes_map.2 (ih us (Nat.le_of_lt hu)).block

theorem functionDecl_takes (hk : k.kind = .kwFunc) : (functionDecl .standard ts).outcome.Takes ts
    (∃ declaration us, (signature ts).Gives declaration us ∧ Spoiled (.block us)) := by
  have hp : (signature ts).Takes ts False :=
    Parsed.takes_of_meets (signature_meets hk ts) fun _ _ rest h => h.1.taken rest
  rw [functionDecl]
  refine Run.takes_silent_chain hp fun declaration us hu _ => ?_
  exact Parsed.takes_map.2 (ih us (Nat.le_of_lt hu)).block

theorem whileLoop_takes : (whileLoop .standard ts).outcome.Takes ts
    (∃ condition us, (assignment ts).Gives condition us ∧ Spoiled (.block us)) := by
  rw [whileLoop]
  refine Run.takes_silent_chain (assignment_takes ts) fun condition us hu _ => ?_
  exact Parsed.takes_map.2 (ih us (Nat.le_of_lt hu)).block

theorem doWhile_takes : (doWhile .standard ts).outcome.Takes ts (Spoiled (.block ts)) := by
  rw [doWhile]
  refine (Run.takes_chain (q := fun _ _ => False) (ih ts (Nat.le_refl _)).block ?_).congr (by simp)
  intro body us _ _
  have hw : (expect .kwWhile us).Takes us False :=
    Parsed.takes_of_meets (expect_plain .kwWhile us) fun w t rest h =>
      Plain.taken (by simp [h.1, h.2, outerKinds]) rest
  refine (Run.takes_chain (q := fun _ _ => False) hw ?_).congr (by simp)
  intro _ vs _ _
  have ht : (terminated (assignment vs)).Meets vs (fun w _ _ => Plain w) Plain :=
    terminated_meets (assignment_meets vs) (fun _ _ h => h.plain trivial)
      fun w _ s h hs => by simp [h.plain trivial, hs, outerKinds]
  exact Parsed.takes_map.2 (Parsed.takes_of_meets ht fun _ _ rest h => h.taken rest)

theorem forLoop_takes : (forLoop .standard ts).outcome.Takes ts
    (Spoiled (.statement ts) ∨ ∃ initial us, (statement .standard ts).outcome.Gives initial us ∧
      (Spoiled (.statement us) ∨ ∃ condition vs,
        (statement .standard us).outcome.Gives condition vs ∧
          ∃ iteration xs, (assignment vs).Gives iteration xs ∧ Spoiled (.block xs))) := by
  rw [forLoop, dif_neg (by simp [RuleTable.standard])]
  refine Run.takes_chain (ih ts (Nat.le_refl _)).statement fun initial us hu _ => ?_
  refine Run.takes_chain (ih us (Nat.le_of_lt hu)).statement fun condition vs hv _ => ?_
  refine Run.takes_silent_chain (assignment_takes vs) fun iteration xs hx _ => ?_
  exact Parsed.takes_map.2 (ih xs (by omega)).block

end

theorem statement_takes {ts : List Token} (ih : ∀ us, us.length < ts.length → Braced us) :
    (statement .standard ts).outcome.Takes ts (Spoiled (.statement ts)) := by
  have hexpression : RuleTable.standard (headKind ts) = none →
      (statement .standard ts).outcome.Takes ts (Spoiled (.statement ts)) := by
    intro hrule
    have hd : ∀ kind ∈ compoundKinds ++ bodyKinds, RuleTable.standard kind ≠ none := by decide
    have hs := not_spoiled_of_kind fun hm => hd _ hm hrule
    rw [statement_of_none hrule]
    exact (Parsed.takes_of_meets (expressionStmt_meets ts) fun _ _ rest h => h.taken rest).congr
      (iff_of_false id hs)
  cases ts with
  | nil => exact hexpression rfl
  | cons k ts =>
    have ih' : ∀ us, us.length ≤ ts.length → Braced us := fun us h => ih us (Nat.lt_succ_of_le h)
    cases hrule : RuleTable.standard k.kind with
    | none => exact hexpression hrule
    | some rule =>
      have hs : statement .standard (k :: ts) = _ := statement_of_rule hrule
      unfold RuleTable.standard at hrule
      split at hrule <;> cases hrule <;> rename_i hk <;> rw [byRule] at hs
      · rw [hs, spoiled_namespace_iff hk]
        exact Run.takes_skipping (by simp [hk, outerKinds]) (namespaceDecl_takes ih')
      · rw [hs, spoiled_function_iff hk]
        exact Run.takes_skipping (by simp [hk, outerKinds]) (functionDecl_takes ih' hk)
      · exact body_takes hs (by simp [hk, bodyKinds]) (record_meets (.structDecl hk) ts)
      · exact body_takes hs (by simp [hk, bodyKinds]) (enumDecl_meets hk ts)
      · exact body_takes hs (by simp [hk, bodyKinds]) (record_meets (.unionDecl hk) ts)
      · rw [headKind_cons, hk] at hs
        exact simple_takes hs (by rw [hk]; decide) (variableDecl_meets hk ts)
      · rw [headKind_cons, hk] at hs
        exact simple_takes hs (by rw [hk]; decide) (variableDecl_meets hk ts)
      · exact simple_takes hs (by rw [hk]; decide) (usingDecl_meets hk ts)
      · rw [hs, spoiled_if_iff hk]
        exact Run.takes_skipping (by simp [hk, outerKinds])
          (Parsed.takes_map.2 (ih' ts (Nat.le_refl _)).ifElse)
      · rw [hs, spoiled_while_iff hk]
        exact Run.takes_skipping (by simp [hk, outerKinds]) (whileLoop_takes ih')
      · rw [hs, spoiled_do_iff hk]
        exact Run.takes_skipping (by simp [hk, outerKinds]) (doWhile_takes ih')
      · rw [hs, spoiled_for_iff hk]
        exact Run.takes_skipping (by simp [hk, outerKinds]) (forLoop_takes ih')
      · exact simple_takes hs (by rw [hk]; decide) (word_meets (.breakLoop hk) ts)
      · exact simple_takes hs (by rw [hk]; decide) (word_meets (.continueLoop hk) ts)
      · exact simple_takes hs (by rw [hk]; decide) (returnValue_meets hk ts)
      · exact simple_takes hs (by rw [hk]; decide) (free_meets hk ts)
      · exact body_takes hs (by simp [hk, bodyKinds]) (assembly_meets hk ts)

/-! ### Blocks -/

/-- What recovery skips behind a failed statement does not count. -/
theorem recover_taken {us : List Token} {r : Run Stmt us.length} {s : Prop}
    (hu : headKind us ∉ [.rBrace, .eof]) (h : r.outcome.Takes us s) :
    ∃ w, us = w ++ r.recover.rest ∧ Taken w r.recover.rest s := by
  obtain ⟨events, outcome⟩ := r
  obtain ⟨w, hw, ht⟩ := h
  cases outcome with
  | done value rest shorter => exact ⟨w, hw, ht⟩
  | failed failure rest within =>
    rw [Parsed.result_failed] at hw ht
    obtain ⟨v, hv, hs⟩ := synchronize_taken rest
    have hr : resume us rest = synchronize rest := by
      rw [hw]
      exact resume_eq_synchronize (hw ▸ hu)
    refine ⟨w ++ v, ?_, ?_⟩
    · change us = w ++ v ++ resume us rest
      rw [hr, List.append_assoc, ← hv, ← hw]
    · change Taken (w ++ v) (resume us rest) s
      rw [hr]
      rw [hv] at ht
      exact (ht.append hs).congr (by simp)

/-- The loop of a block at `ts` takes the closing brace `c` and leaves `rest`; what it has taken
before rises by nothing exactly if it is not spoiled. -/
structure EndsAtBrace (ts : List Token) (c : Token) (rest : List Token) : Prop where
  reaches : Reaches ts (c :: rest)
  kind : c.kind = .rBrace
  taken : ∃ v, ts = v ++ c :: rest ∧ Taken v (c :: rest) (LoopSpoiled ts)

/-- The loop of a block at `ts` finds the end of input at `rest`. -/
structure EndsAtEof (ts rest : List Token) : Prop where
  reaches : Reaches ts rest
  kind : headKind rest = .eof
  taken : ∃ v, ts = v ++ rest ∧ ∀ t ∈ v, t.kind ≠ .eof

section

variable {ts : List Token}

theorem blockTail_gives_of_rest {b : List Stmt} {rest : List Token}
    (h : (blockRest .standard (skipSemicolons ts)).outcome.Gives b rest) :
    (blockTail .standard ts).outcome.Gives b rest := by
  rw [blockTail, Parsed.Gives, Run.result_trimming]
  exact h

theorem blockTail_of_brace {c : Token} {rest : List Token}
    (hts : skipSemicolons ts = c :: rest) (hc : c.kind = .rBrace) :
    (blockTail .standard ts).outcome.Gives [] rest := by
  apply blockTail_gives_of_rest
  rw [hts, blockRest]
  simp [accept?_cons, hc, Parsed.Gives]

theorem blockTail_of_eof (h : headKind (skipSemicolons ts) = .eof) :
    (blockTail .standard ts).outcome.Gives [] (skipSemicolons ts) := by
  apply blockTail_gives_of_rest
  rw [blockRest, accept?_eq_none (by simp [h])]
  simp only [h, dif_pos]
  rfl

theorem blockTail_of_statement (h : headKind (skipSemicolons ts) ∉ [.rBrace, .eof])
    {b : List Stmt} {rest : List Token}
    (hb : (blockTail .standard (statement .standard (skipSemicolons ts)).recover.rest).outcome.Gives
      b rest) :
    (blockTail .standard ts).outcome.Gives
      ((statement .standard (skipSemicolons ts)).recover.statement?.toList ++ b) rest := by
  simp only [List.mem_cons, List.not_mem_nil, or_false, not_or] at h
  apply blockTail_gives_of_rest
  rw [blockRest, accept?_eq_none (by simp [h.1])]
  dsimp only
  rw [dif_neg h.2, Parsed.Gives, Run.outcome_loose, Parsed.result_loose, Recovered.andThen,
    Parsed.result_before]
  exact hb.map _

end

/-- The loop of a block ends at a closing brace or at the end of input. -/
theorem blockTail_ends (ts : List Token) (ih : ∀ us, us.length < ts.length → Braced us) :
    ∃ b rest, (blockTail .standard ts).outcome.Gives b rest ∧
      ((∃ c, EndsAtBrace ts c rest) ∨ EndsAtEof ts rest) := by
  obtain ⟨u, hu, hs⟩ := exists_skipSemicolons ts
  have hp : Plain u := fun t ht => plain_of_kind (hs t ht) (by decide)
  by_cases hb : headKind (skipSemicolons ts) = .rBrace
  · cases hts : skipSemicolons ts with
    | nil => simp [hts] at hb
    | cons c rest =>
      have hc : c.kind = .rBrace := by simpa [hts] using hb
      refine ⟨[], rest, blockTail_of_brace hts hc, .inl ⟨c, hts ▸ .here, hc, u, hts ▸ hu, ?_⟩⟩
      exact (hp.taken _).congr (iff_of_false id (not_loopSpoiled (by simp [hb])))
  · by_cases he : headKind (skipSemicolons ts) = .eof
    · exact ⟨[], _, blockTail_of_eof he, .inr ⟨.here, he, u, hu, hp.not_eof⟩⟩
    · have hn : headKind (skipSemicolons ts) ∉ [.rBrace, .eof] := by simp [hb, he]
      have hle := skipSemicolons_length_le ts
      have hlt := (statement .standard (skipSemicolons ts)).recover.progress he
      obtain ⟨w, hw, ht⟩ := recover_taken hn
        (statement_takes fun us h => ih us (Nat.lt_of_lt_of_le h hle))
      obtain ⟨b, rest, hg, hend⟩ := blockTail_ends
        (statement .standard (skipSemicolons ts)).recover.rest fun us h => ih us (by omega)
      refine ⟨_, rest, blockTail_of_statement hn hg, ?_⟩
      -- semicolons, the statement that was tried, and what the rest of the loop takes
      rcases hend with ⟨c, hr, hc, v, hv, hvt⟩ | ⟨hr, hk, v, hv, hve⟩
      · refine .inl ⟨c, .next hn hr, hc, u ++ (w ++ v), ?_, ?_⟩
        · rw [List.append_assoc, List.append_assoc, ← hv, ← hw]
          exact hu
        · rw [hv] at ht
          refine ((hp.taken _).append (ht.append hvt)).congr ?_
          rw [loopSpoiled_iff hn, false_or]
      · refine .inr ⟨.next hn hr, hk, u ++ (w ++ v), ?_, ?_⟩
        · rw [List.append_assoc, List.append_assoc, ← hv, ← hw]
          exact hu
        · have hue := hp.not_eof
          have hwe := ht.1
          grind
termination_by ts.length

theorem block_gives {o : Token} {ts : List Token} (ho : o.kind = .lBrace) {b : List Stmt}
    {rest : List Token} (h : (blockTail .standard ts).outcome.Gives b rest) :
    (block .standard (o :: ts)).outcome.Gives b rest := by
  rw [block, Run.outcome_andThen]
  exact (expect_cons ho ts).andThen fun _ => h

theorem block_takes {ts : List Token} (ih : ∀ us, us.length < ts.length → Braced us) :
    (block .standard ts).outcome.Takes ts (Spoiled (.block ts)) := by
  by_cases hk : headKind ts = .lBrace
  · cases ts with
    | nil => simp at hk
    | cons o us =>
      obtain ⟨b, rest, hb, hend⟩ := blockTail_ends us fun vs h => ih vs (Nat.lt_succ_of_lt h)
      have hres : (block .standard (o :: us)).outcome.result = (.ok b, rest) := block_gives hk hb
      rw [Parsed.Takes, hres, spoiled_block_iff hk]
      rcases hend with ⟨c, _, hc, v, rfl, hve, hv⟩ | ⟨_, he, v, rfl, hve⟩
      · rcases hv with hv | ⟨k, hv, hks⟩
        · simp [hc] at hv
        · refine ⟨o :: (v ++ [c]), by simp, ?_, .inr ⟨k, hv.braced hk hc, hks⟩⟩
          simp only [headKind_cons] at hk
          grind
      · refine ⟨o :: v, rfl, List.forall_mem_cons.2 ⟨?_, hve⟩, .inl he⟩
        simp only [headKind_cons] at hk
        simp [hk]
  · have hres : (block .standard ts).outcome.result.2 = ts := by
      rw [block, Run.outcome_andThen, Run.outcome_silent, expect,
        accept?_eq_none (by simpa using hk)]
      rfl
    rw [Parsed.Takes, hres]
    exact ⟨[], rfl, (plain_nil.taken _).congr (iff_of_false id (not_spoiled_block hk))⟩

theorem braced (ts : List Token) : Braced ts := by
  induction ts using tokens_induction with
  | step ts ih =>
    exact {
      statement := statement_takes ih
      ifElse := ifElse_takes ih
      block := block_takes ih }

/-- The loop of a block ends in one place. -/
theorem Reaches.unique {ts us vs : List Token} (hu : Reaches ts us) (hv : Reaches ts vs)
    (hus : headKind us ∈ [.rBrace, .eof]) (hvs : headKind vs ∈ [.rBrace, .eof]) : us = vs := by
  induction hu with
  | here =>
    cases hv with
    | here => rfl
    | next hn => exact absurd hus hn
  | next hn _ ih =>
    cases hv with
    | here => exact absurd hvs hn
    | next _ hv => exact ih hv hus

/-- A block that ends by taking a closing brace ends at the brace that matches its own, exactly if
no statement inside, at any depth, fails behind the brace that opens its body. -/
theorem block_matching_iff {o c : Token} {ts rest : List Token} (ho : o.kind = .lBrace)
    (hc : c.kind = .rBrace) (hr : Reaches ts (c :: rest)) :
    (∃ body, (block .standard (o :: ts)).outcome.Gives body rest) ∧
      (matching 0 ts = some (c :: rest) ↔ ¬ Spoiled (.block (o :: ts))) := by
  have hk : headKind (c :: rest) ∈ [.rBrace, .eof] := by simp [hc]
  obtain ⟨b, rest', hb, hend⟩ := blockTail_ends ts fun us _ => braced us
  rcases hend with ⟨c', hr', hc', v, hv, -, hrise⟩ | ⟨hr', he, -⟩
  · obtain ⟨rfl, rfl⟩ := List.cons.inj (hr.unique hr' hk (by simp [hc']))
    refine ⟨⟨b, block_gives ho hb⟩, ?_⟩
    rcases hrise with he | ⟨k, hrise, hks⟩
    · simp [hc] at he
    · rw [hv, hrise.matching_iff hc, hks, spoiled_block_iff ho, hv]
  · rw [← hr.unique hr' hk (by simp [he]), headKind_cons, hc] at he
    cases he

def nameToken (text : String) : Token := ⟨.identifier, text, .null⟩

/-- Behind the brace that opens it, a block with a loop in it, whose statement fails, and a
statement: `while a { let x y ; } b ; }`. -/
def loopTokens : List Token := [
  bareToken .kwWhile, nameToken "a", bareToken .lBrace, bareToken .kwLet, nameToken "x",
  nameToken "y", bareToken .semicolon, bareToken .rBrace, nameToken "b", bareToken .semicolon,
  bareToken .rBrace]

theorem block_matching_loopTokens :
    Reaches loopTokens [bareToken .rBrace] ∧
      (matching 0 loopTokens = some [bareToken .rBrace] ↔
        ¬ Spoiled (.block (bareToken .lBrace :: loopTokens))) := by
  have hloop : (statement .standard loopTokens).recover.rest = loopTokens.drop 8 := by
    decide +kernel
  have hname : (statement .standard (loopTokens.drop 8)).recover.rest = loopTokens.drop 10 := by
    decide +kernel
  have hr : Reaches loopTokens [bareToken .rBrace] := by
    refine .next (by decide) ?_
    change Reaches (statement .standard loopTokens).recover.rest _
    rw [hloop]
    refine .next (by decide) ?_
    change Reaches (statement .standard (loopTokens.drop 8)).recover.rest _
    rw [hname]
    exact .here
  exact ⟨hr, (block_matching_iff rfl rfl hr).2⟩

/-- A function whose first statement fails in the body of a struct:
`func f ( ) { struct S { x y } a ; }`. -/
def brokenTokens : List Token := [
  bareToken .kwFunc, nameToken "f", bareToken .lParen, bareToken .rParen, bareToken .lBrace,
  bareToken .kwStruct, nameToken "S", bareToken .lBrace, nameToken "x", nameToken "y",
  bareToken .rBrace, nameToken "a", bareToken .semicolon, bareToken .rBrace]

/-- The block of the function ends at the brace of the struct, and the statement behind it is read
outside of the function. -/
theorem brokenTokens_not_matching :
    ∃ c rest, Called brokenTokens (.block (brokenTokens.drop 4)) ∧
      Reaches (brokenTokens.drop 5) (c :: rest) ∧ c.kind = .rBrace ∧
      matching 0 (brokenTokens.drop 5) ≠ some (c :: rest) ∧
      (parse brokenTokens).1 =
        [.functionDecl none "f" [] (.path "void" []) [], .expression (.identifier "a")] := by
  have hcalled : Called brokenTokens (.block (brokenTokens.drop 4)) :=
    .call (.here (by decide)) (.functionBody rfl
      (show (signature (brokenTokens.drop 1)).Gives
        (.functionDecl none "f" [] (.path "void" [])) (brokenTokens.drop 4) from rfl))
  have hstruct : (statement .standard (brokenTokens.drop 5)).recover.rest =
      brokenTokens.drop 10 := by decide +kernel
  have hr : Reaches (brokenTokens.drop 5) (brokenTokens.drop 10) := by
    refine .next (by decide) ?_
    change Reaches (statement .standard (brokenTokens.drop 5)).recover.rest _
    rw [hstruct]
    exact .here
  exact ⟨_, _, hcalled, hr, rfl, by decide, by with_unfolding_all rfl⟩

end FrontEnd.Grammar
