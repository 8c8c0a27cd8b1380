import FrontEnd.Grammar.Session
import FrontEnd.Proofs.Account.Cause
import FrontEnd.Proofs.Independence
import FrontEnd.Proofs.Parallel.Phrase
import FrontEnd.Proofs.Phrase.Soundness

/-!
Where expressions and types are blamed. The tokens in front of the blamed token begin an expression
or a type, and no list that has these tokens and the blamed one can be read: the blamed token is the
first that rules reading out.
-/

set_option autoImplicit false

namespace FrontEnd.Grammar

/-! ### Lists that agree, by index -/

section

variable {x y : List Token}

/-- At the point where the first list ends its agreement, so does the second. -/
theorem Alike.eq_right {us : List Token} (h : Alike x y x us) : us = y := by
  generalize hts : x = ts at h
  cases h with
  | stop => rfl
  | cons _ h =>
    have hl := h.le_length
    rw [List.length_cons] at hl
    omega

theorem Trail.causes_eq {ts us ts' us' : List Token} {fs gs : List Failure}
    (h : Trail x y ts us fs gs ts' us') : fs.map Failure.cause = gs.map Failure.cause := by
  induction h with
  | nil => rfl
  | cons _ _ _ ih => exact congrArg (_ :: ·) ih

/-- Lists whose tokens agree up to an index are alike up to there, unless the input ends before. -/
theorem alike_drop {n : Nat} {ts us : List Token} (hn : n ≤ ts.length)
    (he : ∀ t ∈ ts.take n, t.kind ≠ .eof)
    (h : ∀ k ≤ n, SameHead (ts.drop k) (us.drop k)) : Alike (ts.drop n) (us.drop n) ts us := by
  induction n generalizing ts us with
  | zero => exact .stop (h 0 (Nat.le_refl _))
  | succ n ih =>
    cases ts with
    | nil => simp at hn
    | cons t ts =>
      rw [List.take_succ_cons, List.forall_mem_cons] at he
      have hhead : SameHead (t :: ts) us := h 0 (Nat.zero_le _)
      cases hhead with
      | stop ht _ => exact absurd ht he.1
      | @cons _ u _ us hw =>
        have hn' : n ≤ ts.length := by simpa using hn
        exact .cons hw (ih hn' he.2 fun k hk => h (k + 1) (by omega))

end

/-! ### Readers that fail early -/

/-- A reader that fails only at the token to blame, behind tokens that can be completed, and that
does the same on lists that agree. -/
structure Predictive {α : Type} (read : (ts : List Token) → Parsed α ts.length) : Prop where
  halts (ts : List Token) : (read ts).Halts
  completed {ts rest : List Token} {failure : Failure} :
    (read ts).result = (.error failure, rest) →
    ∃ w u value, ts = w ++ rest ∧ (∀ t ∈ w, t.kind ≠ .eof) ∧ (read (w ++ u)).Gives value []
  parallel {x y ts us : List Token} :
    Alike x y ts us → (read ts).Parallel x y Eq ts us (read us)

/-- What is read as the grammar derives it can be completed where it fails. -/
theorem predictive_of_reads {p : Phrase} {read : (ts : List Token) → Parsed p.Tree ts.length}
    (hp : p.Proper) (halts : ∀ ts, (read ts).Halts) (hs : ∀ ts, p.Reads [] ts (read ts))
    (hr : ∀ w e, Derives p w e → (read (w ++ [])).Gives e [])
    (parallel : ∀ {x y ts us}, Alike x y ts us → (read ts).Parallel x y Eq ts us (read us)) :
    Predictive read where
  halts := halts
  parallel := parallel
  completed {ts rest failure} hf := by
    obtain ⟨w, hts, hv⟩ := (hs ts).of_fails hf
    have hplain := hv.plain hp
    obtain ⟨u, e, hd⟩ := hv
    have hg := hr (w ++ u) e hd
    rw [List.append_nil] at hg
    exact ⟨w, u, e, hts, hplain.not_eof, hg⟩

theorem assignment_predictive : Predictive assignment :=
  predictive_of_reads (p := .assignment) trivial (fun ts => (halting ts).assignment)
    (fun ts => (sound ts).assignment) (fun w e h => h.isRead [] (by decide))
    fun h => h.abreast.assignment

theorem typeExpr_predictive : Predictive typeExpr :=
  predictive_of_reads (p := .typeExpr) trivial (fun ts => (halting ts).typeExpr)
    (fun ts => (sound ts).typeExpr) (fun w t h => h.isRead [] (by decide))
    fun h => h.abreast.typeExpr

namespace Predictive

variable {α β : Type} {read : (ts : List Token) → Parsed α ts.length}

theorem map (h : Predictive read) (f : α → β) : Predictive fun ts => (read ts).map f where
  halts ts := Parsed.fails_map.2 (h.halts ts)
  completed {ts rest failure} hf := by
    have hread : (read ts).result = (.error failure, rest) := by
      cases hr : read ts with
      | done value rest' shorter => simp [hr, Parsed.map] at hf
      | failed failure' rest' within => simpa [hr, Parsed.map] using hf
    obtain ⟨w, u, value, hts, he, hg⟩ := h.completed hread
    exact ⟨w, u, f value, hts, he, hg.map f⟩
  parallel ha := Parsed.parallel_map (h.parallel ha) fun _ _ hab => congrArg f hab

/-- On a list that agrees up to the blamed token, reading fails there for the same cause. -/
theorem fails_alike (h : Predictive read) {ts us rest y : List Token} {failure : Failure}
    (hf : (read ts).result = (.error failure, rest)) (ha : Alike rest y ts us) :
    (read us).result = (.error (.here failure.cause y), y) := by
  have hp := h.parallel ha
  have hagree := hp (Nat.le_of_eq (by rw [Run.outcome_silent, hf]))
  rw [Run.outcome_silent, Run.outcome_silent, hf] at hagree
  generalize hq : (read us).result = q at hagree
  cases hagree with
  | failure ht =>
    rename_i g us'
    have hcause : failure.cause = g.cause := by simpa using ht.causes_eq
    obtain ⟨cause, rfl, -⟩ := h.halts us g us' hq
    rw [hcause, ← ht.inStep.alike.eq_right]
    rfl

/-- Where a predictive reader fails, by index. -/
theorem fails_at (h : Predictive read) {ts rest : List Token} {failure : Failure}
    (hf : (read ts).result = (.error failure, rest)) :
    ∃ n ≤ ts.length, rest = ts.drop n ∧ failure = .here failure.cause rest ∧
      (∃ u value, (read (ts.take n ++ u)).Gives value []) ∧
      ∀ us : List Token, (∀ k ≤ n, SameHead (ts.drop k) (us.drop k)) →
        (read us).result = (.error (.here failure.cause (us.drop n)), us.drop n) := by
  obtain ⟨w, u, value, rfl, he, hg⟩ := h.completed hf
  have hdrop : (w ++ rest).drop w.length = rest := List.drop_left
  have htake : (w ++ rest).take w.length = w := List.take_left
  have hlength : w.length ≤ (w ++ rest).length := by simp
  refine ⟨w.length, hlength, hdrop.symm, ?_, ⟨u, value, htake.symm ▸ hg⟩, ?_⟩
  · obtain ⟨cause, rfl, -⟩ := h.halts _ _ _ hf
    rfl
  · intro us hus
    have ha := alike_drop hlength (htake.symm ▸ he) hus
    rw [hdrop] at ha
    exact h.fails_alike hf ha

end Predictive

/-! ### At the cursor -/

/-- The rules that read an expression and that read a type. -/
def phraseRules : List Rule := [.expression (.level .assignment), .typeName .any]

namespace Session

/-- A reader that leaves no trail moves the cursor and nothing else. -/
theorem take_silent {α : Type} (s : Session) (p : Parsed α s.ahead.length) :
    s.take (.silent p) =
      (p.result.1.mapError (Failure.diagnostic s.stop), { s with ahead := p.result.2 }) := by
  have habsorb : ∀ rest, s.absorb [] rest = { s with ahead := rest } := by simp [absorb]
  cases p with
  | done value rest shorter => exact Prod.ext rfl (habsorb rest)
  | failed failure rest within => exact Prod.ext rfl (habsorb rest)

/-- Expressions and types are read by predictive readers, and nothing is recorded. -/
theorem exists_predictive {rule : Rule} (h : rule ∈ phraseRules) :
    ∃ read : (ts : List Token) → Parsed Stmt ts.length, Predictive read ∧
      ∀ s : Session, s.byRule rule = s.take (.silent (read s.ahead)) := by
  simp only [phraseRules, List.mem_cons, List.not_mem_nil, or_false] at h
  rcases h with rfl | rfl
  · refine ⟨_, assignment_predictive.map .expression, fun s => ?_⟩
    simp only [byRule, Grammar.byRule]
    rfl
  · refine ⟨_, typeExpr_predictive.map .typeName, fun s => ?_⟩
    simp only [byRule, Grammar.byRule]
    rfl

theorem diagnostic_here (s : Session) (cause : Cause) (j : Nat) :
    (Failure.here cause (s.tokens.drop j)).diagnostic s.stop =
      diagnosticAt s.tokens (cause, j) := by
  rw [Failure.here, List.head?_drop]
  rfl

/-- An expression or a type that cannot be read is blamed on the first token that rules it out:
the tokens before it can be completed, and behind any tokens that agree with it and with those
before it, reading fails at the same place for the same cause. -/
theorem byRule_fails_at_first {s s' : Session} {i : Nat} {rule : Rule} {d : Diagnostic}
    (hrule : rule ∈ phraseRules) (hs : s.ahead = s.tokens.drop i)
    (h : s.byRule rule = (.error d, s')) :
    ∃ j, i ≤ j ∧ s' = { s with ahead := s.tokens.drop j } ∧
      d = diagnosticAt s.tokens (d.cause, j) ∧
      (∃ u statement, (ofTokens ((s.tokens.drop i).take (j - i) ++ u)).byRule rule =
        (.ok statement, { ofTokens ((s.tokens.drop i).take (j - i) ++ u) with ahead := [] })) ∧
      ∀ r : Session, r.ahead = r.tokens.drop i →
        (∀ k, i ≤ k → k ≤ j → SameHead (s.tokens.drop k) (r.tokens.drop k)) →
        r.byRule rule =
          (.error (diagnosticAt r.tokens (d.cause, j)), { r with ahead := r.tokens.drop j }) := by
  obtain ⟨read, hread, hby⟩ := exists_predictive hrule
  rw [hby, take_silent, Prod.mk.injEq] at h
  obtain ⟨hd, rfl⟩ := h
  cases hf : (read s.ahead).result with
  | mk result rest =>
    rw [hf] at hd
    cases result with
    | ok value => cases hd
    | error failure =>
      obtain rfl : failure.diagnostic s.stop = d := Except.error.inj hd
      obtain ⟨n, -, hrest, hhere, ⟨u, value, hg⟩, hothers⟩ := hread.fails_at hf
      rw [hs] at hrest hg hothers
      rw [List.drop_drop] at hrest
      refine ⟨i + n, Nat.le_add_right i n, ?_, ?_, ⟨u, value, ?_⟩, ?_⟩
      · rw [hrest]
      · rw [hhere, hrest]
        exact s.diagnostic_here _ _
      · rw [Nat.add_sub_cancel_left, hby, take_silent]
        have hg' : (read (ofTokens ((s.tokens.drop i).take n ++ u)).ahead).result =
          (.ok value, []) := hg
        rw [hg']
        rfl
      · intro r hr hsame
        have hagree : ∀ k ≤ n, SameHead ((s.tokens.drop i).drop k) ((r.tokens.drop i).drop k) := by
          intro k hk
          rw [List.drop_drop, List.drop_drop]
          exact hsame (i + k) (by omega) (by omega)
        have hfails := hothers (r.tokens.drop i) hagree
        rw [List.drop_drop, ← hr] at hfails
        rw [hby, take_silent, hfails, ← r.diagnostic_here]
        rfl

/-- A call behind a semicolon, without its second argument: `; f(null, }`. -/
def callTokens : List Token :=
  [bareToken .semicolon, bareToken .identifier, bareToken .lParen, bareToken .kwNull,
    bareToken .comma, bareToken .rBrace]

theorem byRule_fails_at_first_callTokens :
    (⟨callTokens, callTokens.drop 1, .standard, [], []⟩ : Session).byRule
        (.expression (.level .assignment)) =
      (.error ⟨.expectedPrimaryExpression .rBrace, .null⟩,
        ⟨callTokens, callTokens.drop 5, .standard, [], []⟩) ∧
    ∀ rest, (⟨callTokens ++ rest, callTokens.drop 1 ++ rest, .standard, [], []⟩ : Session).byRule
        (.expression (.level .assignment)) =
      (.error ⟨.expectedPrimaryExpression .rBrace, .null⟩,
        ⟨callTokens ++ rest, callTokens.drop 5 ++ rest, .standard, [], []⟩) := by
  have h : (⟨callTokens, callTokens.drop 1, .standard, [], []⟩ : Session).byRule
      (.expression (.level .assignment)) =
    (.error ⟨.expectedPrimaryExpression .rBrace, .null⟩,
      ⟨callTokens, callTokens.drop 5, .standard, [], []⟩) := by
    with_unfolding_all rfl
  refine ⟨h, fun rest => ?_⟩
  obtain ⟨j, -, hs, -, -, hothers⟩ := byRule_fails_at_first (i := 1) (by decide) rfl h
  obtain rfl : j = 5 := by
    have hlength := congrArg (fun s : Session => s.ahead.length) hs
    simp only [List.length_drop, callTokens, List.length_cons, List.length_nil] at hlength
    omega
  refine hothers _ rfl fun k _ hk => ?_
  have hlt : k < callTokens.length := Nat.lt_succ_of_le hk
  rw [List.drop_append_of_le_length (Nat.le_of_lt hlt), List.drop_eq_getElem_cons hlt]
  exact .cons ⟨rfl, rfl⟩

end Session

end FrontEnd.Grammar
