import FrontEnd.Proofs.Composition
import FrontEnd.Proofs.Parallel.Clause

/-!
A statement that fails does not disturb its neighbours. Tokens without braces, parentheses, commas
and semicolons, up to a semicolon, come to one statement or to one diagnostic, and the tokens
behind the semicolon are read as if nothing had been before them. A `for` is left out, because it
reads on behind its first semicolon.
-/

set_option autoImplicit false

namespace FrontEnd.Grammar

/-- No token is one at which recovery stops. -/
def Inner (w : List Token) : Prop :=
  ∀ t ∈ w, t.kind ∉ [.semicolon, .lBrace, .rBrace, .lParen, .rParen, .comma, .eof]

theorem Inner.of_suffix {u w : List Token} (hw : Inner w) (h : u <:+ w) : Inner u :=
  fun t ht => hw t (h.subset ht)

theorem Inner.head_ne {t : Token} {w : List Token} (hw : Inner (t :: w)) {kind : TokenKind}
    (hk : kind ∈ [.semicolon, .lBrace, .rBrace, .lParen, .rParen, .comma, .eof]) :
    t.kind ≠ kind := fun h => hw t (List.mem_cons_self ..) (h ▸ hk)

/-- Neither tokens of `w` nor the semicolon behind them open a body. -/
theorem Inner.headKind_ne {w rest : List Token} {s : Token} (hw : Inner w)
    (hs : s.kind = .semicolon) {kind : TokenKind} (hk : kind ∈ [.lBrace, .lParen, .eof]) :
    headKind (w ++ s :: rest) ≠ kind := by
  cases w with
  | nil =>
    rintro rfl
    simp [hs] at hk
  | cons t w =>
    have hd : ∀ kind ∈ [.lBrace, .lParen, .eof],
        kind ∈ [.semicolon, .lBrace, .rBrace, .lParen, .rParen, .comma, TokenKind.eof] := by decide
    exact hw.head_ne (hd kind hk)

/-! ### Where reading stops -/

namespace Parsed

variable {α β : Type} {n : Nat} {w rest : List Token} {s : Token}

/-- Whatever comes of it, reading stops in `w` or behind it, in front of `x`. -/
def Within (p : Parsed α n) (w x : List Token) : Prop := ∃ u, u <:+ w ∧ p.result.2 = u ++ x

/-- A value ends with the semicolon `s`, and a failure stops in front of it. -/
def Ends (p : Parsed α n) (w : List Token) (s : Token) (rest : List Token) : Prop :=
  match p.result with
  | (.ok _, left) => left = rest
  | (.error _, left) => ∃ u, u <:+ w ∧ left = u ++ s :: rest

/-- Nothing is read. -/
def Refuses (p : Parsed α n) (ts : List Token) : Prop := ∃ f, p.result = (.error f, ts)

theorem Refuses.within {p : Parsed α n} {x : List Token} (h : p.Refuses (w ++ x)) :
    p.Within w x := by
  obtain ⟨f, hf⟩ := h
  exact ⟨w, List.suffix_rfl, by rw [hf]⟩

theorem Refuses.ends {p : Parsed α n} (h : p.Refuses (w ++ s :: rest)) : p.Ends w s rest := by
  obtain ⟨f, hf⟩ := h
  rw [Ends, hf]
  exact ⟨w, List.suffix_rfl, rfl⟩

theorem Refuses.andThen {p : Parsed α n} {ts : List Token} (h : p.Refuses ts)
    (next : (value : α) → (rest : List Token) → rest.length < n → Parsed β (rest.length + 1)) :
    (p.andThen next).Refuses ts := by
  obtain ⟨f, hf⟩ := h
  cases p with
  | done a left shorter => simp at hf
  | failed g left within =>
    simp only [result_failed, Prod.mk.injEq, Except.error.injEq] at hf
    exact ⟨g, by rw [← hf.2]; rfl⟩

theorem Refuses.chain {p : Parsed α n} {ts : List Token} (h : p.Refuses ts)
    (next : (value : α) → (rest : List Token) → rest.length < n → Parsed β rest.length) :
    (p.chain next).Refuses ts := h.andThen _

theorem within_map {p : Parsed α n} {x : List Token} (f : α → β) (h : p.Within w x) :
    (p.map f).Within w x := by
  rwa [Within, result_map_snd]

theorem within_andThen {p : Parsed α n} {x : List Token}
    {next : (value : α) → (rest : List Token) → rest.length < n → Parsed β (rest.length + 1)}
    (hp : p.Within w x) (hn : ∀ a u h, u <:+ w → (next a (u ++ x) h).Within u x) :
    (p.andThen next).Within w x := by
  obtain ⟨u, hu, hx⟩ := hp
  cases p with
  | failed f left within => exact ⟨u, hu, hx⟩
  | done a left shorter =>
    obtain rfl : left = u ++ x := hx
    obtain ⟨v, hv, hr⟩ := hn a u shorter hu
    exact ⟨v, hv.trans hu, by rw [Parsed.andThen, result_before, hr]⟩

theorem within_chain {p : Parsed α n} {x : List Token}
    {next : (value : α) → (rest : List Token) → rest.length < n → Parsed β rest.length}
    (hp : p.Within w x) (hn : ∀ a u h, u <:+ w → (next a (u ++ x) h).Within u x) :
    (p.chain next).Within w x := by
  refine within_andThen hp ?_
  intro a u h hu
  rw [Within, result_loose]
  exact hn a u h hu

theorem ends_map {p : Parsed α n} (f : α → β) (h : p.Ends w s rest) :
    (p.map f).Ends w s rest := by
  cases p <;> exact h

theorem ends_andThen {p : Parsed α n}
    {next : (value : α) → (rest : List Token) → rest.length < n → Parsed β (rest.length + 1)}
    (hp : p.Within w (s :: rest))
    (hn : ∀ a u h, u <:+ w → (next a (u ++ s :: rest) h).Ends u s rest) :
    (p.andThen next).Ends w s rest := by
  obtain ⟨u, hu, hx⟩ := hp
  cases p with
  | failed f left within => exact ⟨u, hu, hx⟩
  | done a left shorter =>
    obtain rfl : left = u ++ s :: rest := hx
    have h := hn a u shorter hu
    rw [Ends, Parsed.andThen, result_before]
    unfold Ends at h
    split at h
    · exact h
    · obtain ⟨v, hv, hr⟩ := h
      exact ⟨v, hv.trans hu, hr⟩

theorem ends_chain {p : Parsed α n}
    {next : (value : α) → (rest : List Token) → rest.length < n → Parsed β rest.length}
    (hp : p.Within w (s :: rest))
    (hn : ∀ a u h, u <:+ w → (next a (u ++ s :: rest) h).Ends u s rest) :
    (p.chain next).Ends w s rest := by
  refine ends_andThen hp ?_
  intro a u h hu
  rw [Ends, result_loose]
  exact hn a u h hu

end Parsed

theorem Parsed.option_within {α : Type} {ts w x : List Token} (hts : ts = w ++ x)
    (front? : Option (Front ts)) (a : α) (next : Front ts → Parsed α ts.length)
    (hn : ∀ front, front? = some front → (next front).Within w x) :
    (match front? with
      | none => stay a ts
      | some front => (next front).loose).Within w x := by
  cases front? with
  | none => exact ⟨w, List.suffix_rfl, hts⟩
  | some front =>
    rw [Within, result_loose]
    exact hn front rfl

theorem Front.within_chain {α : Type} {ts u w x : List Token} {front : Front ts} (hu : u <:+ w)
    (hr : front.rest = u ++ x)
    {next : (t : Token) → (rest : List Token) → rest.length < ts.length → Parsed α rest.length}
    (hn : ∀ t h, (next t (u ++ x) h).Within u x) : (front.chain next).Within w x := by
  obtain ⟨t, left, shorter⟩ := front
  obtain rfl : left = u ++ x := hr
  obtain ⟨v, hv, h⟩ := hn t shorter
  exact ⟨v, hv.trans hu, by rw [Front.result_chain, h]⟩

theorem expect_refuses {kind : TokenKind} {ts : List Token} (h : headKind ts ≠ kind) :
    (expect kind ts).Refuses ts := by
  rw [expect, accept?_eq_none (by simpa using h)]
  exact ⟨_, rfl⟩

/-! ### Readers in front of a semicolon -/

section

variable {w rest : List Token} {s : Token} (hs : s.kind = .semicolon)

include hs

/-- Tokens that are taken without a semicolon among them are tokens of `w`. -/
theorem Parsed.within_of_meets {α : Type} {n : Nat} {p : Parsed α n}
    {good : List Token → α → List Token → Prop} {bad : List Token → Prop}
    (h : p.Meets (w ++ s :: rest) good bad)
    (hg : ∀ v a r, good v a r → ∀ t ∈ v, t.kind ≠ .semicolon)
    (hb : ∀ v, bad v → ∀ t ∈ v, t.kind ≠ .semicolon) : p.Within w (s :: rest) := by
  have key : ∀ v left, w ++ s :: rest = v ++ left → (∀ t ∈ v, t.kind ≠ .semicolon) →
      ∃ u, u <:+ w ∧ left = u ++ s :: rest := by
    intro v left hv hk
    rcases List.append_eq_append_iff.1 hv with ⟨a, rfl, ha⟩ | ⟨u, rfl, hu⟩
    · cases a with
      | nil => exact ⟨[], List.nil_suffix, ha.symm⟩
      | cons t a =>
        obtain ⟨rfl, -⟩ := List.cons.inj ha
        exact absurd hs (hk s (by simp))
    · exact ⟨u, ⟨v, rfl⟩, hu⟩
  unfold Parsed.Meets at h
  unfold Parsed.Within
  split at h <;> rename_i hr <;> rw [hr] <;> obtain ⟨v, hv, hk⟩ := h
  · exact key v _ hv (hg v _ _ hk)
  · exact key v _ hv (hb v hk)

theorem Phrase.Reads.within {p : Phrase} {n : Nat} {q : Parsed p.Tree n} (hp : p.Proper)
    (h : p.Reads [] (w ++ s :: rest) q) : q.Within w (s :: rest) := by
  have hk : ∀ kind ∈ Phrase.kinds, kind ≠ .semicolon := by decide
  refine Parsed.within_of_meets hs h ?_ ?_
  · intro v e _ he t ht
    exact hk _ (he.1.kind_mem hp t ht)
  · rintro v ⟨u, e, he⟩ t ht
    exact hk _ (he.kind_mem hp t (List.mem_append_left u ht))

theorem assignment_within (w rest : List Token) :
    (assignment (w ++ s :: rest)).Within w (s :: rest) :=
  Phrase.Reads.within (p := .assignment) hs trivial (sound _).assignment

theorem access_within (w rest : List Token) :
    (access (w ++ s :: rest)).Within w (s :: rest) :=
  Phrase.Reads.within (p := .access) hs trivial (sound _).access

theorem typeExpr_within (w rest : List Token) :
    (typeExpr (w ++ s :: rest)).Within w (s :: rest) :=
  Phrase.Reads.within (p := .typeExpr) hs trivial (sound _).typeExpr

theorem path_within (w rest : List Token) : (path (w ++ s :: rest)).Within w (s :: rest) := by
  have hk : ∀ kind ∈ Phrase.kinds, kind ≠ .semicolon := by decide
  refine Parsed.within_of_meets hs (path_meets _) ?_ ?_
  · intro v names _ hn t ht
    exact hk _ (hn.kind_mem t ht)
  · rintro v ⟨u, head, tail, hn⟩ t ht
    exact hk _ (hn.kind_mem t (List.mem_append_left u ht))

theorem expect_within {kind : TokenKind} (hk : kind ≠ .semicolon) (w rest : List Token) :
    (expect kind (w ++ s :: rest)).Within w (s :: rest) := by
  refine Parsed.within_of_meets hs (expect_takes kind _) ?_ ?_
  · rintro _ t _ ⟨rfl, ht⟩
    simpa [ht] using hk
  · rintro _ rfl
    simp

/-- A token that is found is one of `w`. -/
theorem exists_front_rest {kind : TokenKind} (hk : kind ≠ .semicolon)
    {front : Front (w ++ s :: rest)} (hf : accept? [kind] (w ++ s :: rest) = some front) :
    ∃ u, u <:+ w ∧ front.rest = u ++ s :: rest := by
  obtain ⟨hts, ht⟩ := accept?_eq_some hf
  cases w with
  | nil =>
    have hst : s = front.token := (List.cons.inj hts).1
    exact absurd (by simpa [← hst, hs] using ht) hk.symm
  | cons t w => exact ⟨w, List.suffix_cons t w, (List.cons.inj hts).2.symm⟩

/-- In front of the semicolon, every other token is refused. -/
theorem semicolon_ends (hw : Inner w) : (expect .semicolon (w ++ s :: rest)).Ends w s rest := by
  cases w with
  | nil => rw [List.nil_append, Parsed.Ends, expect_cons hs rest]
  | cons t w =>
    have ht : headKind (t :: w ++ s :: rest) ≠ .semicolon := hw.head_ne (by decide)
    exact (expect_refuses ht).ends

theorem terminated_ends {α : Type} {n : Nat} {p : Parsed α n} (hw : Inner w)
    (h : p.Within w (s :: rest)) : (terminated p).Ends w s rest := by
  refine Parsed.ends_chain h ?_
  intro a u _ hu
  exact Parsed.ends_map _ (semicolon_ends hs (hw.of_suffix hu))

theorem typed_within (w rest : List Token) : (typed (w ++ s :: rest)).Within w (s :: rest) := by
  refine Parsed.within_chain (expect_within hs (by decide) w rest) ?_
  intro n u _ _
  refine Parsed.within_chain (expect_within hs (by decide) u rest) ?_
  intro c u _ _
  exact Parsed.within_map _ (typeExpr_within hs u rest)

theorem initializer_within (w rest : List Token) :
    (initializer (w ++ s :: rest)).Within w (s :: rest) := by
  refine Parsed.option_within rfl _ _ _ ?_
  intro front hf
  obtain ⟨u, hu, hr⟩ := exists_front_rest hs (by decide) hf
  exact front.within_chain hu hr fun _ _ => Parsed.within_map _ (assignment_within hs u rest)

theorem localName_within (w rest : List Token) :
    (localName (w ++ s :: rest)).Within w (s :: rest) := by
  refine Parsed.option_within rfl _ _ _ ?_
  intro front hf
  obtain ⟨u, hu, hr⟩ := exists_front_rest hs (by decide) hf
  exact front.within_chain hu hr fun _ _ =>
    Parsed.within_map _ (expect_within hs (by decide) u rest)

theorem ownedName_within (w rest : List Token) :
    (ownedName (w ++ s :: rest)).Within w (s :: rest) := by
  refine Parsed.within_andThen (expect_within hs (by decide) w rest) ?_
  intro n u _ _
  refine Parsed.option_within rfl _ _ _ ?_
  intro front hf
  obtain ⟨v, hv, hr⟩ := exists_front_rest hs (by decide) hf
  exact front.within_chain hv hr fun _ _ =>
    Parsed.within_map _ (expect_within hs (by decide) v rest)

end

/-! ### Statements in front of a semicolon -/

section

variable {w rest : List Token} {s : Token} (hs : s.kind = .semicolon) (hw : Inner w)

include hs hw

theorem variableDecl_ends (constant : Bool) :
    (variableDecl constant (w ++ s :: rest)).Ends w s rest := by
  refine terminated_ends hs hw (Parsed.within_andThen (typed_within hs w rest) ?_)
  intro a u _ _
  exact Parsed.within_map _ (initializer_within hs u rest)

theorem usingDecl_ends : (usingDecl (w ++ s :: rest)).Ends w s rest := by
  refine terminated_ends hs hw (Parsed.within_andThen (expect_within hs (by decide) w rest) ?_)
  intro n u _ _
  exact Parsed.within_map _ (localName_within hs u rest)

theorem word_ends (statement : Stmt) : (word statement (w ++ s :: rest)).Ends w s rest :=
  Parsed.ends_map _ (semicolon_ends hs hw)

theorem returnValue_ends : (returnValue (w ++ s :: rest)).Ends w s rest := by
  cases w with
  | nil => rw [List.nil_append, Parsed.Ends, returnNothing_gives hs rest]
  | cons t w =>
    have ht : headKind (t :: w ++ s :: rest) ∉ [.semicolon] := by
      simpa using hw.head_ne (by decide)
    rw [returnValue, accept?_eq_none ht]
    exact Parsed.ends_map _ (terminated_ends hs hw (assignment_within hs (t :: w) rest))

theorem free_ends : (free (w ++ s :: rest)).Ends w s rest :=
  Parsed.ends_map _ (terminated_ends hs hw (access_within hs w rest))

theorem expressionStmt_ends : (expressionStmt (w ++ s :: rest)).Ends w s rest :=
  Parsed.ends_map _ (terminated_ends hs hw (assignment_within hs w rest))

theorem record_ends (make : String → List Field → Stmt) :
    (record make (w ++ s :: rest)).Ends w s rest := by
  refine Parsed.ends_chain (expect_within hs (by decide) w rest) ?_
  intro n u _ hu
  exact ((expect_refuses ((hw.of_suffix hu).headKind_ne hs (by decide))).chain _).ends

theorem enumDecl_ends : (enumDecl (w ++ s :: rest)).Ends w s rest := by
  refine Parsed.ends_chain (expect_within hs (by decide) w rest) ?_
  intro n u _ hu
  exact ((expect_refuses ((hw.of_suffix hu).headKind_ne hs (by decide))).andThen _).ends

theorem assembly_ends : (assembly (w ++ s :: rest)).Ends w s rest :=
  ((expect_refuses (hw.headKind_ne hs (by decide))).chain _).ends

theorem signature_within : (signature (w ++ s :: rest)).Within w (s :: rest) := by
  refine Parsed.within_chain (ownedName_within hs w rest) ?_
  intro name u _ hu
  exact ((expect_refuses ((hw.of_suffix hu).headKind_ne hs (by decide))).chain _).within

end

/-! ### Statements with blocks in front of a semicolon -/

namespace Run

variable {α β : Type} {n : Nat} {w rest : List Token} {s : Token}

/-- No failure is recorded, a value ends with the semicolon, and a failure stops in front of it. -/
structure Ends (r : Run α n) (w : List Token) (s : Token) (rest : List Token) : Prop where
  faults : faults r.events = []
  outcome : r.outcome.Ends w s rest

/-- Nothing is read, and no failure is recorded. -/
structure Refuses (r : Run α n) (ts : List Token) : Prop where
  faults : Grammar.faults r.events = []
  outcome : r.outcome.Refuses ts

theorem Refuses.ends {r : Run α n} (h : r.Refuses (w ++ s :: rest)) : r.Ends w s rest :=
  ⟨h.faults, h.outcome.ends⟩

theorem Refuses.andThen {r : Run α n} {ts : List Token} (h : r.Refuses ts)
    (next : (value : α) → (rest : List Token) → rest.length < n → Run β (rest.length + 1)) :
    (r.andThen next).Refuses ts := by
  refine ⟨?_, by rw [outcome_andThen]; exact h.outcome.andThen _⟩
  obtain ⟨events, outcome⟩ := r
  obtain ⟨hf, g, hg⟩ := h
  cases outcome with
  | done a left shorter => simp at hg
  | failed g' left within => exact hf

theorem Refuses.chain {r : Run α n} {ts : List Token} (h : r.Refuses ts)
    (next : (value : α) → (rest : List Token) → rest.length < n → Run β rest.length) :
    (r.chain next).Refuses ts := h.andThen _

theorem ends_map {r : Run α n} (f : α → β) (h : r.Ends w s rest) : (r.map f).Ends w s rest :=
  ⟨h.faults, Parsed.ends_map f h.outcome⟩

theorem ends_silent_chain {p : Parsed α n}
    {next : (value : α) → (rest : List Token) → rest.length < n → Run β rest.length}
    (hp : p.Within w (s :: rest))
    (hn : ∀ a u h, u <:+ w → (next a (u ++ s :: rest) h).Ends u s rest) :
    ((silent p).chain next).Ends w s rest := by
  constructor
  · obtain ⟨u, hu, hx⟩ := hp
    cases p with
    | failed f left within => rfl
    | done a left shorter =>
      obtain rfl : left = u ++ s :: rest := hx
      exact (hn a u shorter hu).faults
  · rw [outcome_chain, outcome_silent]
    exact Parsed.ends_chain hp fun a u h hu => (hn a u h hu).outcome

theorem ends_skipping {t : Token} {r : Run α (w ++ s :: rest).length} (h : r.Ends w s rest) :
    (skipping (t :: (w ++ s :: rest)) r).Ends (t :: w) s rest := by
  refine ⟨h.faults, ?_⟩
  have ho := h.outcome
  change (Parsed.loose r.outcome).Ends (t :: w) s rest
  rw [Parsed.Ends, Parsed.result_loose]
  unfold Parsed.Ends at ho
  split at ho
  · exact ho
  · obtain ⟨u, hu, hr⟩ := ho
    exact ⟨u, hu.trans (List.suffix_cons t w), hr⟩

end Run

section

variable {w rest : List Token} {s : Token} (hs : s.kind = .semicolon) (hw : Inner w)

include hs hw

theorem block_refuses : (block .standard (w ++ s :: rest)).Refuses (w ++ s :: rest) := by
  rw [block]
  exact Run.Refuses.andThen ⟨rfl, expect_refuses (hw.headKind_ne hs (by decide))⟩ _

theorem namespaceDecl_ends : (namespaceDecl .standard (w ++ s :: rest)).Ends w s rest := by
  rw [namespaceDecl]
  refine Run.ends_silent_chain (path_within hs w rest) ?_
  intro names u _ hu
  exact Run.ends_map _ (block_refuses hs (hw.of_suffix hu)).ends

theorem functionDecl_ends : (functionDecl .standard (w ++ s :: rest)).Ends w s rest := by
  rw [functionDecl]
  refine Run.ends_silent_chain (signature_within hs hw) ?_
  intro declaration u _ hu
  exact Run.ends_map _ (block_refuses hs (hw.of_suffix hu)).ends

theorem ifElse_ends : (ifElse .standard (w ++ s :: rest)).Ends w s rest := by
  rw [ifElse]
  refine Run.ends_silent_chain (assignment_within hs w rest) ?_
  intro condition u _ hu
  exact ((block_refuses hs (hw.of_suffix hu)).andThen _).ends

theorem whileLoop_ends : (whileLoop .standard (w ++ s :: rest)).Ends w s rest := by
  rw [whileLoop]
  refine Run.ends_silent_chain (assignment_within hs w rest) ?_
  intro condition u _ hu
  exact Run.ends_map _ (block_refuses hs (hw.of_suffix hu)).ends

theorem doWhile_ends : (doWhile .standard (w ++ s :: rest)).Ends w s rest := by
  rw [doWhile]
  exact ((block_refuses hs hw).chain _).ends

end

/-- Every statement but a loop over `for` ends with the first semicolon, or fails in front of it. -/
theorem statement_ends {w : List Token} {s : Token} (hne : w ≠ []) (hw : Inner w)
    (hfor : headKind w ≠ .kwFor) (hs : s.kind = .semicolon) (rest : List Token) :
    (statement .standard (w ++ s :: rest)).Ends w s rest := by
  cases w with
  | nil => exact absurd rfl hne
  | cons t w =>
    have hw' : Inner w := hw.of_suffix (List.suffix_cons t w)
    cases hrule : RuleTable.standard t.kind with
    | none =>
      rw [statement_of_none hrule]
      exact ⟨rfl, expressionStmt_ends hs hw⟩
    | some rule =>
      rw [statement_of_rule hrule]
      suffices h : (byRule .standard rule (t :: w ++ s :: rest)).Ends (t :: w) s rest from
        ⟨h.faults, h.outcome⟩
      unfold RuleTable.standard at hrule
      split at hrule <;> cases hrule <;> rw [byRule]
      · exact Run.ends_skipping (namespaceDecl_ends hs hw')
      · exact Run.ends_skipping (functionDecl_ends hs hw')
      · exact Run.ends_skipping ⟨rfl, record_ends hs hw' _⟩
      · exact Run.ends_skipping ⟨rfl, enumDecl_ends hs hw'⟩
      · exact Run.ends_skipping ⟨rfl, record_ends hs hw' _⟩
      · exact Run.ends_skipping ⟨rfl, variableDecl_ends hs hw' _⟩
      · exact Run.ends_skipping ⟨rfl, variableDecl_ends hs hw' _⟩
      · exact Run.ends_skipping ⟨rfl, usingDecl_ends hs hw'⟩
      · exact Run.ends_skipping (Run.ends_map _ (ifElse_ends hs hw'))
      · exact Run.ends_skipping (whileLoop_ends hs hw')
      · exact Run.ends_skipping (doWhile_ends hs hw')
      · contradiction
      · exact Run.ends_skipping ⟨rfl, word_ends hs hw' _⟩
      · exact Run.ends_skipping ⟨rfl, word_ends hs hw' _⟩
      · exact Run.ends_skipping ⟨rfl, returnValue_ends hs hw'⟩
      · exact Run.ends_skipping ⟨rfl, free_ends hs hw'⟩
      · exact Run.ends_skipping ⟨rfl, assembly_ends hs hw'⟩

/-! ### Recovery to the semicolon -/

theorem synchronize_inner {u rest : List Token} {s : Token} (hu : Inner u)
    (hs : s.kind = .semicolon) : synchronize (u ++ s :: rest) = rest := by
  induction u with
  | nil => simp [synchronize, hs, synchronizationKinds]
  | cons t u ih =>
    have ht := hu t (List.mem_cons_self ..)
    have hk : t.kind ∉ synchronizationKinds := fun h => ht (by simp_all [synchronizationKinds])
    have he : t.kind ≠ .eof := hu.head_ne (by decide)
    rw [List.cons_append, synchronize, if_neg hk, if_neg he]
    exact ih (hu.of_suffix (List.suffix_cons t u))

theorem resume_inner {u w rest : List Token} {s : Token} (hu : Inner u)
    (hs : s.kind = .semicolon) : resume (w ++ s :: rest) (u ++ s :: rest) = rest := by
  rw [resume, synchronize_inner hu hs]
  refine if_neg fun h => ?_
  have hl := h.1
  rw [List.length_append, List.length_cons] at hl
  omega

theorem Run.recover_of_ok {ts left : List Token} {r : Run Stmt ts.length} {v : Stmt}
    (h : r.outcome.result = (.ok v, left)) :
    r.recover.statement? = some v ∧ faults r.recover.events = faults r.events ∧
      r.recover.rest = left := by
  obtain ⟨events, outcome⟩ := r
  cases outcome with
  | failed f rest within => simp at h
  | done v' rest shorter =>
    simp only [Parsed.result_done, Prod.mk.injEq, Except.ok.injEq] at h
    obtain ⟨rfl, rfl⟩ := h
    exact ⟨rfl, rfl, rfl⟩

theorem Run.recover_of_error {ts left : List Token} {r : Run Stmt ts.length} {f : Failure}
    (h : r.outcome.result = (.error f, left)) :
    r.recover.statement? = none ∧ faults r.recover.events = faults r.events ++ [f] ∧
      r.recover.rest = resume ts left := by
  obtain ⟨events, outcome⟩ := r
  cases outcome with
  | done v rest shorter => simp at h
  | failed f' rest within =>
    simp only [Parsed.result_failed, Prod.mk.injEq, Except.error.injEq] at h
    obtain ⟨rfl, rfl⟩ := h
    exact ⟨rfl, by simp [Run.recover], rfl⟩

/-! ### The same outcome whatever follows -/

section

variable {x y : List Token}

/-- The same place in two lists that begin with the same tokens has the same first token. -/
theorem InStep.head?_eq {w ts us : List Token} {s : Token} (hx : x.head? = some s)
    (hy : y.head? = some s) (h : InStep x y (w ++ x) (w ++ y) ts us) :
    ts.head? = us.head? ∧ ts.head? ≠ none := by
  have hl : (w ++ x).length + y.length = (w ++ y).length + x.length := by
    simp only [List.length_append]
    omega
  obtain ⟨i, hi, rfl, rfl⟩ := h.exists_drop hl
  have hi : i ≤ w.length := by
    rw [List.length_append] at hi
    omega
  rw [List.drop_append_of_le_length hi, List.drop_append_of_le_length hi, List.head?_append,
    List.head?_append, hx, hy]
  exact ⟨rfl, by simp⟩

end

section

variable {w : List Token} {s : Token} (hne : w ≠ []) (hw : Inner w) (hfor : headKind w ≠ .kwFor)
  (hs : s.kind = .semicolon)

include hne hw hfor hs

theorem statement_failed {rest left : List Token} {f : Failure}
    (h : (statement .standard (w ++ s :: rest)).outcome.result = (.error f, left))
    (rest' : List Token) :
    f.token? ≠ none ∧ ∃ left',
      (statement .standard (w ++ s :: rest')).outcome.result = (.error f, left') := by
  have he := statement_ends hne hw hfor hs rest
  have he' := statement_ends hne hw hfor hs rest'
  have ho := he.outcome
  rw [Parsed.Ends, h] at ho
  obtain ⟨u, -, rfl⟩ := ho
  have ha : Alike (s :: rest) (s :: rest') (w ++ s :: rest) (w ++ s :: rest') :=
    alike_append w (.cons ⟨rfl, rfl⟩)
  have hp := ha.lockstep.statement
  rw [Run.Parallel, h, he.faults, he'.faults] at hp
  specialize hp (by simp)
  cases hr : (statement .standard (w ++ s :: rest')).outcome.result with
  | mk result left' =>
    rw [hr] at hp
    cases hp with
    | failure ht =>
      cases ht with
      | cons hi _ _ =>
        obtain ⟨hhead, hsome⟩ := hi.head?_eq rfl rfl
        refine ⟨hsome, left', ?_⟩
        rw [Failure.here, Failure.here, hhead]

omit hne hw hfor hs in
theorem Forms.unique {w : List Token} {v v' : Stmt} (h : Forms .statement w v)
    (h' : Forms .statement w v') : v = v' :=
  (h.isRead [] (by decide)).1.unique (h'.isRead [] (by decide)).1

theorem statement_forms {rest left : List Token} {v : Stmt}
    (h : (statement .standard (w ++ s :: rest)).outcome.result = (.ok v, left)) :
    left = rest ∧ Forms .statement (w ++ [s]) v := by
  have he := statement_ends hne hw hfor hs rest
  have ho := he.outcome
  rw [Parsed.Ends, h] at ho
  obtain rfl : left = rest := ho
  obtain ⟨u, hu, -, hc⟩ := (formed (w ++ s :: left)).statement.tokens v left h
  have hts : w ++ [s] ++ left = u ++ left := by
    rw [← hc (faults_eq_nil_iff.1 he.faults), List.append_assoc]
    rfl
  rw [List.append_cancel_right hts]
  exact ⟨rfl, hu⟩

/-- A statement is read with every list behind the semicolon or with none. -/
theorem statement_outcome :
    (∃ v, ∀ rest, (statement .standard (w ++ s :: rest)).outcome.result = (.ok v, rest)) ∨
      ∃ f, f.token? ≠ none ∧ ∀ rest, ∃ left,
        (statement .standard (w ++ s :: rest)).outcome.result = (.error f, left) := by
  cases h : (statement .standard (w ++ [s])).outcome.result with
  | mk result left =>
    cases result with
    | error f =>
      exact .inr ⟨f, (statement_failed hne hw hfor hs h []).1,
        fun rest => (statement_failed hne hw hfor hs h rest).2⟩
    | ok v =>
      refine .inl ⟨v, fun rest => ?_⟩
      cases h' : (statement .standard (w ++ s :: rest)).outcome.result with
      | mk result' left' =>
        cases result' with
        | error f =>
          obtain ⟨-, left'', hf⟩ := statement_failed hne hw hfor hs h' []
          rw [h] at hf
          cases hf
        | ok v' =>
          obtain ⟨rfl, hv⟩ := statement_forms hne hw hfor hs h
          obtain ⟨rfl, hv'⟩ := statement_forms hne hw hfor hs h'
          rw [hv.unique hv']

theorem precedes_inner :
    ∃ b fs, (b.length = 1 ∧ fs = [] ∨ b = [] ∧ fs.length = 1) ∧ (∀ f ∈ fs, f.token? ≠ none) ∧
      ∀ rest, Precedes (w ++ [s]) b fs rest := by
  have hk : headKind (w ++ [s]) ∉ [.eof, .semicolon] := by
    cases w with
    | nil => exact absurd rfl hne
    | cons t w =>
      have he : t.kind ≠ .eof := hw.head_ne (by decide)
      have hsemi : t.kind ≠ .semicolon := hw.head_ne (by decide)
      simp [he, hsemi]
  rcases statement_outcome hne hw hfor hs with ⟨v, hv⟩ | ⟨f, hf, hleft⟩
  · refine ⟨[v], [], .inl ⟨rfl, rfl⟩, by simp, fun rest => ?_⟩
    obtain ⟨h₁, h₂, h₃⟩ := Run.recover_of_ok (hv rest)
    have he := (statement_ends hne hw hfor hs rest).faults
    refine precedes_of_recover hk ?_ ?_ ?_ <;> rw [← List.append_cons]
    · rw [h₁]
      rfl
    · rw [h₂, he]
    · exact h₃
  · refine ⟨[], [f], .inr ⟨rfl, rfl⟩, by simpa using hf, fun rest => ?_⟩
    obtain ⟨left, hl⟩ := hleft rest
    obtain ⟨h₁, h₂, h₃⟩ := Run.recover_of_error hl
    have he := statement_ends hne hw hfor hs rest
    have ho := he.outcome
    rw [Parsed.Ends, hl] at ho
    obtain ⟨u, hu, rfl⟩ := ho
    refine precedes_of_recover hk ?_ ?_ ?_ <;> rw [← List.append_cons]
    · rw [h₁]
      rfl
    · rw [h₂, he.faults]
      rfl
    · rw [h₃, resume_inner (hw.of_suffix hu) hs]

end

/-- Tokens up to a semicolon come to one statement or to one diagnostic, and what stands behind the
semicolon is parsed as if it stood alone. -/
theorem parse_statement_append {w : List Token} {s : Token} (hne : w ≠ [])
    (hw : ∀ t ∈ w, t.kind ∉ [.semicolon, .lBrace, .rBrace, .lParen, .rParen, .comma, .eof])
    (hfor : headKind w ≠ .kwFor) (hs : s.kind = .semicolon) (rest : List Token) :
    ((∃ v, parse (w ++ [s]) = ([v], [])) ∨ ∃ d, parse (w ++ [s]) = ([], [d])) ∧
      parse (w ++ s :: rest) =
        ((parse (w ++ [s])).1 ++ (parse rest).1, (parse (w ++ [s])).2 ++ (parse rest).2) := by
  obtain ⟨b, fs, hone, hfs, hp⟩ := precedes_inner hne hw hfor hs
  have hnil : parse [] = ([], []) := Prod.ext (by rw [parse, program_of_eof rfl]) (by
    rw [parse_snd, program_of_eof rfl]
    rfl)
  have hsingle : parse (w ++ [s]) = (b, fs.map (Failure.diagnostic s)) := by
    have h := (hp []).parse hfs s
    rwa [hnil, List.append_nil, List.append_nil, List.append_nil] at h
  rw [hsingle, List.append_cons, (hp rest).parse hfs s]
  refine ⟨?_, rfl⟩
  rcases hone with ⟨hb, rfl⟩ | ⟨rfl, hf⟩
  · obtain ⟨v, rfl⟩ := List.length_eq_one_iff.1 hb
    exact .inl ⟨v, rfl⟩
  · obtain ⟨f, rfl⟩ := List.length_eq_one_iff.1 hf
    exact .inr ⟨_, rfl⟩

/-- A condition without a body, and an `else` behind the semicolon: `if true ; else`. -/
theorem parse_statement_append_else :
    (parse [bareToken .kwIf, bareToken .kwTrue, bareToken .semicolon]).2.length = 1 ∧
      parse [bareToken .kwIf, bareToken .kwTrue, bareToken .semicolon, bareToken .kwElse] =
        ((parse [bareToken .kwIf, bareToken .kwTrue, bareToken .semicolon]).1 ++
            (parse [bareToken .kwElse]).1,
          (parse [bareToken .kwIf, bareToken .kwTrue, bareToken .semicolon]).2 ++
            (parse [bareToken .kwElse]).2) := by
  have hne : [bareToken .kwIf, bareToken .kwTrue] ≠ [] := by simp
  have hw : ∀ t ∈ [bareToken .kwIf, bareToken .kwTrue],
      t.kind ∉ [.semicolon, .lBrace, .rBrace, .lParen, .rParen, .comma, .eof] := by decide
  have hs : (bareToken .semicolon).kind = .semicolon := rfl
  exact ⟨by with_unfolding_all rfl,
    (parse_statement_append hne hw (by decide) hs [bareToken .kwElse]).2⟩

end FrontEnd.Grammar
