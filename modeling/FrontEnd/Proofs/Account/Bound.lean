import FrontEnd.Proofs.Account.Fault
import FrontEnd.Proofs.Composition

/-!
What a parse can report at most. A statement pays for its own failure with its first token, and a
block pays with its opening brace for the end of input; what recovery skips pays for a failure that
took no token. Counted over a whole parse, there are no more diagnostics than tokens, and no more
missing braces than opening braces without a match.
-/

set_option autoImplicit false

namespace FrontEnd.Grammar

/-! ### Bodies in braces -/

theorem fields_fails (ts : List Token) : (fields ts).Fails fun failure rest =>
    failure.cause = .missingClosingBrace → headKind rest = .eof := by
  rw [fields]
  split
  · simp [Parsed.Fails]
  · split
    · rename_i he
      exact Parsed.fails_refuse fun _ => he
    · have hs : (terminated (typed ts)).Spares := terminated_spares (typed_spares ts)
      refine Parsed.fails_chain (hs.mono fun _ _ h hm => absurd hm h) ?_
      intro value rest hr _
      exact Parsed.fails_map.2 (fields_fails rest)
termination_by ts.length

/-- A record misses its closing brace only behind the opening one, at the end of input. -/
theorem record_fails (make : String → List Field → Stmt) (ts : List Token) :
    (record make ts).Fails fun failure rest => failure.cause = .missingClosingBrace →
      headKind rest = .eof ∧ ∃ w, ts = w ++ rest ∧ Opened w := by
  have hspare {kind : TokenKind} {us : List Token} : (expect kind us).Fails fun failure rest =>
      failure.cause = .missingClosingBrace →
        headKind rest = .eof ∧ ∃ w, ts = w ++ rest ∧ Opened w :=
    expect_halts.spares.mono fun _ _ h hm => absurd hm h
  refine Parsed.fails_chain hspare fun n us _ hn => Parsed.fails_chain hspare fun o vs _ ho => ?_
  obtain ⟨_, hts, rfl, hk⟩ := (expect_takes .identifier ts).of_gives hn
  obtain ⟨_, hus, rfl, hl⟩ := (expect_takes .lBrace us).of_gives ho
  refine Parsed.fails_map.2 ?_
  intro failure rest hf hm
  obtain ⟨w, hvs, hw⟩ := (fields_meets vs).of_fails hf
  refine ⟨fields_fails vs failure rest hf hm, n :: o :: w, ?_, [n], o, w, rfl, ?_, hl, hw⟩
  · rw [hts, hus, hvs]
    rfl
  · simp [hk, outerKinds]

section

variable {k : Token} {ts : List Token}

/-- A statement without blocks pays for all but its failure. -/
theorem body_pays {p : Parsed Stmt ts.length} (hk : k.kind ∉ outerKinds)
    (h : p.Meets ts (fun w s _ => Forms .statement (k :: w) s) fun w => Plain w ∨ Opened w)
    (hm : p.Fails fun failure rest => failure.cause = .missingClosingBrace →
      headKind rest = .eof ∧ ∃ w, ts = w ++ rest ∧ Opened w) : (Run.silent p).Pays ts := by
  cases p with
  | done value rest shorter =>
    obtain ⟨w, hw, hf⟩ := h
    have he := hf.not_eof
    have hr := hf.rises
    rw [Rises, level_cons_other hk] at hr
    exact ⟨w, hw, fun t ht => he t (List.mem_cons_of_mem k ht), by simp, ⟨0, hr, by simp⟩, .inl rfl⟩
  | failed failure rest within =>
    obtain ⟨w, hw, hf⟩ := h
    by_cases hc : failure.cause = .missingClosingBrace
    · obtain ⟨hl, v, hv, ho⟩ := hm failure rest rfl hc
      exact ⟨v, hv, ho.covers fun _ => hl⟩
    · obtain hp | ho := hf
      · exact ⟨w, hw, hp.covers_failure hc rest⟩
      · exact ⟨w, hw, ho.covers fun hm => absurd hm hc⟩

theorem sparing_pays {p : Parsed Stmt ts.length} (hk : k.kind ∉ outerKinds)
    (h : p.Meets ts (fun w s _ => Forms .statement (k :: w) s) fun w => Plain w ∨ Opened w)
    (hs : p.Spares) : (Run.silent p).Pays ts :=
  body_pays hk h (hs.mono fun _ _ h hm => absurd hm h)

theorem simple_pays {p : Parsed Stmt ts.length} (hk : k.kind ∉ outerKinds)
    (h : p.Meets ts (fun w s _ => Forms .statement (k :: w) s) Plain) (hs : p.Spares) :
    (Run.silent p).Pays ts :=
  sparing_pays hk (h.mono (fun _ _ _ h => h) fun _ h => .inl h) hs

end

/-! ### Statements with blocks -/

/-- What is read at `ts` pays for its faults. The loop of a block never fails, and its opening
brace, which was taken before, pays with it. -/
structure Paid (ts : List Token) : Prop where
  statement : (statement .standard ts).PaysAll ts
  ifElse : (ifElse .standard ts).Pays ts
  block : (block .standard ts).Pays ts
  blockTail : (blockTail .standard ts).Incurs ts (Covers 1 1) fun _ _ _ => False

/-- An expression that fails behind a token is paid for by that token. -/
theorem expressionStmt_paysAll (ts : List Token) :
    (Run.silent (expressionStmt ts)).PaysAll ts := by
  have hm := expressionStmt_meets ts
  have hs := expressionStmt_spares ts
  cases he : expressionStmt ts with
  | done value rest shorter =>
    rw [he] at hm
    obtain ⟨w, hw, hf⟩ := hm
    exact ⟨w, hw, hf.not_eof, by simp, ⟨0, hf.rises, by simp⟩, .inl rfl⟩
  | failed failure rest within =>
    rw [he] at hm hs
    obtain ⟨w, hw, hp⟩ := hm
    have hc := hp.covers_failure (hs failure rest rfl) rest
    exact ⟨w, hw, hc.before, by simp; omega, hc.braces, hc.last⟩

theorem assignment_pays (ts : List Token) : (Run.silent (assignment ts)).Pays ts :=
  Run.pays_silent (assignment_meets ts) (fun _ _ _ h => h.plain trivial)
    (halting ts).assignment.spares

section

variable {ts : List Token} (ih : ∀ us, us.length < ts.length → Paid us)
include ih

theorem ifElse_pays : (ifElse .standard ts).Pays ts := by
  rw [ifElse]
  refine Run.pays_chain (assignment_pays ts) fun condition us hu => ?_
  refine Run.pays_andThen (ih us hu).block fun body vs hv => ?_
  split
  · exact ⟨[], rfl, plain_nil.covers vs⟩
  · rename_i front hf
    obtain ⟨hvs, hk⟩ := accept?_eq_some hf
    have hk : front.token.kind = .kwElse := by simpa using hk
    refine Run.incurs_loose.2 (Front.pays_run hvs (by simp [hk, outerKinds]) ?_)
    intro _ xs hx
    split
    · rename_i inner hf
      obtain ⟨hxs, hi⟩ := accept?_eq_some hf
      have hi : inner.token.kind = .kwIf := by simpa using hi
      refine Front.pays_run hxs (by simp [hi, outerKinds]) fun _ ys hy => ?_
      exact Run.incurs_map.2 (ih ys (by omega)).ifElse
    · exact Run.incurs_map.2 (ih xs (by omega)).block

end

section

variable {k : Token} {ts : List Token} (ih : ∀ us, us.length ≤ ts.length → Paid us)
include ih

theorem namespaceDecl_pays : (namespaceDecl .standard ts).Pays ts := by
  have hp : (path ts).Meets ts (fun w _ _ => Plain w) Plain :=
    (path_meets ts).mono (fun _ _ _ h => h.plain) fun w ⟨v, _, _, h⟩ => (plain_append.1 h.plain).1
  rw [namespaceDecl]
  refine Run.pays_chain (Run.pays_silent hp (fun _ _ _ h => h) (path_halts ts).spares) ?_
  intro names us hu
  exact Run.incurs_map.2 (ih us (Nat.le_of_lt hu)).block

theorem functionDecl_pays (hk : k.kind = .kwFunc) : (functionDecl .standard ts).Pays ts := by
  rw [functionDecl]
  refine Run.pays_chain
    (Run.pays_silent (signature_meets hk ts) (fun _ _ _ h => h.1) (signature_spares ts)) ?_
  intro declaration us hu
  exact Run.incurs_map.2 (ih us (Nat.le_of_lt hu)).block

theorem whileLoop_pays : (whileLoop .standard ts).Pays ts := by
  rw [whileLoop]
  refine Run.pays_chain (assignment_pays ts) fun condition us hu => ?_
  exact Run.incurs_map.2 (ih us (Nat.le_of_lt hu)).block

theorem doWhile_pays : (doWhile .standard ts).Pays ts := by
  rw [doWhile]
  refine Run.pays_chain (ih ts (Nat.le_refl _)).block fun body us _ => ?_
  have hw : (Run.silent (expect .kwWhile us)).Pays us := by
    refine Run.pays_silent (expect_plain .kwWhile us) ?_ expect_halts.spares
    intro w t _ h
    simp [h.1, h.2, outerKinds]
  refine Run.pays_chain hw fun _ vs _ => ?_
  have ht : (terminated (assignment vs)).Meets vs (fun w _ _ => Plain w) Plain :=
    terminated_meets (assignment_meets vs) (fun _ _ h => h.plain trivial)
      fun w _ s h hs => by simp [h.plain trivial, hs, outerKinds]
  refine Run.pays_silent (Parsed.meets_map ht) (fun _ _ _ h => h) ?_
  exact Parsed.fails_map.2 (terminated_spares (halting vs).assignment.spares)

theorem forLoop_pays : (forLoop .standard ts).Pays ts := by
  rw [forLoop, dif_neg (by simp [RuleTable.standard])]
  refine Run.pays_chain (ih ts (Nat.le_refl _)).statement.pays fun initial us hu => ?_
  refine Run.pays_chain (ih us (Nat.le_of_lt hu)).statement.pays fun condition vs hv => ?_
  refine Run.pays_chain (assignment_pays vs) fun iteration xs hx => ?_
  exact Run.incurs_map.2 (ih xs (by omega)).block

end

theorem statement_pays {ts : List Token} (ih : ∀ us, us.length < ts.length → Paid us) :
    (statement .standard ts).PaysAll ts := by
  have hexpression : RuleTable.standard (headKind ts) = none →
      (statement .standard ts).PaysAll ts := by
    intro hrule
    rw [statement_of_none hrule]
    exact Run.incurs_after.2 (expressionStmt_paysAll ts)
  cases ts with
  | nil => exact hexpression rfl
  | cons k ts =>
    have ih' : ∀ us, us.length ≤ ts.length → Paid us := fun us h => ih us (Nat.lt_succ_of_le h)
    cases hrule : RuleTable.standard k.kind with
    | none => exact hexpression hrule
    | some rule =>
      have hs : statement .standard (k :: ts) = _ := statement_of_rule hrule
      have hk : k.kind ∉ outerKinds := fun hm => absurd hrule (by
        have hd : ∀ kind ∈ outerKinds, RuleTable.standard kind = none := by decide
        simp [hd _ hm])
      rw [hs]
      refine Run.incurs_after.2 ?_
      unfold RuleTable.standard at hrule
      split at hrule <;> cases hrule <;> rename_i hkind <;> rw [byRule] <;>
        refine Run.Pays.skipping hk ?_
      · exact namespaceDecl_pays ih'
      · exact functionDecl_pays ih' hkind
      · exact body_pays hk (record_meets (.structDecl hkind) ts) (record_fails _ ts)
      · exact sparing_pays hk (enumDecl_meets hkind ts) (enumDecl_spares ts)
      · exact body_pays hk (record_meets (.unionDecl hkind) ts) (record_fails _ ts)
      · rw [headKind_cons, hkind]
        exact simple_pays hk (variableDecl_meets hkind ts) (variableDecl_spares _ ts)
      · rw [headKind_cons, hkind]
        exact simple_pays hk (variableDecl_meets hkind ts) (variableDecl_spares _ ts)
      · exact simple_pays hk (usingDecl_meets hkind ts) (usingDecl_spares ts)
      · exact Run.incurs_map.2 (ih' ts (Nat.le_refl _)).ifElse
      · exact whileLoop_pays ih'
      · exact doWhile_pays ih'
      · exact forLoop_pays ih'
      · exact simple_pays hk (word_meets (.breakLoop hkind) ts) (word_spares _ ts)
      · exact simple_pays hk (word_meets (.continueLoop hkind) ts) (word_spares _ ts)
      · exact simple_pays hk (returnValue_meets hkind ts) (returnValue_spares ts)
      · exact simple_pays hk (free_meets hkind ts) (free_spares ts)
      · exact sparing_pays hk (assembly_meets hkind ts) (assembly_spares ts)

/-! ### Blocks -/

/-- What is skipped behind covered failures pays for those that are left. -/
theorem Covers.skipped {spare k : Nat} {w v rest : List Token} {fs : List Failure}
    (h : Covers spare 0 w fs (v ++ rest)) (he : ∀ t ∈ v, t.kind ≠ .eof) (hv : Rises v k) :
    Covers (spare - v.length) 0 (w ++ v) fs rest := by
  have hb := h.before
  have ht := h.tokens
  obtain ⟨j, hj, hm⟩ := h.braces
  have hw : Rises w j := hj
  refine ⟨by grind, by simp only [List.length_append]; omega, ⟨j + k, hw.append hv, by omega⟩, ?_⟩
  rcases h.last with hz | hl
  · exact .inl hz
  · obtain rfl := eq_nil_of_headKind_eof he hl
    exact .inr hl

/-- Inside a block a statement pays for all its faults before the next one is tried. -/
theorem recover_covers {ts : List Token} {r : Run Stmt ts.length}
    (hk : headKind ts ∉ [.rBrace, .eof]) (h : r.PaysAll ts) :
    ∃ w, ts = w ++ r.recover.rest ∧ Covers 0 0 w (faults r.recover.events) r.recover.rest := by
  obtain ⟨events, outcome⟩ := r
  cases outcome with
  | done value rest shorter => exact h
  | failed failure rest within =>
    obtain ⟨w, hw, hc⟩ := h
    obtain ⟨v, k, hv, he, hr, -⟩ := synchronize_rises rest
    have hres : resume ts rest = synchronize rest := by
      rw [hw]
      exact resume_eq_synchronize (hw ▸ hk)
    have hlen : 1 - w.length - v.length = 0 := by
      cases w with
      | nil =>
        rw [hw, List.nil_append] at hk
        have hlt := synchronize_length_lt hk
        have hsum := congrArg List.length hv
        rw [List.length_append] at hsum
        simp only [List.length_nil]
        omega
      | cons t w => simp
    refine ⟨w ++ v, ?_, ?_⟩
    · change ts = w ++ v ++ resume ts rest
      rw [hres, List.append_assoc, ← hv, ← hw]
    · change Covers 0 0 (w ++ v) (faults (events ++ [.fault failure, _])) (resume ts rest)
      rw [hres, faults_append]
      have hc : Covers (1 - w.length) 0 w (faults events ++ [failure]) rest := hc
      rw [hv] at hc
      have hs := hc.skipped he hr
      rwa [hlen] at hs

theorem Recovered.incurs_andThen {ts w : List Token} {r : Recovered ts}
    (he : headKind ts ≠ .eof)
    {next : (rest : List Token) → rest.length < ts.length → Run (List Stmt) (rest.length + 1)}
    {good bad : List Token → List Failure → List Token → Prop} (hw : ts = w ++ r.rest)
    (hn : (next r.rest (r.progress he)).Incurs r.rest
      (fun v gs => good (w ++ v) (faults r.events ++ gs))
      fun v gs => bad (w ++ v) (faults r.events ++ gs)) :
    (r.andThen he next).Incurs ts good bad := by
  have hn := (Run.incurs_map (f := (r.statement?.toList ++ ·))).2 hn
  unfold Run.Incurs at hn ⊢
  simp only [Recovered.andThen, Parsed.result_before, faults_append]
  split at hn <;> rename_i hr <;> obtain ⟨v, hv, hg⟩ := hn
  · rw [Run.outcome_map] at hr
    rw [hr]
    exact ⟨w ++ v, by rw [List.append_assoc, ← hv, ← hw], hg⟩
  · rw [Run.outcome_map] at hr
    rw [hr]
    exact ⟨w ++ v, by rw [List.append_assoc, ← hv, ← hw], by rwa [List.append_assoc]⟩

section

variable {ts : List Token} (ih : ∀ us, us.length < ts.length → Paid us)
include ih

theorem blockRest_pays : (blockRest .standard ts).Incurs ts (Covers 1 1) fun _ _ _ => False := by
  rw [blockRest]
  split
  · rename_i front hf
    obtain ⟨hts, hc⟩ := accept?_eq_some hf
    have hc : front.token.kind = .rBrace := by simpa using hc
    refine ⟨[front.token], hts, by simp [hc], by simp, ⟨0, ?_, by simp⟩, .inl rfl⟩
    rw [level_cons_close hc, level_nil]
  · split
    · rename_i he
      exact ⟨[], rfl, by simp, Nat.le_refl 1, ⟨1, rfl, missing_le_length _⟩, .inr he⟩
    · rename_i hf he
      have hb : headKind ts ≠ .rBrace := headKind_ne_of_accept? hf (by decide)
      obtain ⟨w, hw, hc⟩ := recover_covers (by simp [hb, he]) (statement_pays ih)
      refine Run.incurs_loose.2 (Recovered.incurs_andThen he hw ?_)
      refine (ih _ ((statement .standard ts).recover.progress he)).blockTail.mono ?_ (by simp)
      intro v gs rest hv hg
      exact (hv ▸ hc).append hg

theorem blockTail_pays : (blockTail .standard ts).Incurs ts (Covers 1 1) fun _ _ _ => False := by
  obtain ⟨u, hu, hs⟩ := exists_skipSemicolons ts
  have hp : Plain u := fun t ht => plain_of_kind (hs t ht) (by decide)
  have hl := skipSemicolons_length_le ts
  have h := blockRest_pays fun us (h : us.length < (skipSemicolons ts).length) =>
    ih us (Nat.lt_of_lt_of_le h hl)
  unfold Run.Incurs at h ⊢
  rw [blockTail, Run.result_trimming]
  split at h <;> obtain ⟨v, hv, hg⟩ := h
  · refine ⟨u ++ v, by rw [List.append_assoc, ← hv, ← hu], ?_⟩
    exact (hp.covers _).append hg
  · exact hg.elim

theorem block_pays : (block .standard ts).Pays ts := by
  rw [block]
  have hopen : (Run.silent (expect .lBrace ts)).Incurs ts
      (fun w fs _ => fs = [] ∧ ∃ o, w = [o] ∧ o.kind = .lBrace) (Covers 1 0) := by
    have hm := expect_takes .lBrace ts
    have hs : (expect .lBrace ts).Spares := expect_halts.spares
    cases he : expect .lBrace ts with
    | done o rest shorter =>
      rw [he] at hm
      obtain ⟨w, hw, rfl, ho⟩ := hm
      exact ⟨[o], hw, rfl, o, rfl, ho⟩
    | failed failure rest within =>
      rw [he] at hm hs
      obtain ⟨w, hw, rfl⟩ := hm
      exact ⟨[], hw, plain_nil.covers_failure (hs failure rest rfl) rest⟩
  refine Run.incurs_andThen hopen (fun _ _ _ h => h) ?_
  rintro _ _ rest _ hl - ⟨rfl, o, rfl, ho⟩
  refine (ih rest hl).blockTail.mono ?_ (by simp)
  intro v gs rest' _ hc
  exact hc.opened ho

end

theorem paid (ts : List Token) : Paid ts := by
  induction ts using tokens_induction with
  | step ts ih =>
    exact {
      statement := statement_pays ih
      ifElse := ifElse_pays ih
      block := block_pays ih
      blockTail := blockTail_pays ih }

/-! ### Whole files -/

/-- The tokens `w` in front of `rest` make up for the failures `fs` of a file, where a closing brace
may match none. -/
structure Settles (w : List Token) (fs : List Failure) (rest : List Token) : Prop where
  before : ∀ t ∈ w, t.kind ≠ .eof
  tokens : fs.length ≤ w.length
  braces : missing fs ≤ unmatched w
  last : missing fs = 0 ∨ headKind rest = .eof

theorem Covers.settles {w rest : List Token} {fs : List Failure} (h : Covers 0 0 w fs rest) :
    Settles w fs rest := by
  obtain ⟨k, hk, hm⟩ := h.braces
  refine ⟨h.before, h.tokens, ?_, h.last⟩
  rwa [← depth_zero, depth_of_level hk]

theorem Settles.append {w v rest : List Token} {fs gs : List Failure}
    (hw : Settles w fs (v ++ rest)) (hv : Settles v gs rest) :
    Settles (w ++ v) (fs ++ gs) rest := by
  have hwe := hw.before
  have hve := hv.before
  have hwt := hw.tokens
  have hvt := hv.tokens
  have hwb := hw.braces
  have hvb := hv.braces
  have hsum : unmatched (w ++ v) = depth (unmatched w) v := by
    rw [← depth_zero, depth_append, depth_zero]
  refine ⟨by grind, by simp only [List.length_append]; omega, ?_, ?_⟩
  · rw [missing_append, hsum]
    rcases hw.last with hz | he
    · have hle := depth_le_depth (Nat.zero_le (unmatched w)) v
      rw [depth_zero] at hle
      omega
    · obtain rfl := eq_nil_of_headKind_eof hve he
      have hle := missing_le_length gs
      simp only [List.length_nil] at hvt
      simp only [depth]
      omega
  · rw [missing_append]
    rcases hw.last with hz | he
    · rcases hv.last with hz' | he
      · exact .inl (by omega)
      · exact .inr he
    · obtain rfl := eq_nil_of_headKind_eof hve he
      exact .inr he

/-- At a closing brace a statement fails at once, and the brace is skipped. -/
theorem recover_settles_brace {c : Token} {ts : List Token} (hc : c.kind = .rBrace)
    {r : Run Stmt (c :: ts).length} (h : r.PaysAll (c :: ts)) :
    Settles [c] (faults r.recover.events) r.recover.rest ∧ r.recover.rest = ts := by
  have hnil {w v : List Token} {fs : List Failure} {spare : Nat}
      (hw : c :: ts = w ++ v) (hcov : Covers spare 0 w fs v) : w = [] := by
    cases w with
    | nil => rfl
    | cons t w =>
      obtain ⟨rfl, -⟩ := List.cons.inj hw
      obtain ⟨k, hk, -⟩ := hcov.braces
      simp [level, hc] at hk
  obtain ⟨events, outcome⟩ := r
  cases outcome with
  | done value rest shorter =>
    obtain ⟨w, hw, hcov⟩ := h
    obtain rfl := hnil hw hcov
    rw [List.nil_append] at hw
    simp [hw] at shorter
  | failed failure rest within =>
    obtain ⟨w, hw, hcov⟩ := h
    obtain rfl := hnil hw hcov
    obtain rfl : c :: ts = rest := hw
    have hsync : synchronize (c :: ts) = c :: ts := by
      simp [synchronize, hc, synchronizationKinds]
    have hrest : resume (c :: ts) (c :: ts) = ts := by
      simp [resume, hsync, hc]
    have htokens : (faults events ++ [failure]).length ≤ 1 := hcov.tokens
    have hmissing : missing (faults events ++ [failure]) = 0 := by
      obtain ⟨k, hk, hm⟩ := hcov.braces
      obtain rfl := Option.some.inj hk
      exact Nat.le_zero.1 hm
    refine ⟨?_, hrest⟩
    change Settles [c] (faults (events ++ [.fault failure, _])) _
    rw [faults_append]
    have hbraces := Nat.zero_le (unmatched [c])
    rw [← hmissing] at hbraces
    exact ⟨by simp [hc], htokens, hbraces, .inl hmissing⟩

/-- Before the end of input, what a statement and its recovery take makes up for its faults. -/
theorem recover_settles {ts : List Token} (he : headKind ts ≠ .eof) :
    ∃ w, ts = w ++ (statement .standard ts).recover.rest ∧
      Settles w (faults (statement .standard ts).recover.events)
        (statement .standard ts).recover.rest := by
  by_cases hb : headKind ts = .rBrace
  · cases ts with
    | nil => simp at he
    | cons c ts =>
      obtain ⟨hs, hr⟩ := recover_settles_brace hb (paid (c :: ts)).statement
      exact ⟨[c], by rw [hr]; rfl, hs⟩
  · obtain ⟨w, hw, hc⟩ := recover_covers (by simp [hb, he]) (paid ts).statement
    exact ⟨w, hw, hc.settles⟩

theorem program_settles (ts : List Token) :
    ∃ w, ts = w ++ (program .standard ts).rest ∧
      headKind (program .standard ts).rest = .eof ∧
      Settles w (faults (program .standard ts).events) (program .standard ts).rest := by
  obtain ⟨u, hu, hs⟩ := exists_skipSemicolons ts
  have hp : Plain u := fun t ht => plain_of_kind (hs t ht) (by decide)
  by_cases he : headKind (skipSemicolons ts) = .eof
  · rw [program_of_eof he]
    exact ⟨u, hu, he, (hp.covers _).settles⟩
  · have hlt := (statement .standard (skipSemicolons ts)).recover.progress he
    have hle := skipSemicolons_length_le ts
    obtain ⟨w, hw, hc⟩ := recover_settles he
    obtain ⟨v, hv, hr, hd⟩ := program_settles (statement .standard (skipSemicolons ts)).recover.rest
    rw [program_of_statement he]
    refine ⟨u ++ (w ++ v), ?_, hr, ?_⟩
    · rw [List.append_assoc, List.append_assoc, ← hv, ← hw]
      exact hu
    · rw [faults_append]
      rw [hv] at hc
      exact (hp.covers _).settles.append (hc.append hd)
termination_by ts.length

theorem settles_faults (ts : List Token) :
    Settles (ts.takeWhile (·.kind ≠ .eof)) (faults (program .standard ts).events)
      (program .standard ts).rest := by
  obtain ⟨w, hw, he, hs⟩ := program_settles ts
  have htake := takeWhile_append_of_eof hs.before he
  rw [← hw] at htake
  rwa [htake]

/-- A parse reports no more than there are tokens before the end of input. -/
theorem length_diagnostics_le (ts : List Token) :
    (parse ts).2.length ≤ (ts.takeWhile (·.kind ≠ .eof)).length := by
  rw [parse_snd, List.length_map]
  exact (settles_faults ts).tokens

/-- Every token can have a diagnostic: in `do { do {` two braces are never closed, and two loops
have no condition. -/
example : (parse [bareToken .kwDo, bareToken .lBrace, bareToken .kwDo, bareToken .lBrace]).2.length
    = 4 := by decide +kernel

/-- A closing brace is reported as missing no more often than there are opening braces before the
end of input that none matches. -/
theorem missingClosingBrace_le_unmatched (ts : List Token) :
    (parse ts).2.countP (·.cause = .missingClosingBrace) ≤
      unmatched (ts.takeWhile (·.kind ≠ .eof)) := by
  rw [parse_snd, List.countP_map]
  exact (settles_faults ts).braces

end FrontEnd.Grammar
