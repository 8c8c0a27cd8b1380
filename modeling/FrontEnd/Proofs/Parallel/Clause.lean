import FrontEnd.Proofs.Clause.Completeness
import FrontEnd.Proofs.Parallel.Phrase

/-!
Statements, blocks and whole programs in parallel. Recovery takes the same steps in both lists, so
the failures of one program are those of the other, at the same places.
-/

set_option autoImplicit false

namespace FrontEnd.Grammar

/-! ### Recovery -/

theorem skipGroup_of_eof {ts : List Token} (h : headKind ts = .eof) (inner : Nat) :
    skipGroup inner ts = ts := by
  cases ts with
  | nil => rfl
  | cons t ts =>
    rw [headKind_cons] at h
    simp only [skipGroup, h]

theorem synchronize_of_eof {ts : List Token} (h : headKind ts = .eof) : synchronize ts = ts := by
  cases ts with
  | nil => rfl
  | cons t ts =>
    rw [headKind_cons] at h
    simp [synchronize, h, synchronizationKinds]

section

variable {x y : List Token}

theorem InStep.cons {t u : Token} {ts us ts' us' : List Token} (h : InStep x y ts us ts' us') :
    InStep x y (t :: ts) (u :: us) ts' us' :=
  ⟨h.left.trans (List.suffix_cons t ts), h.right.trans (List.suffix_cons u us), h.alike⟩

theorem Alike.skipGroup {ts us : List Token} (ha : Alike x y ts us) (inner : Nat)
    (hl : x.length ≤ (skipGroup inner ts).length) :
    InStep x y ts us (skipGroup inner ts) (Grammar.skipGroup inner us) := by
  induction ts generalizing us inner with
  | nil =>
    have hu : headKind us = .eof := ha.headKind_eq.symm
    rw [skipGroup_of_eof hu]
    exact ha.inStep
  | cons t ts ih =>
    cases ha.heads with
    | stop ht hu =>
      rw [skipGroup_of_eof ht, skipGroup_of_eof hu]
      exact ha.inStep
    | @cons _ u _ us ht hw har =>
      have hrest : ∀ inner, x.length ≤ (Grammar.skipGroup inner ts).length →
          InStep x y (t :: ts) (u :: us) (Grammar.skipGroup inner ts)
            (Grammar.skipGroup inner us) :=
        fun inner hl => (ih (har (Nat.le_trans hl (skipGroup_length_le inner ts))) inner hl).cons
      revert hl
      rw [skipGroup.eq_def inner (t :: ts), skipGroup.eq_def inner (u :: us)]
      dsimp only
      rw [← hw.1]
      split
      · contradiction
      · exact hrest (inner + 1)
      · cases inner with
        | zero => exact fun hl => (har hl).inStep.cons
        | succ inner => exact hrest inner
      · exact hrest inner

theorem Alike.synchronize {ts us : List Token} (ha : Alike x y ts us)
    (hl : x.length ≤ (synchronize ts).length) :
    InStep x y ts us (synchronize ts) (Grammar.synchronize us) := by
  induction ts generalizing us with
  | nil =>
    have hu : headKind us = .eof := ha.headKind_eq.symm
    rw [synchronize_of_eof hu]
    exact ha.inStep
  | cons t ts ih =>
    cases ha.heads with
    | stop ht hu =>
      rw [synchronize_of_eof ht, synchronize_of_eof hu]
      exact ha.inStep
    | @cons _ u _ us ht hw har =>
      revert hl
      rw [Grammar.synchronize, Grammar.synchronize, ← hw.1]
      split
      · split
        · exact fun _ => ha.inStep
        · intro hl
          exact ((har (Nat.le_trans hl (skipGroup_length_le 0 ts))).skipGroup 0 hl).cons
        · exact fun hl => (har hl).inStep.cons
      · intro hl
        exact (ih (har (Nat.le_trans hl (synchronize_length_le ts))) hl).cons

theorem Alike.skipSemicolons {ts us : List Token} (ha : Alike x y ts us)
    (hl : x.length ≤ (skipSemicolons ts).length) :
    InStep x y ts us (skipSemicolons ts) (Grammar.skipSemicolons us) := by
  induction ts generalizing us with
  | nil =>
    have hu : headKind us = .eof := ha.headKind_eq.symm
    have hs : Grammar.skipSemicolons us = us := skipSemicolons_of_ne (by simp [hu])
    rw [hs]
    exact ha.inStep
  | cons t ts ih =>
    cases ha.heads with
    | stop ht hu =>
      rw [skipSemicolons_of_ne (by simp [ht]), skipSemicolons_of_ne (by simp [hu])]
      exact ha.inStep
    | @cons _ u _ us ht hw har =>
      revert hl
      rw [Grammar.skipSemicolons, Grammar.skipSemicolons, ← hw.1]
      split
      · intro hl
        exact (ih (har (Nat.le_trans hl (skipSemicolons_length_le ts))) hl).cons
      · exact fun _ => ha.inStep

theorem resume_length_le (start rest : List Token) : (resume start rest).length ≤ rest.length := by
  have hs := synchronize_length_le rest
  unfold resume
  dsimp only
  split
  · rw [List.length_tail]
    omega
  · exact hs

/-- Behind a failure, both lists are read on from the same place. -/
theorem InStep.resume {ts us rest rest' : List Token} (ha : Alike x y ts us)
    (hr : InStep x y ts us rest rest') (hl : x.length ≤ (resume ts rest).length) :
    InStep x y rest rest' (resume ts rest) (Grammar.resume us rest') := by
  have hpoint : x.length ≤ (synchronize rest).length := by
    unfold Grammar.resume at hl
    dsimp only at hl
    split at hl
    · rw [List.length_tail] at hl
      omega
    · exact hl
  have hs := hr.alike.synchronize hpoint
  have h₁ := hs.alike.length
  have h₂ := ha.length
  have hlength : (synchronize rest).length = ts.length ↔
      (synchronize rest').length = us.length := by omega
  unfold Grammar.resume at hl ⊢
  dsimp only at hl ⊢
  rw [← ha.headKind_eq]
  split at hl
  · rename_i hp
    rw [if_pos hp, if_pos ⟨hlength.1 hp.1, hp.2⟩]
    have ht : synchronize rest = ts := (hs.left.trans hr.left).eq_of_length hp.1
    have hu : synchronize rest' = us := (hs.right.trans hr.right).eq_of_length (hlength.1 hp.1)
    refine hs.trans ?_
    rw [ht, hu]
    rw [ht] at hl
    cases ha.heads with
    | stop he _ => exact absurd he hp.2
    | cons _ _ har => exact (har hl).inStep.cons
  · rename_i hp
    rw [if_neg hp, if_neg fun h => hp ⟨hlength.2 h.1, h.2⟩]
    exact hs

end

/-! ### Parts of statements -/

section

variable {x y ts us : List Token}

theorem terminated_parallel {α : Type} {n m : Nat} {p : Parsed α n} {q : Parsed α m}
    (h : p.Parallel x y Eq ts us q) :
    (terminated p).Parallel x y Eq ts us (terminated q) := by
  refine Parsed.parallel_chain h ?_
  intro a b rest rest' _ _ hab har
  exact Parsed.parallel_map (har.expect (by decide)) fun _ _ _ => hab

theorem expressionStmt_parallel (ha : Alike x y ts us) :
    (expressionStmt ts).Parallel x y Eq ts us (expressionStmt us) :=
  Parsed.parallel_map (terminated_parallel ha.abreast.assignment) fun _ _ h => by rw [h]

theorem typed_parallel (ha : Alike x y ts us) :
    (typed ts).Parallel x y Eq ts us (typed us) := by
  refine Parsed.parallel_chain (ha.expect (by decide)) ?_
  intro n n' rest rest' _ _ hn har
  refine Parsed.parallel_chain (har.expect (by decide)) ?_
  intro _ _ rest rest' _ _ _ har
  exact Parsed.parallel_map har.abreast.typeExpr fun _ _ h => by rw [h, hn.2]

theorem initializer_parallel (ha : Alike x y ts us) :
    (initializer ts).Parallel x y Eq ts us (initializer us) := by
  rw [initializer, initializer]
  rcases ha.accept? [.equals] (by decide) with ⟨ht, hu, _⟩ | ⟨f, g, ht, hu, _, hfg⟩
  · simp only [ht, hu]
    exact Parsed.parallel_stay ha rfl
  · simp only [ht, hu, Parsed.parallel_loose]
    refine hfg.chain fun har => ?_
    exact Parsed.parallel_map har.abreast.assignment fun _ _ h => by rw [h]

theorem initializer_length_le (ts : List Token) :
    (initializer ts).result.2.length ≤ ts.length := by
  rw [initializer]
  exact Parsed.option_length_le _ _ _

theorem variableDecl_parallel (constant : Bool) (ha : Alike x y ts us) :
    (variableDecl constant ts).Parallel x y Eq ts us (variableDecl constant us) := by
  refine terminated_parallel (Parsed.parallel_andThen (typed_parallel ha) ?_ ?_)
  · intro a rest _
    rw [Parsed.result_map_snd]
    exact initializer_length_le rest
  · rintro a _ rest rest' _ _ rfl har
    exact Parsed.parallel_map (initializer_parallel har) fun _ _ h => by rw [h]

theorem fields_parallel (ha : Alike x y ts us) :
    (fields ts).Parallel x y Eq ts us (fields us) := by
  induction ts using tokens_induction generalizing us with
  | step ts ih =>
    rw [fields, fields]
    rcases ha.accept? [.rBrace] (by decide) with ⟨ht, hu, _⟩ | ⟨f, g, ht, hu, _, hfg⟩
    · simp only [ht, hu]
      rw [← ha.headKind_eq]
      split
      · exact Parsed.parallel_refuse ha (by assumption)
      · refine Parsed.parallel_chain (terminated_parallel (typed_parallel ha)) ?_
        rintro a _ rest rest' hr _ rfl har
        exact Parsed.parallel_map (ih rest hr har) fun _ _ h => by rw [h]
    · simp only [ht, hu]
      exact hfg.give rfl

theorem record_parallel (make : String → List Field → Stmt) (ha : Alike x y ts us) :
    (record make ts).Parallel x y Eq ts us (record make us) := by
  refine Parsed.parallel_chain (ha.expect (by decide)) ?_
  intro n n' rest rest' _ _ hn har
  refine Parsed.parallel_chain (har.expect (by decide)) ?_
  intro _ _ rest rest' _ _ _ har
  exact Parsed.parallel_map (fields_parallel har) fun _ _ h => by rw [h, hn.2]

/-- A number that is too large is blamed when it has been taken. -/
theorem memberNumber_parallel (ha : Alike x y ts us) :
    (memberNumber ts).Parallel x y Eq ts us (memberNumber us) := by
  unfold memberNumber
  rcases ha.accept? [.integer] (by decide) with ⟨ht, hu, hh⟩ | ⟨f, g, ht, hu, hk, hfg⟩
  · have hb : Blames (.unexpectedToken .integer (headKind ts)) ts := ⟨rfl, by simpa using hh⟩
    simp only [expect, ht, hu, ← ha.headKind_eq]
    exact Parsed.parallel_refuse ha hb
  · simp only [expect, ht, hu, Front.give, ← hfg.word.2]
    split
    · exact hfg.give rfl
    · rename_i hv
      have hb : Blames (.numberParseError f.token.value) ts :=
        ⟨f.token, hfg.head?_left, rfl, .inl ⟨by simpa using hk, hv⟩⟩
      intro hl
      have h := Trail.cons ha.inStep hb (.nil (hfg.inStep hl))
      rw [Failure.here, Failure.here, hfg.head?_left, hfg.head?_right] at h
      exact .failure h

theorem memberValue_length_le (next : Int64) (ts : List Token) :
    (memberValue next ts).result.2.length ≤ ts.length := by
  rw [memberValue]
  exact Parsed.option_length_le _ _ _

theorem memberValue_parallel (next : Int64) (ha : Alike x y ts us) :
    (memberValue next ts).Parallel x y Eq ts us (memberValue next us) := by
  rw [memberValue, memberValue]
  rcases ha.accept? [.equals] (by decide) with ⟨ht, hu, _⟩ | ⟨f, g, ht, hu, _, hfg⟩
  · simp only [ht, hu]
    exact Parsed.parallel_stay ha rfl
  · simp only [ht, hu, Parsed.parallel_loose]
    exact hfg.chain fun har => memberNumber_parallel har

theorem members_length_le (next : Int64) (ts : List Token) :
    (members next ts).result.2.length ≤ ts.length := by
  rw [members]
  split
  · exact Nat.le_refl _
  · exact Parsed.result_loose_length_le _

theorem members_parallel (next : Int64) (ha : Alike x y ts us) :
    (members next ts).Parallel x y Eq ts us (members next us) := by
  induction ts using tokens_induction generalizing us next with
  | step ts ih =>
    rw [members, members, ← ha.headKind_eq]
    split
    · exact Parsed.parallel_stay ha rfl
    · rw [Parsed.parallel_loose]
      refine Parsed.parallel_andThen (ha.expect (by decide)) ?_ ?_
      · intro n rest _
        refine Parsed.andThen_length_le (memberValue_length_le next rest) ?_
        intro value rest _
        exact Parsed.option_length_le _ _ _
      · intro n n' rest rest' hr _ hn har
        refine Parsed.parallel_andThen (memberValue_parallel next har) ?_ ?_
        · intro value rest _
          exact Parsed.option_length_le _ _ _
        · rintro value _ rest₂ rest₂' hr₂ _ rfl har₂
          rcases har₂.accept? [.comma] (by decide) with ⟨ht, hu, _⟩ | ⟨f, g, ht, hu, _, hfg⟩
          · simp only [ht, hu]
            exact Parsed.parallel_stay har₂ (by rw [hn.2])
          · simp only [ht, hu, Parsed.parallel_loose]
            refine hfg.andThen ?_ fun har₃ => ?_
            · rw [Parsed.result_map_snd]
              exact members_length_le _ _
            · have hl : f.rest.length < ts.length := by
                have := f.shorter
                omega
              exact Parsed.parallel_map (ih f.rest hl (value + 1) har₃) fun _ _ h => by
                rw [h, hn.2]

theorem enumDecl_parallel (ha : Alike x y ts us) :
    (enumDecl ts).Parallel x y Eq ts us (enumDecl us) := by
  refine Parsed.parallel_chain (ha.expect (by decide)) ?_
  intro n n' rest rest' _ _ hn har
  refine Parsed.parallel_andThen (har.expect (by decide)) ?_ ?_
  · intro o rest _
    exact Parsed.chain_length_le (members_length_le 0 rest)
  · intro _ _ rest rest' _ _ _ har
    refine Parsed.parallel_chain (members_parallel 0 har) ?_
    rintro ms _ rest rest' _ _ rfl har
    exact Parsed.parallel_map (har.expect (by decide)) fun _ _ _ => by rw [hn.2]

theorem localName_parallel (ha : Alike x y ts us) :
    (localName ts).Parallel x y Eq ts us (localName us) := by
  rw [localName, localName]
  rcases ha.accept? [.kwAs] (by decide) with ⟨ht, hu, _⟩ | ⟨f, g, ht, hu, _, hfg⟩
  · simp only [ht, hu]
    exact Parsed.parallel_stay ha rfl
  · simp only [ht, hu, Parsed.parallel_loose]
    refine hfg.chain fun har => ?_
    exact Parsed.parallel_map (har.expect (by decide)) fun _ _ h => by rw [h.2]

theorem usingDecl_parallel (ha : Alike x y ts us) :
    (usingDecl ts).Parallel x y Eq ts us (usingDecl us) := by
  refine terminated_parallel (Parsed.parallel_andThen (ha.expect (by decide)) ?_ ?_)
  · intro n rest _
    rw [Parsed.result_map_snd, localName]
    exact Parsed.option_length_le _ _ _
  · intro n n' rest rest' _ _ hn har
    exact Parsed.parallel_map (localName_parallel har) fun _ _ h => by rw [h, hn.2]

theorem word_parallel (statement : Stmt) (ha : Alike x y ts us) :
    (word statement ts).Parallel x y Eq ts us (word statement us) :=
  Parsed.parallel_map (ha.expect (by decide)) fun _ _ _ => rfl

theorem returnValue_parallel (ha : Alike x y ts us) :
    (returnValue ts).Parallel x y Eq ts us (returnValue us) := by
  rw [returnValue, returnValue]
  rcases ha.accept? [.semicolon] (by decide) with ⟨ht, hu, _⟩ | ⟨f, g, ht, hu, _, hfg⟩
  · simp only [ht, hu]
    exact Parsed.parallel_map (terminated_parallel ha.abreast.assignment) fun _ _ h => by rw [h]
  · simp only [ht, hu]
    exact hfg.give rfl

theorem free_parallel (ha : Alike x y ts us) :
    (free ts).Parallel x y Eq ts us (free us) :=
  Parsed.parallel_map (terminated_parallel ha.abreast.access) fun _ _ h => by rw [h]

theorem operations_parallel (ha : Alike x y ts us) :
    (operations ts).Parallel x y Eq ts us (operations us) := by
  induction ts using tokens_induction generalizing us with
  | step ts ih =>
    rw [operations, operations]
    rcases ha.accept? [.string] (by decide) with ⟨ht, hu, _⟩ | ⟨f, g, ht, hu, _, hfg⟩
    · simp only [ht, hu]
      exact Parsed.parallel_map (ha.expect (by decide)) fun _ _ _ => rfl
    · simp only [ht, hu]
      refine hfg.chain fun har => ?_
      exact Parsed.parallel_map (ih f.rest f.shorter har) fun _ _ h => by rw [h, hfg.word.2]

theorem assembly_parallel (ha : Alike x y ts us) :
    (assembly ts).Parallel x y Eq ts us (assembly us) := by
  refine Parsed.parallel_chain (ha.expect (by decide)) ?_
  intro _ _ rest rest' _ _ _ har
  exact Parsed.parallel_map (operations_parallel har) fun _ _ h => by rw [h]

/-! ### Signatures -/

theorem variableMark_length_le (ts : List Token) :
    (variableMark ts).result.2.length ≤ ts.length := by
  rw [variableMark]
  exact Parsed.option_length_le _ _ _

theorem variableMark_parallel (ha : Alike x y ts us) :
    (variableMark ts).Parallel x y Eq ts us (variableMark us) := by
  rw [variableMark, variableMark]
  rcases ha.accept? [.kwVar] (by decide) with ⟨ht, hu, _⟩ | ⟨f, g, ht, hu, _, hfg⟩
  · simp only [ht, hu]
    exact Parsed.parallel_stay ha rfl
  · simp only [ht, hu, Parsed.parallel_loose]
    exact hfg.give rfl

theorem param_parallel (ha : Alike x y ts us) :
    (param ts).Parallel x y Eq ts us (param us) := by
  refine Parsed.parallel_chain (ha.expect (by decide)) ?_
  intro n n' rest rest' _ _ hn har
  refine Parsed.parallel_andThen (har.expect (by decide)) ?_ ?_
  · intro c rest _
    exact Parsed.chain_length_le (variableMark_length_le rest)
  · intro _ _ rest rest' _ _ _ har
    refine Parsed.parallel_chain (variableMark_parallel har) ?_
    rintro mark _ rest rest' _ _ rfl har
    exact Parsed.parallel_map har.abreast.typeExpr fun _ _ h => by rw [h, hn.2]

theorem params_parallel (ha : Alike x y ts us) :
    (params ts).Parallel x y Eq ts us (params us) := by
  induction ts using tokens_induction generalizing us with
  | step ts ih =>
    rw [params, params]
    refine Parsed.parallel_andThen (param_parallel ha) ?_ ?_
    · intro p rest _
      exact Parsed.option_length_le _ _ _
    · rintro p _ rest rest' hr _ rfl har
      rcases har.accept? [.comma] (by decide) with ⟨ht, hu, _⟩ | ⟨f, g, ht, hu, _, hfg⟩
      · simp only [ht, hu]
        exact Parsed.parallel_stay har rfl
      · simp only [ht, hu, Parsed.parallel_loose]
        refine hfg.chain fun har => ?_
        exact Parsed.parallel_map (ih f.rest (Nat.lt_trans f.shorter hr) har)
          fun _ _ h => by rw [h]

theorem paramList_parallel (ha : Alike x y ts us) :
    (paramList ts).Parallel x y Eq ts us (paramList us) := by
  rw [paramList, paramList]
  rcases ha.accept? [.rParen] (by decide) with ⟨ht, hu, _⟩ | ⟨f, g, ht, hu, _, hfg⟩
  · simp only [ht, hu]
    refine Parsed.parallel_chain (params_parallel ha) ?_
    intro ps qs rest rest' _ _ hps har
    exact Parsed.parallel_map (har.expect (by decide)) fun _ _ _ => hps
  · simp only [ht, hu]
    exact hfg.give rfl

theorem resultType_parallel (ha : Alike x y ts us) :
    (resultType ts).Parallel x y Eq ts us (resultType us) := by
  rw [resultType, resultType]
  rcases ha.accept? [.arrow] (by decide) with ⟨ht, hu, _⟩ | ⟨f, g, ht, hu, _, hfg⟩
  · simp only [ht, hu]
    exact Parsed.parallel_stay ha rfl
  · simp only [ht, hu, Parsed.parallel_loose]
    exact hfg.chain fun har => har.abreast.typeExpr

theorem ownedName_parallel (ha : Alike x y ts us) :
    (ownedName ts).Parallel x y Eq ts us (ownedName us) := by
  refine Parsed.parallel_andThen (ha.expect (by decide)) ?_ ?_
  · intro n rest _
    exact Parsed.option_length_le _ _ _
  · intro n n' rest rest' _ _ hn har
    rcases har.accept? [.scopeResolution] (by decide) with ⟨ht, hu, _⟩ | ⟨f, g, ht, hu, _, hfg⟩
    · simp only [ht, hu]
      exact Parsed.parallel_stay har (by rw [hn.2])
    · simp only [ht, hu, Parsed.parallel_loose]
      refine hfg.chain fun har => ?_
      exact Parsed.parallel_map (har.expect (by decide)) fun _ _ h => by rw [h.2, hn.2]

theorem signature_parallel (ha : Alike x y ts us) :
    (signature ts).Parallel x y Eq ts us (signature us) := by
  refine Parsed.parallel_chain (ownedName_parallel ha) ?_
  rintro name _ rest rest' _ _ rfl har
  refine Parsed.parallel_chain (har.expect (by decide)) ?_
  intro _ _ rest rest' _ _ _ har
  refine Parsed.parallel_andThen (paramList_parallel har) ?_ ?_
  · intro ps rest _
    rw [Parsed.result_map_snd, resultType]
    exact Parsed.option_length_le _ _ _
  · rintro ps _ rest rest' _ _ rfl har
    exact Parsed.parallel_map (resultType_parallel har) fun _ _ h => by rw [h]

end

/-! ### Statements and blocks, on lists whose tails are read in parallel -/

theorem blockRest_length_le (ts : List Token) :
    (blockRest .standard ts).outcome.result.2.length ≤ ts.length := by
  rw [blockRest]
  split
  · rw [Run.outcome_silent]
    exact Parsed.result_loose_length_le _
  · split
    · exact Nat.le_refl _
    · exact Parsed.result_loose_length_le _

theorem blockTail_length_le (ts : List Token) :
    (blockTail .standard ts).outcome.result.2.length ≤ ts.length := by
  rw [blockTail, Run.result_trimming]
  exact Nat.le_trans (blockRest_length_le _) (skipSemicolons_length_le ts)

/-- Every reader of statements that starts at `ts` and `us` reads them in parallel. -/
structure Lockstep (x y ts us : List Token) : Prop where
  statement : (statement .standard ts).Parallel x y Eq ts us (statement .standard us)
  ifElse : (ifElse .standard ts).Parallel x y Eq ts us (ifElse .standard us)
  block : (block .standard ts).Parallel x y Eq ts us (block .standard us)
  blockTail : (blockTail .standard ts).Parallel x y Eq ts us (blockTail .standard us)

section

variable {x y ts us : List Token}
  (ih : ∀ ts' us', ts'.length < ts.length → Alike x y ts' us' → Lockstep x y ts' us')
  (ha : Alike x y ts us)

include ih ha

theorem block_parallel : (block .standard ts).Parallel x y Eq ts us (block .standard us) := by
  rw [block, block]
  refine Run.parallel_andThen (ha.expect (by decide)) ?_ ?_
  · intro o rest _
    exact blockTail_length_le rest
  · intro _ _ rest rest' hr _ _ har
    exact (ih rest rest' hr har).blockTail

theorem namespaceDecl_parallel :
    (namespaceDecl .standard ts).Parallel x y Eq ts us (namespaceDecl .standard us) := by
  rw [namespaceDecl, namespaceDecl]
  refine Run.parallel_chain (path_parallel ha) ?_
  rintro names _ rest rest' hr _ rfl har
  exact Run.parallel_map (ih rest rest' hr har).block fun _ _ h => by rw [h]

theorem functionDecl_parallel :
    (functionDecl .standard ts).Parallel x y Eq ts us (functionDecl .standard us) := by
  rw [functionDecl, functionDecl]
  refine Run.parallel_chain (signature_parallel ha) ?_
  rintro declaration _ rest rest' hr _ rfl har
  exact Run.parallel_map (ih rest rest' hr har).block fun _ _ h => by rw [h]

theorem ifElse_parallel :
    (ifElse .standard ts).Parallel x y Eq ts us (ifElse .standard us) := by
  rw [ifElse, ifElse]
  refine Run.parallel_chain ha.abreast.assignment ?_
  rintro condition _ rest rest' hr _ rfl har
  refine Run.parallel_andThen (ih rest rest' hr har).block ?_ ?_
  · intro body rest _
    split
    · exact Nat.le_refl _
    · exact Parsed.result_loose_length_le _
  · rintro body _ rest₂ rest₂' hr₂ _ rfl har₂
    have hl := Nat.lt_trans hr₂ hr
    rcases har₂.accept? [.kwElse] (by decide) with ⟨ht, hu, _⟩ | ⟨f, g, ht, hu, _, hfg⟩
    · simp only [ht, hu]
      exact Run.parallel_stay har₂ rfl
    · simp only [ht, hu, Run.parallel_loose]
      refine hfg.run fun har₃ => ?_
      have hl := Nat.lt_trans f.shorter hl
      rcases har₃.accept? [.kwIf] (by decide) with ⟨ht, hu, _⟩ | ⟨f', g', ht, hu, _, hfg'⟩
      · simp only [ht, hu]
        exact Run.parallel_map (ih f.rest g.rest hl har₃).block fun _ _ h => by rw [h]
      · simp only [ht, hu]
        refine hfg'.run fun har₄ => ?_
        have hl := Nat.lt_trans f'.shorter hl
        exact Run.parallel_map (ih f'.rest g'.rest hl har₄).ifElse fun _ _ h => by rw [h]

theorem whileLoop_parallel :
    (whileLoop .standard ts).Parallel x y Eq ts us (whileLoop .standard us) := by
  rw [whileLoop, whileLoop]
  refine Run.parallel_chain ha.abreast.assignment ?_
  rintro condition _ rest rest' hr _ rfl har
  exact Run.parallel_map (ih rest rest' hr har).block fun _ _ h => by rw [h]

theorem doWhile_parallel :
    (doWhile .standard ts).Parallel x y Eq ts us (doWhile .standard us) := by
  rw [doWhile, doWhile]
  refine Run.parallel_chain (block_parallel ih ha) ?_
  rintro body _ rest rest' _ _ rfl har
  refine Run.parallel_chain (har.expect (by decide)) ?_
  intro _ _ rest rest' _ _ _ har
  exact Parsed.parallel_map (terminated_parallel har.abreast.assignment) fun _ _ h => by rw [h]

omit ih in
theorem forLoop_parallel
    (ih : ∀ ts' us', ts'.length ≤ ts.length → Alike x y ts' us' → Lockstep x y ts' us') :
    (forLoop .standard ts).Parallel x y Eq ts us (forLoop .standard us) := by
  rw [forLoop, forLoop, dif_neg (by simp [RuleTable.standard]),
    dif_neg (by simp [RuleTable.standard])]
  refine Run.parallel_chain (ih ts us (Nat.le_refl _) ha).statement ?_
  rintro initial _ rest rest' hr _ rfl har
  refine Run.parallel_chain (ih rest rest' (Nat.le_of_lt hr) har).statement ?_
  rintro condition _ rest₂ rest₂' hr₂ _ rfl har₂
  refine Run.parallel_chain har₂.abreast.assignment ?_
  rintro iteration _ rest₃ rest₃' hr₃ _ rfl har₃
  exact Run.parallel_map (ih rest₃ rest₃' (by omega) har₃).block fun _ _ h => by rw [h]

theorem statement_parallel :
    (statement .standard ts).Parallel x y Eq ts us (statement .standard us) := by
  cases ha.heads with
  | stop ht hu =>
    rw [statement_of_none (by rw [ht]; rfl), statement_of_none (by rw [hu]; rfl)]
    exact Run.parallel_after (expressionStmt_parallel ha)
  | @cons t u ts us _ hw har =>
    have ih' : ∀ ts' us', ts'.length ≤ ts.length → Alike x y ts' us' → Lockstep x y ts' us' :=
      fun ts' us' hl => ih ts' us' (Nat.lt_succ_of_le hl)
    have iht : ∀ ts' us', ts'.length < ts.length → Alike x y ts' us' → Lockstep x y ts' us' :=
      fun ts' us' hl => ih' ts' us' (Nat.le_of_lt hl)
    cases hrule : RuleTable.standard t.kind with
    | none =>
      have hrule' : RuleTable.standard u.kind = none := hw.1 ▸ hrule
      rw [statement_of_none hrule, statement_of_none hrule']
      exact Run.parallel_after (expressionStmt_parallel ha)
    | some rule =>
      have hrule' : RuleTable.standard u.kind = some rule := hw.1 ▸ hrule
      rw [statement_of_rule hrule, statement_of_rule hrule']
      apply Run.parallel_after
      unfold RuleTable.standard at hrule
      split at hrule <;> cases hrule <;> rw [byRule, byRule]
      · exact Run.parallel_skipping har fun ha => namespaceDecl_parallel iht ha
      · exact Run.parallel_skipping har fun ha => functionDecl_parallel iht ha
      · exact Run.parallel_skipping har fun ha => record_parallel _ ha
      · exact Run.parallel_skipping har fun ha => enumDecl_parallel ha
      · exact Run.parallel_skipping har fun ha => record_parallel _ ha
      · rw [headKind_cons, headKind_cons, ← hw.1]
        exact Run.parallel_skipping har fun ha => variableDecl_parallel _ ha
      · rw [headKind_cons, headKind_cons, ← hw.1]
        exact Run.parallel_skipping har fun ha => variableDecl_parallel _ ha
      · exact Run.parallel_skipping har fun ha => usingDecl_parallel ha
      · refine Run.parallel_skipping har fun ha => ?_
        exact Run.parallel_map (ih' ts us (Nat.le_refl _) ha).ifElse fun _ _ h => by rw [h]
      · exact Run.parallel_skipping har fun ha => whileLoop_parallel iht ha
      · exact Run.parallel_skipping har fun ha => doWhile_parallel iht ha
      · exact Run.parallel_skipping har fun ha => forLoop_parallel ha ih'
      · exact Run.parallel_skipping har fun ha => word_parallel _ ha
      · exact Run.parallel_skipping har fun ha => word_parallel _ ha
      · exact Run.parallel_skipping har fun ha => returnValue_parallel ha
      · exact Run.parallel_skipping har fun ha => free_parallel ha
      · exact Run.parallel_skipping har fun ha => assembly_parallel ha

end

/-! ### Sequences -/

/-- Two statements that were read, or recovered from, in parallel. -/
def Recovered.Parallel (x y : List Token) {ts us : List Token} (r : Recovered ts)
    (r' : Recovered us) : Prop :=
  x.length ≤ r.rest.length →
    r.statement? = r'.statement? ∧
      Trail x y ts us (faults r.events) (faults r'.events) r.rest r'.rest

section

variable {x y ts us : List Token}

theorem Run.Parallel.recover {r : Run Stmt ts.length} {r' : Run Stmt us.length}
    (h : r.Parallel x y Eq ts us r') (ha : Alike x y ts us) :
    r.recover.Parallel x y r'.recover := by
  obtain ⟨events, outcome⟩ := r
  obtain ⟨events', outcome'⟩ := r'
  intro hl
  cases outcome with
  | done s rest shorter =>
    cases outcome' with
    | failed g rest' within' => cases h hl
    | done s' rest' shorter' =>
      cases h hl with
      | value hs ht => exact ⟨congrArg some hs, ht⟩
  | failed f rest within =>
    have hrest : x.length ≤ rest.length := Nat.le_trans hl (resume_length_le ts rest)
    cases outcome' with
    | done s' rest' shorter' => cases h hrest
    | failed g rest' within' =>
      cases h hrest with
      | failure ht =>
        refine ⟨rfl, ?_⟩
        have hs := InStep.resume ha ht.inStep hl
        simp only [Run.recover, faults_append, faults_cons_fault, faults_cons_resumed, faults_nil]
        simpa using ht.append (.nil hs)

theorem Recovered.parallel_andThen {r : Recovered ts} {r' : Recovered us}
    (he : headKind ts ≠ .eof) (he' : headKind us ≠ .eof)
    {next : (rest : List Token) → rest.length < ts.length → Run (List Stmt) (rest.length + 1)}
    {next' : (rest : List Token) → rest.length < us.length → Run (List Stmt) (rest.length + 1)}
    (hr : r.Parallel x y r')
    (hw : (next r.rest (r.progress he)).outcome.result.2.length ≤ r.rest.length)
    (hn : Alike x y r.rest r'.rest → (next r.rest (r.progress he)).Parallel x y Eq r.rest r'.rest
      (next' r'.rest (r'.progress he'))) :
    (r.andThen he next).Parallel x y Eq ts us (r'.andThen he' next') := by
  intro hl
  rw [Recovered.andThen, Parsed.result_before, Parsed.result_map_snd] at hl
  obtain ⟨hs, ht⟩ := hr (Nat.le_trans hl hw)
  have h := Run.parallel_map (S := Eq) (hn ht.inStep.alike)
    (f := (r.statement?.toList ++ ·)) (g := (r'.statement?.toList ++ ·))
    (fun a b hab => by rw [hab, hs]) (by rwa [Run.outcome_map, Parsed.result_map_snd])
  rw [Recovered.andThen, Recovered.andThen, Parsed.result_before, Parsed.result_before,
    faults_append, faults_append]
  exact h.behind ht

variable (ih : ∀ ts' us', ts'.length < ts.length → Alike x y ts' us' → Lockstep x y ts' us')
  (ha : Alike x y ts us)

include ih ha

theorem blockRest_parallel :
    (blockRest .standard ts).Parallel x y Eq ts us (blockRest .standard us) := by
  rw [blockRest, blockRest]
  rcases ha.accept? [.rBrace] (by decide) with ⟨ht, hu, _⟩ | ⟨f, g, ht, hu, _, hfg⟩
  · simp only [ht, hu]
    by_cases he : headKind ts = .eof
    · have he' : headKind us = .eof := ha.headKind_eq ▸ he
      rw [dif_pos he, dif_pos he']
      exact Run.parallel_fault ha he (Run.parallel_stay ha rfl)
    · have he' : headKind us ≠ .eof := ha.headKind_eq ▸ he
      rw [dif_neg he, dif_neg he', Run.parallel_loose]
      refine Recovered.parallel_andThen he he' ((statement_parallel ih ha).recover ha) ?_ ?_
      · exact blockTail_length_le _
      · exact fun har => (ih _ _ (Recovered.progress _ he) har).blockTail
  · simp only [ht, hu]
    exact Parsed.parallel_loose.2 (hfg.give rfl)

theorem blockTail_parallel :
    (blockTail .standard ts).Parallel x y Eq ts us (blockTail .standard us) := by
  intro hl
  have hle := skipSemicolons_length_le ts
  rw [blockTail, Run.result_trimming] at hl
  have hs := ha.skipSemicolons (Nat.le_trans hl (blockRest_length_le _))
  have h := blockRest_parallel (fun ts' us' h => ih ts' us' (Nat.lt_of_lt_of_le h hle)) hs.alike hl
  rw [blockTail, blockTail, Run.result_trimming, Run.result_trimming]
  exact h.behind (.nil hs)

end

theorem Alike.lockstep {x y ts us : List Token} (h : Alike x y ts us) : Lockstep x y ts us := by
  induction ts using tokens_induction generalizing us with
  | step ts ih =>
    have ih' : ∀ ts' us', ts'.length < ts.length → Alike x y ts' us' → Lockstep x y ts' us' :=
      fun ts' us' hl ha => ih ts' hl ha
    exact {
      statement := statement_parallel ih' h
      ifElse := ifElse_parallel ih' h
      block := block_parallel ih' h
      blockTail := blockTail_parallel ih' h }

/-! ### Programs -/

theorem program_length_le (ts : List Token) :
    (program .standard ts).rest.length ≤ ts.length := by
  have hle := skipSemicolons_length_le ts
  by_cases he : headKind (skipSemicolons ts) = .eof
  · rw [program_of_eof he]
    exact hle
  · have hlt := (statement .standard (skipSemicolons ts)).recover.progress he
    have ih := program_length_le (statement .standard (skipSemicolons ts)).recover.rest
    rw [program_of_statement he]
    dsimp only
    omega
termination_by ts.length

/-- Two programs in parallel have the same statements and the same failures. -/
theorem program_parallel {x y ts us : List Token} (ha : Alike x y ts us)
    (hl : x.length ≤ (program .standard ts).rest.length) :
    (program .standard ts).file = (program .standard us).file ∧
      Trail x y ts us (faults (program .standard ts).events)
        (faults (program .standard us).events) (program .standard ts).rest
        (program .standard us).rest := by
  have hle := skipSemicolons_length_le ts
  by_cases he : headKind (skipSemicolons ts) = .eof
  · rw [program_of_eof he] at hl
    have hs := ha.skipSemicolons hl
    rw [program_of_eof he, program_of_eof (hs.alike.headKind_eq ▸ he)]
    exact ⟨rfl, .nil hs⟩
  · rw [program_of_statement he] at hl
    dsimp only at hl
    have hlt := (statement .standard (skipSemicolons ts)).recover.progress he
    have hrest := Nat.le_trans hl (program_length_le _)
    have hs := ha.skipSemicolons (by omega)
    obtain ⟨hstatement, ht⟩ := hs.alike.lockstep.statement.recover hs.alike hrest
    obtain ⟨hfile, hp⟩ := program_parallel ht.inStep.alike hl
    rw [program_of_statement he, program_of_statement (hs.alike.headKind_eq ▸ he)]
    dsimp only
    refine ⟨by rw [hstatement, hfile], ?_⟩
    rw [faults_append, faults_append]
    exact hs.trail (ht.append hp)
termination_by ts.length

end FrontEnd.Grammar
