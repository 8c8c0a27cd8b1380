import FrontEnd.Proofs.Parallel.Basic
import FrontEnd.Proofs.Phrase.Completeness

/-!
Expressions and types in parallel: every reader of the expression grammar does the same on two
lists that agree, up to the point where they differ.
-/

set_option autoImplicit false

namespace FrontEnd.Grammar

/-! ### Loops do not move back -/

theorem binaryTail_length_le (level : Precedence) (levels : List Precedence) (left : Expr)
    (ts : List Token) : (binaryTail level levels left ts).result.2.length ≤ ts.length := by
  rw [binaryTail]
  exact Parsed.option_length_le _ _ _

theorem castTail_length_le (operand : Expr) (ts : List Token) :
    (castTail operand ts).result.2.length ≤ ts.length := by
  rw [castTail]
  exact Parsed.option_length_le _ _ _

theorem accessTail_length_le (base : Expr) (ts : List Token) :
    (accessTail base ts).result.2.length ≤ ts.length := by
  rw [accessTail]
  split
  · exact Nat.le_refl _
  · split
    · split <;> exact Parsed.result_loose_length_le _
    · exact Parsed.result_loose_length_le _
    · exact Parsed.result_loose_length_le _
    · exact Parsed.result_loose_length_le _
    · exact Nat.le_refl _

/-! ### The readers, on lists whose tails are read in parallel -/

/-- Every reader that starts at `ts` and `us` reads them in parallel. -/
structure Abreast (x y ts us : List Token) : Prop where
  assignment : (assignment ts).Parallel x y Eq ts us (assignment us)
  binary (levels : List Precedence) :
    (binary levels ts).Parallel x y Eq ts us (binary levels us)
  binaryTail (level : Precedence) (levels : List Precedence) (left : Expr) :
    (binaryTail level levels left ts).Parallel x y Eq ts us (binaryTail level levels left us)
  castTail (operand : Expr) :
    (castTail operand ts).Parallel x y Eq ts us (castTail operand us)
  unary : (unary ts).Parallel x y Eq ts us (unary us)
  access : (access ts).Parallel x y Eq ts us (access us)
  accessTail (base : Expr) : (accessTail base ts).Parallel x y Eq ts us (accessTail base us)
  listUntil {close : TokenKind} :
    close ≠ .eof → (listUntil close ts).Parallel x y Eq ts us (listUntil close us)
  elements : (elements ts).Parallel x y Eq ts us (elements us)
  typeExpr : (typeExpr ts).Parallel x y Eq ts us (typeExpr us)

theorem primary_of_eof {ts : List Token} (h : headKind ts = .eof) :
    primary ts = .refuse (.expectedPrimaryExpression .eof) ts := by
  cases ts with
  | nil => rw [primary]; rfl
  | cons t ts =>
    rw [headKind_cons] at h
    rw [primary]
    simp only [front?, h]

theorem literal_parallel {x y ts us : List Token} {α : Type} {make : α → Expr} {value? : Option α}
    {f : Front ts} {g : Front us} (ha : Alike x y ts us) (hfg : Fronts x y f g)
    (hb : value? = none → Blames (.numberParseError f.token.value) ts) :
    (literal make value? f).Parallel x y Eq ts us (literal make value? g) := by
  cases value? with
  | none =>
    rw [literal, literal, ← hfg.word.2]
    exact Parsed.parallel_refuse ha (hb rfl)
  | some value => exact hfg.give rfl

section

variable {x y ts us : List Token}
  (ih : ∀ ts' us', ts'.length < ts.length → Alike x y ts' us' → Abreast x y ts' us')
  (ha : Alike x y ts us)

include ih ha

theorem primary_parallel : (primary ts).Parallel x y Eq ts us (primary us) := by
  rcases ha.front? with ⟨ht, hu⟩ | ⟨f, g, hf, hg, _, hfg⟩
  · rw [primary_of_eof ht, primary_of_eof hu]
    exact Parsed.parallel_refuse ha ht
  · rw [primary, primary, hf, hg]
    dsimp only
    rw [← hfg.word.1, ← hfg.word.2]
    split
    · exact hfg.give rfl
    · exact hfg.give rfl
    · exact hfg.give rfl
    · rename_i hk
      exact literal_parallel ha hfg fun hv => ⟨f.token, hfg.head?_left, rfl, .inl ⟨hk, hv⟩⟩
    · rename_i hk
      exact literal_parallel ha hfg fun hv => ⟨f.token, hfg.head?_left, rfl, .inr ⟨hk, hv⟩⟩
    · exact hfg.give rfl
    · exact hfg.give rfl
    · exact hfg.give rfl
    · refine hfg.chain fun har => ?_
      refine Parsed.parallel_chain (ih _ _ f.shorter har).assignment ?_
      intro a b rest rest' _ _ hab har'
      exact Parsed.parallel_map (har'.expect (by decide)) fun _ _ _ => by rw [hab]
    · exact Parsed.parallel_refuse ha (congrArg headKind hfg.left)

theorem qualified_parallel : (qualified ts).Parallel x y Eq ts us (qualified us) := by
  rw [qualified, qualified]
  refine Parsed.parallel_andThen (primary_parallel ih ha) ?_ ?_
  · intro a rest _
    exact Parsed.option_length_le _ _ _
  · rintro a _ rest rest' hr _ rfl har
    rcases har.accept? [.scopeResolution] (by decide) with
      ⟨ht, hu, _⟩ | ⟨f, g, ht, hu, _, hfg⟩
    · simp only [ht, hu]
      exact Parsed.parallel_stay har rfl
    · simp only [ht, hu, Parsed.parallel_loose]
      refine hfg.chain fun har' => ?_
      exact Parsed.parallel_map (ih _ _ (Nat.lt_trans f.shorter hr) har').access
        fun _ _ h => by rw [h]

theorem arrayLiteral_parallel : (arrayLiteral ts).Parallel x y Eq ts us (arrayLiteral us) := by
  rw [arrayLiteral, arrayLiteral]
  rcases ha.accept? [.lBracket] (by decide) with ⟨ht, hu, _⟩ | ⟨f, g, ht, hu, _, hfg⟩
  · simp only [ht, hu]
    exact qualified_parallel ih ha
  · simp only [ht, hu]
    refine hfg.chain fun har => ?_
    exact Parsed.parallel_map ((ih _ _ f.shorter har).listUntil (by decide)) fun _ _ h => by rw [h]

theorem access_parallel : (access ts).Parallel x y Eq ts us (access us) := by
  rw [access, access]
  refine Parsed.parallel_andThen (arrayLiteral_parallel ih ha) ?_ ?_
  · intro a rest _
    exact accessTail_length_le a rest
  · rintro a _ rest rest' hr _ rfl har
    exact (ih rest rest' hr har).accessTail a

theorem accessTail_parallel (base : Expr) :
    (accessTail base ts).Parallel x y Eq ts us (accessTail base us) := by
  rcases ha.front? with ⟨ht, hu⟩ | ⟨f, g, hf, hg, _, hfg⟩
  · have hs : .eof ∉ Precedence.postfixUnary.operators := by decide
    exact Parsed.parallel_of_gives ha (accessTail_stay (ht ▸ hs)) (accessTail_stay (hu ▸ hs)) rfl
  · rw [accessTail, accessTail, hf, hg]
    dsimp only
    rw [← hfg.word.1]
    split
    · rename_i hk
      split
      · rw [Parsed.parallel_loose]
        refine hfg.chain fun har => ?_
        refine Parsed.parallel_andThen ((ih _ _ f.shorter har).listUntil (by decide)) ?_ ?_
        · intro a rest _
          exact accessTail_length_le _ rest
        · rintro a _ rest rest' hr _ rfl har'
          exact (ih rest rest' (Nat.lt_trans hr f.shorter) har').accessTail _
      · rw [Parsed.parallel_loose]
        exact Parsed.parallel_refuse ha ((congrArg headKind hfg.left).trans hk)
    · rw [Parsed.parallel_loose]
      refine hfg.chain fun har => ?_
      refine Parsed.parallel_chain (ih _ _ f.shorter har).assignment ?_
      rintro a _ rest rest' hr _ rfl har'
      refine Parsed.parallel_andThen (har'.expect (by decide)) ?_ ?_
      · intro t rest _
        exact accessTail_length_le _ rest
      · intro t u rest₂ rest₂' hr₂ _ _ har₂
        exact (ih rest₂ rest₂' (Nat.lt_trans hr₂ (Nat.lt_trans hr f.shorter)) har₂).accessTail _
    · rw [Parsed.parallel_loose]
      refine hfg.chain fun har => ?_
      exact Parsed.parallel_map (ih _ _ f.shorter har).access fun _ _ h => by rw [h]
    · rw [Parsed.parallel_loose]
      refine hfg.chain fun har => ?_
      exact Parsed.parallel_map (ih _ _ f.shorter har).access fun _ _ h => by rw [h]
    · exact Parsed.parallel_stay ha rfl

theorem unary_parallel : (unary ts).Parallel x y Eq ts us (unary us) := by
  rw [unary, unary]
  rcases ha.accept? Precedence.prefixUnary.operators (by decide) with
    ⟨ht, hu, _⟩ | ⟨f, g, ht, hu, _, hfg⟩
  · simp only [ht, hu]
    exact access_parallel ih ha
  · simp only [ht, hu]
    refine hfg.chain fun har => ?_
    have h := ih _ _ f.shorter har
    rw [← hfg.word.1]
    split
    · exact Parsed.parallel_map h.access fun _ _ h => by rw [h]
    · exact Parsed.parallel_map h.access fun _ _ h => by rw [h]
    · exact Parsed.parallel_map h.typeExpr fun _ _ h => by rw [h]
    · exact Parsed.parallel_map h.unary fun _ _ h => by rw [h]

theorem castTail_parallel (operand : Expr) :
    (castTail operand ts).Parallel x y Eq ts us (castTail operand us) := by
  rw [castTail, castTail]
  rcases ha.accept? Precedence.cast.operators (by decide) with
    ⟨ht, hu, _⟩ | ⟨f, g, ht, hu, _, hfg⟩
  · simp only [ht, hu]
    exact Parsed.parallel_stay ha rfl
  · simp only [ht, hu, Parsed.parallel_loose]
    refine hfg.chain fun har => ?_
    refine Parsed.parallel_andThen (ih _ _ f.shorter har).typeExpr ?_ ?_
    · intro t rest _
      exact castTail_length_le _ rest
    · rintro t _ rest rest' hr _ rfl har'
      exact (ih rest rest' (Nat.lt_trans hr f.shorter) har').castTail _

theorem cast_parallel : (cast ts).Parallel x y Eq ts us (cast us) := by
  rw [cast, cast]
  refine Parsed.parallel_andThen (unary_parallel ih ha) ?_ ?_
  · intro a rest _
    exact castTail_length_le a rest
  · rintro a _ rest rest' hr _ rfl har
    exact (ih rest rest' hr har).castTail a

theorem binaryTail_parallel (level : Precedence) (levels : List Precedence) (left : Expr) :
    (binaryTail level levels left ts).Parallel x y Eq ts us (binaryTail level levels left us) := by
  rw [binaryTail, binaryTail]
  rcases ha.accept? level.operators (by cases level <;> decide) with
    ⟨ht, hu, _⟩ | ⟨f, g, ht, hu, _, hfg⟩
  · simp only [ht, hu]
    exact Parsed.parallel_stay ha rfl
  · simp only [ht, hu, Parsed.parallel_loose]
    refine hfg.chain fun har => ?_
    rw [← hfg.word.1]
    refine Parsed.parallel_andThen ((ih _ _ f.shorter har).binary levels) ?_ ?_
    · intro a rest _
      exact binaryTail_length_le level levels _ rest
    · rintro a _ rest rest' hr _ rfl har'
      exact (ih rest rest' (Nat.lt_trans hr f.shorter) har').binaryTail level levels _

theorem binary_parallel (levels : List Precedence) :
    (binary levels ts).Parallel x y Eq ts us (binary levels us) := by
  induction levels with
  | nil =>
    rw [binary, binary]
    exact cast_parallel ih ha
  | cons level levels ihl =>
    rw [binary, binary]
    refine Parsed.parallel_andThen ihl ?_ ?_
    · intro a rest _
      exact binaryTail_length_le level levels a rest
    · rintro a _ rest rest' hr _ rfl har
      exact (ih rest rest' hr har).binaryTail level levels a

theorem assignment_parallel : (assignment ts).Parallel x y Eq ts us (assignment us) := by
  rw [assignment, assignment]
  refine Parsed.parallel_andThen (binary_parallel ih ha _) ?_ ?_
  · intro a rest _
    exact Parsed.option_length_le _ _ _
  · rintro a _ rest rest' hr _ rfl har
    rcases har.accept? Precedence.assignment.operators (by decide) with
      ⟨ht, hu, _⟩ | ⟨f, g, ht, hu, _, hfg⟩
    · simp only [ht, hu]
      exact Parsed.parallel_stay har rfl
    · simp only [ht, hu, Parsed.parallel_loose]
      refine hfg.chain fun har' => ?_
      rw [← hfg.word.1]
      exact Parsed.parallel_map (ih _ _ (Nat.lt_trans f.shorter hr) har').assignment
        fun _ _ h => by rw [h]

theorem elements_parallel : (elements ts).Parallel x y Eq ts us (elements us) := by
  rw [elements, elements]
  refine Parsed.parallel_andThen (assignment_parallel ih ha) ?_ ?_
  · intro a rest _
    exact Parsed.option_length_le _ _ _
  · rintro a _ rest rest' hr _ rfl har
    rcases har.accept? [.comma] (by decide) with ⟨ht, hu, _⟩ | ⟨f, g, ht, hu, _, hfg⟩
    · simp only [ht, hu]
      exact Parsed.parallel_stay har rfl
    · simp only [ht, hu, Parsed.parallel_loose]
      refine hfg.chain fun har' => ?_
      exact Parsed.parallel_map (ih _ _ (Nat.lt_trans f.shorter hr) har').elements
        fun _ _ h => by rw [h]

theorem listUntil_parallel {close : TokenKind} (hc : close ≠ .eof) :
    (listUntil close ts).Parallel x y Eq ts us (listUntil close us) := by
  rw [listUntil, listUntil]
  rcases ha.accept? [close] (by simpa using hc.symm) with ⟨ht, hu, _⟩ | ⟨f, g, ht, hu, _, hfg⟩
  · simp only [ht, hu]
    refine Parsed.parallel_chain (elements_parallel ih ha) ?_
    intro a b rest rest' _ _ hab har
    exact Parsed.parallel_map (har.expect hc) fun _ _ _ => hab
  · simp only [ht, hu]
    exact hfg.give rfl

end

/-! ### Types -/

theorem path_parallel {x y ts us : List Token} (ha : Alike x y ts us) :
    (path ts).Parallel x y Eq ts us (path us) := by
  induction ts using tokens_induction generalizing us with
  | step ts ih =>
    rw [path, path]
    refine Parsed.parallel_andThen (ha.expect (by decide)) ?_ ?_
    · intro a rest _
      exact Parsed.option_length_le _ _ _
    · intro t u rest rest' hr _ htu har
      rcases har.accept? [.scopeResolution] (by decide) with
        ⟨hf, hg, _⟩ | ⟨f, g, hf, hg, _, hfg⟩
      · simp only [hf, hg]
        exact Parsed.parallel_stay har (by rw [htu.2])
      · simp only [hf, hg, Parsed.parallel_loose]
        refine hfg.chain fun har' => ?_
        exact Parsed.parallel_map (ih _ (Nat.lt_trans f.shorter hr) har')
          fun _ _ h => by rw [h, htu.2]

section

variable {x y ts us : List Token}
  (ih : ∀ ts' us', ts'.length < ts.length → Alike x y ts' us' → Abreast x y ts' us')
  (ha : Alike x y ts us)

include ih ha

theorem pointerType_parallel : (pointerType ts).Parallel x y Eq ts us (pointerType us) := by
  rw [pointerType, pointerType]
  rcases ha.accept? [.caret] (by decide) with ⟨ht, hu, _⟩ | ⟨f, g, ht, hu, _, hfg⟩
  · simp only [ht, hu]
    exact Parsed.parallel_map (path_parallel ha) fun _ _ h => by rw [h]
  · simp only [ht, hu]
    refine hfg.chain fun har => ?_
    exact Parsed.parallel_map (ih _ _ f.shorter har).typeExpr fun _ _ h => by rw [h]

theorem typeExpr_parallel : (typeExpr ts).Parallel x y Eq ts us (typeExpr us) := by
  rw [typeExpr, typeExpr]
  rcases ha.accept? [.lBracket] (by decide) with ⟨ht, hu, _⟩ | ⟨f, g, ht, hu, _, hfg⟩
  · simp only [ht, hu]
    exact pointerType_parallel ih ha
  · simp only [ht, hu]
    refine hfg.chain fun har => ?_
    refine Parsed.parallel_chain (ih _ _ f.shorter har).typeExpr ?_
    rintro t _ rest rest' hr _ rfl har'
    rcases har'.accept? [.comma] (by decide) with ⟨ht, hu, _⟩ | ⟨f', g', ht, hu, _, hfg'⟩
    · simp only [ht, hu]
      exact Parsed.parallel_map (har'.expect (by decide)) fun _ _ _ => rfl
    · simp only [ht, hu]
      refine hfg'.chain fun har₂ => ?_
      have hl := Nat.lt_trans f'.shorter (Nat.lt_trans hr f.shorter)
      refine Parsed.parallel_chain (ih _ _ hl har₂).assignment ?_
      intro a b rest₂ rest₂' _ _ hab har₃
      exact Parsed.parallel_map (har₃.expect (by decide)) fun _ _ _ => by rw [hab]

end

/-! ### Every reader -/

theorem Alike.abreast {x y ts us : List Token} (h : Alike x y ts us) : Abreast x y ts us := by
  induction ts using tokens_induction generalizing us with
  | step ts ih =>
    have ih' : ∀ ts' us', ts'.length < ts.length → Alike x y ts' us' → Abreast x y ts' us' :=
      fun ts' us' hl ha => ih ts' hl ha
    exact {
      assignment := assignment_parallel ih' h
      binary := binary_parallel ih' h
      binaryTail := binaryTail_parallel ih' h
      castTail := castTail_parallel ih' h
      unary := unary_parallel ih' h
      access := access_parallel ih' h
      accessTail := accessTail_parallel ih' h
      listUntil := listUntil_parallel ih' h
      elements := elements_parallel ih' h
      typeExpr := typeExpr_parallel ih' h }

end FrontEnd.Grammar
