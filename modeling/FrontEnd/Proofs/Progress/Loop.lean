import FrontEnd.Proofs.Progress.Basic

/-!
The loops of reading. A loop is given by one pass: at the tokens ahead and with what was read so
far, a pass takes tokens and goes on, or it leaves the loop with a result. No pass goes on without
taking a token, so no loop makes more passes than there are tokens, and one. What the readers come
to is what their loops end with.
-/

set_option autoImplicit false

namespace FrontEnd.Grammar

/-! ### Passes -/

/-- A value or a failure, and the tokens left. -/
abbrev Outcome (α : Type) := Except Failure α × List Token

/-- One pass of a loop: the next pass starts with a new state at the tokens ahead, or there is no
next pass. -/
inductive Pass (σ ρ : Type) where
  | again (state : σ) (ahead : List Token)
  | leave (result : ρ)

namespace Pass

variable {σ ρ α β : Type}

/-- Goes on with a value, or leaves with the failure. -/
def onValue (outcome : Outcome α) (next : α → List Token → Pass σ (Outcome β)) :
    Pass σ (Outcome β) :=
  match outcome with
  | (.ok value, rest) => next value rest
  | (.error failure, rest) => .leave (.error failure, rest)

/-- What a pass comes to when `loop` is what the next one comes to. -/
def finish (loop : σ → List Token → ρ) : Pass σ ρ → ρ
  | .again state ahead => loop state ahead
  | .leave result => result

/-- The result of a loop that ends within that many passes. -/
def repeated (pass : σ → List Token → Pass σ ρ) : Nat → σ → List Token → Option ρ
  | 0, _, _ => none
  | n + 1, state, ts =>
    match pass state ts with
    | .again state ahead => repeated pass n state ahead
    | .leave result => some result

theorem again_of_onValue {outcome : Outcome α} {next : α → List Token → Pass σ (Outcome β)}
    {state : σ} {ahead : List Token} (h : onValue outcome next = .again state ahead) :
    ∃ value rest, outcome = (.ok value, rest) ∧ next value rest = .again state ahead := by
  obtain ⟨result, rest⟩ := outcome
  cases result with
  | ok value => exact ⟨value, rest, rfl, h⟩
  | error failure => cases h

end Pass

open Pass Parsed

/-- Every pass takes a token or leaves, and the passes, one for each token and one more, come to
what `loop` says. -/
structure Repeats {σ ρ : Type} (pass : σ → List Token → Pass σ ρ) (loop : σ → List Token → ρ) :
    Prop where
  advances {state state' : σ} {ts ahead : List Token} :
    pass state ts = .again state' ahead → Advances ts ahead
  ends (state : σ) (ts : List Token) :
    repeated pass (ts.length + 1) state ts = some (loop state ts)

theorem repeats_of_finish {σ ρ : Type} {pass : σ → List Token → Pass σ ρ}
    {loop : σ → List Token → ρ}
    (ha : ∀ {state state' ts ahead}, pass state ts = .again state' ahead → Advances ts ahead)
    (hf : ∀ state ts, loop state ts = (pass state ts).finish loop) : Repeats pass loop := by
  have hends : ∀ n state ts, ts.length < n →
      repeated pass n state ts = some (loop state ts) := by
    intro n
    induction n with
    | zero =>
      intro state ts hn
      omega
    | succ n ih =>
      intro state ts hn
      rw [repeated, hf]
      cases hp : pass state ts with
      | leave result => rfl
      | again state' ahead =>
        have hshorter := (ha hp).shorter
        exact ih state' ahead (by omega)
  exact ⟨ha, fun state ts => hends _ state ts (Nat.lt_succ_self _)⟩

/-! ### Skipping -/

/-- Braces are counted up to the one that closes the group. -/
def skipGroupPass (inner : Nat) (ts : List Token) : Pass Nat (List Token) :=
  match headKind ts with
  | .eof => .leave ts
  | .lBrace => .again (inner + 1) ts.tail
  | .rBrace =>
    match inner with
    | 0 => .leave ts.tail
    | inner + 1 => .again inner ts.tail
  | _ => .again inner ts.tail

theorem skipGroup_repeats : Repeats skipGroupPass skipGroup := by
  apply repeats_of_finish
  · intro inner inner' ts ahead h
    unfold skipGroupPass at h
    have hne : headKind ts ≠ .eof := by
      intro he
      simp [he] at h
    have htail := advances_tail hne
    split at h
    · cases h
    · cases h
      exact htail
    · cases inner with
      | zero => cases h
      | succ inner =>
        cases h
        exact htail
    · cases h
      exact htail
  · intro inner ts
    fun_cases skipGroup inner ts with
    | case1 => rfl
    | _ => simp_all [skipGroupPass, finish]

/-- Tokens are skipped up to a synchronization point. -/
def synchronizePass (_ : Unit) (ts : List Token) : Pass Unit (List Token) :=
  if headKind ts = .eof then .leave ts
  else if headKind ts ∈ synchronizationKinds then
    .leave <| match headKind ts with
      | .rBrace => ts
      | .lBrace => skipGroup 0 ts.tail
      | _ => ts.tail
  else .again () ts.tail

theorem synchronize_repeats : Repeats synchronizePass fun _ => synchronize := by
  apply repeats_of_finish
  · intro _ _ ts ahead h
    unfold synchronizePass at h
    split at h
    · cases h
    · rename_i hne
      split at h
      · cases h
      · cases h
        exact advances_tail hne
  · intro _ ts
    cases ts with
    | nil => rfl
    | cons t rest =>
      rw [synchronize, synchronizePass, headKind_cons]
      by_cases he : t.kind = .eof
      · have hs : t.kind ∉ synchronizationKinds := by rw [he]; decide
        rw [if_neg hs, if_pos he, if_pos he]
        rfl
      · rw [if_neg he, if_neg he]
        split <;> rfl

/-! ### Readers that loop -/

namespace Parsed

variable {α β γ σ : Type} {n : Nat} {p : Parsed α n} {loop : σ → List Token → Outcome β}
  {after : α → List Token → Pass σ (Outcome β)}

theorem finish_andThen
    {next : (value : α) → (rest : List Token) → rest.length < n → Parsed β (rest.length + 1)}
    (h : ∀ value rest hr, (next value rest hr).result = (after value rest).finish loop) :
    (p.andThen next).result = (onValue p.result after).finish loop := by
  cases p with
  | done value rest shorter =>
    rw [andThen, result_before]
    exact h value rest shorter
  | failed failure rest within => rfl

theorem finish_chain
    {next : (value : α) → (rest : List Token) → rest.length < n → Parsed β rest.length}
    (h : ∀ value rest hr, (next value rest hr).result = (after value rest).finish loop) :
    (p.chain next).result = (onValue p.result after).finish loop :=
  finish_andThen fun value rest hr => (result_loose _).trans (h value rest hr)

theorem map_andThen (f : β → γ)
    (next : (value : α) → (rest : List Token) → rest.length < n → Parsed β (rest.length + 1)) :
    (p.andThen next).map f = p.andThen fun value rest h => (next value rest h).map f := by
  cases p with
  | done value rest shorter =>
    cases hn : next value rest shorter <;> simp [andThen, before, map, hn]
  | failed failure rest within => rfl

@[simp] theorem map_loose (f : α → β) (p : Parsed α n) : p.loose.map f = (p.map f).loose := by
  cases p <;> rfl

theorem map_chain (f : β → γ)
    (next : (value : α) → (rest : List Token) → rest.length < n → Parsed β rest.length) :
    (p.chain next).map f = p.chain fun value rest h => (next value rest h).map f := by
  simp only [chain, map_andThen, map_loose]

@[simp] theorem result_map_before {rest : List Token} (h : rest.length < n) (f : α → β)
    (p : Parsed α (rest.length + 1)) : ((p.before h).map f).result = (p.map f).result := by
  cases p <;> rfl

@[simp] theorem map_map (f : α → β) (g : β → γ) (p : Parsed α n) :
    (p.map f).map g = p.map fun a => g (f a) := by
  cases p <;> rfl

end Parsed

@[simp] theorem Front.map_chain {α β : Type} {ts : List Token} (front : Front ts) (f : α → β)
    (next : (t : Token) → (rest : List Token) → rest.length < ts.length → Parsed α rest.length) :
    (front.chain next).map f = front.chain fun t rest h => (next t rest h).map f :=
  Parsed.map_chain f next

@[simp] theorem Front.map_andThen {α β : Type} {ts : List Token} (front : Front ts) (f : α → β)
    (next : (t : Token) → (rest : List Token) → rest.length < ts.length →
      Parsed α (rest.length + 1)) :
    (front.andThen next).map f = front.andThen fun t rest h => (next t rest h).map f :=
  Parsed.map_andThen f next

theorem advances_of_accept? {kinds : List TokenKind} {ts : List Token} {front : Front ts}
    (h : accept? kinds ts = some front) (hk : .eof ∉ kinds) : Advances ts front.rest := by
  obtain ⟨hts, hmem⟩ := accept?_eq_some h
  refine ⟨⟨[front.token], hts, ?_⟩, front.shorter⟩
  intro t ht he
  obtain rfl := List.mem_singleton.1 ht
  exact hk (he ▸ hmem)

/-- Operators behind a left operand, each with its right operand. -/
def operatorPass {α : Type} (operators : List TokenKind)
    (operand : (ts : List Token) → Parsed α ts.length) (join : TokenKind → Expr → α → Expr)
    (left : Expr) (ts : List Token) : Pass Expr (Outcome Expr) :=
  match accept? operators ts with
  | none => .leave (.ok left, ts)
  | some front =>
    onValue (operand front.rest).result fun right rest =>
      .again (join front.token.kind left right) rest

theorem operatorPass_advances {α : Type} {operators : List TokenKind}
    {operand : (ts : List Token) → Parsed α ts.length} {join : TokenKind → Expr → α → Expr}
    (hk : .eof ∉ operators) (ho : ∀ ts, (operand ts).Progresses ts) {left left' : Expr}
    {ts ahead : List Token}
    (h : operatorPass operators operand join left ts = .again left' ahead) :
    Advances ts ahead := by
  unfold operatorPass at h
  split at h
  · cases h
  · rename_i front hf
    obtain ⟨right, rest, hright, hagain⟩ := again_of_onValue h
    cases hagain
    exact (advances_of_accept? hf hk).trans ((ho _).value hright).leaves

theorem binary_progresses {levels : List Precedence} (h : levels <:+ Precedence.binaryLevels)
    (ts : List Token) : (binary levels ts).Progresses ts := by
  have hp : (Phrase.binaryOf levels).Proper := h.map _
  have hm := ((sound ts).binary levels).mono (fun _ _ _ hd => hd.1) fun _ hv => hv.plain hp
  exact progresses_of_leaves (hm.leaves fun _ _ _ hd => hd.plain hp)

theorem binaryTail_repeats {level : Precedence} {tighter : List Precedence}
    (h : level :: tighter <:+ Precedence.binaryLevels) :
    Repeats (operatorPass level.operators (binary tighter) .binary)
      fun left ts => (binaryTail level tighter left ts).result := by
  have hk : ∀ level ∈ Precedence.binaryLevels, .eof ∉ level.operators := by decide
  apply repeats_of_finish
  · intro left left' ts ahead ha
    refine operatorPass_advances (hk level (h.subset List.mem_cons_self)) ?_ ha
    exact binary_progresses ((List.suffix_cons level tighter).trans h)
  · intro left ts
    rw [binaryTail, operatorPass]
    cases accept? level.operators ts with
    | none => rfl
    | some front =>
      rw [result_loose, Front.result_chain]
      exact finish_andThen fun right rest hr => rfl

theorem castTail_repeats :
    Repeats (operatorPass Precedence.cast.operators typeExpr fun _ operand => .cast operand)
      fun operand ts => (castTail operand ts).result := by
  apply repeats_of_finish
  · intro operand operand' ts ahead ha
    exact operatorPass_advances (by decide) typeExpr_progresses ha
  · intro operand ts
    rw [castTail, operatorPass]
    cases accept? Precedence.cast.operators ts with
    | none => rfl
    | some front =>
      rw [result_loose, Front.result_chain]
      exact finish_andThen fun target rest hr => rfl

/-- Calls and subscripts go on behind themselves; members are the last. -/
def accessPass (base : Expr) (ts : List Token) : Pass Expr (Outcome Expr) :=
  match front? ts with
  | none => .leave (.ok base, ts)
  | some front =>
    if front.token.kind = .lParen then
      match base with
      | .identifier name =>
        onValue (listUntil .rParen front.rest).result fun arguments rest =>
          .again (.call name arguments) rest
      | _ => .leave (.error (.here .invalidCallTarget ts), ts)
    else if front.token.kind = .lBracket then
      onValue (assignment front.rest).result fun subscript rest =>
        onValue (expect .rBracket rest).result fun _ rest => .again (.index base subscript) rest
    else if front.token.kind = .dot then .leave ((access front.rest).map (.member base)).result
    else if front.token.kind = .arrow then
      .leave ((access front.rest).map (.member (.dereference base))).result
    else .leave (.ok base, ts)

theorem listUntil_progresses {close : TokenKind} (hc : close ∉ outerKinds) (ts : List Token) :
    (listUntil close ts).Progresses ts := by
  have hm := ((sound ts).listUntil close).mono (fun _ _ _ hw => hw) fun _ hv => hv.plain trivial
  refine progresses_of_leaves (hm.leaves ?_)
  rintro _ es rest ⟨v, c, rfl, hclose, hd⟩
  exact plain_append.2 ⟨hd.plain trivial, by simpa [hclose] using hc⟩

theorem accessTail_repeats : Repeats accessPass fun base ts => (accessTail base ts).result := by
  apply repeats_of_finish
  · intro base base' ts ahead h
    unfold accessPass at h
    split at h
    · cases h
    · rename_i front hf
      have hts := front?_eq_some hf
      have hfront : front.token.kind ≠ .eof → Advances ts front.rest := by
        intro hne
        exact ⟨⟨[front.token], hts, by simpa using hne⟩, front.shorter⟩
      split at h
      · rename_i hk
        split at h
        · obtain ⟨arguments, rest, hlist, hagain⟩ := again_of_onValue h
          cases hagain
          have hrest := (listUntil_progresses (by decide) front.rest).value hlist
          exact (hfront (by simp [hk])).trans hrest.leaves
        · cases h
      · split at h
        · rename_i hk
          obtain ⟨subscript, rest, hsubscript, h⟩ := again_of_onValue h
          obtain ⟨c, rest', hclose, hagain⟩ := again_of_onValue h
          cases hagain
          have hrest := (assignment_progresses front.rest).value hsubscript
          have hrest' := (expect_progresses .rBracket (by decide) rest).value hclose
          exact (hfront (by simp [hk])).trans (hrest.leaves.trans hrest'.leaves)
        · split at h
          · cases h
          · split at h <;> cases h
  · intro base ts
    rw [accessTail, accessPass]
    cases front? ts with
    | none => rfl
    | some front =>
      dsimp only
      split
      · rename_i hk
        rw [if_pos hk]
        split
        · rw [result_loose, Front.result_chain]
          exact finish_andThen fun arguments rest hr => rfl
        · rename_i hname
          cases base with
          | identifier name => exact absurd rfl (hname name)
          | _ => rfl
      · rename_i hk
        rw [if_neg (by simp [hk]), if_pos hk, result_loose, Front.result_chain]
        refine finish_chain fun subscript rest hr => ?_
        exact finish_andThen fun _ rest' hr' => rfl
      · rename_i hk
        simp [hk, finish]
      · rename_i hk
        simp [hk, finish]
      · rename_i hparen hbracket hdot harrow
        rw [if_neg hparen, if_neg hbracket, if_neg hdot, if_neg harrow]
        rfl

/-! ### Lists -/

/-- Items with commas between them, behind those of `items`. -/
def separatedPass {α : Type} (item : (ts : List Token) → Parsed α ts.length) (items : List α)
    (ts : List Token) : Pass (List α) (Outcome (List α)) :=
  onValue (item ts).result fun a rest =>
    match accept? [.comma] rest with
    | none => .leave (.ok (items ++ [a]), rest)
    | some front => .again (items ++ [a]) front.rest

theorem separatedPass_advances {α : Type} {item : (ts : List Token) → Parsed α ts.length}
    (hi : ∀ ts, (item ts).Progresses ts) {items items' : List α} {ts ahead : List Token}
    (h : separatedPass item items ts = .again items' ahead) : Advances ts ahead := by
  obtain ⟨a, rest, hitem, h⟩ := again_of_onValue h
  split at h
  · cases h
  · rename_i front hf
    cases h
    exact ((hi ts).value hitem).trans (advances_of_accept? hf (by decide)).leaves

theorem separated_repeats {α : Type} {item : (ts : List Token) → Parsed α ts.length}
    {list : (ts : List Token) → Parsed (List α) ts.length} (hi : ∀ ts, (item ts).Progresses ts)
    (hl : ∀ ts, list ts = (item ts).andThen fun a rest _ =>
      match accept? [.comma] rest with
      | none => .stay [a] rest
      | some front => (front.chain fun _ rest _ => (list rest).map (a :: ·)).loose) :
    Repeats (separatedPass item) fun items ts => ((list ts).map (items ++ ·)).result := by
  apply repeats_of_finish
  · intro items items' ts ahead h
    exact separatedPass_advances hi h
  · intro items ts
    rw [hl, map_andThen]
    refine finish_andThen fun a rest hr => ?_
    cases accept? [.comma] rest with
    | none => rfl
    | some front => simp [finish]

theorem elements_repeats :
    Repeats (separatedPass assignment) fun items ts => ((elements ts).map (items ++ ·)).result :=
  separated_repeats assignment_progresses elements.eq_def

theorem params_repeats :
    Repeats (separatedPass param) fun items ts => ((params ts).map (items ++ ·)).result := by
  refine separated_repeats (fun ts => ?_) params.eq_def
  exact progresses_of_leaves ((param_meets ts).leaves fun _ _ _ h => h.plain)

/-- Fields up to a closing brace, behind those of `read`. -/
def fieldsPass (read : List Field) (ts : List Token) : Pass (List Field) (Outcome (List Field)) :=
  match accept? [.rBrace] ts with
  | some front => .leave (.ok read, front.rest)
  | none =>
    if headKind ts = .eof then .leave (.error (.here .missingClosingBrace ts), ts)
    else
      onValue (terminated (typed ts)).result fun (name, type) rest =>
        .again (read ++ [⟨name, type⟩]) rest

theorem field_progresses (ts : List Token) : (terminated (typed ts)).Progresses ts := by
  have hm : (terminated (typed ts)).Meets ts (fun w _ _ => Plain w) Plain := by
    refine terminated_meets (typed_meets ts) (fun _ _ h => h.plain) ?_
    intro w field c h hc
    exact plain_append.2 ⟨h.plain, by simp [hc, outerKinds]⟩
  exact progresses_of_leaves (hm.leaves fun _ _ _ h => h)

theorem fields_repeats :
    Repeats fieldsPass fun read ts => ((fields ts).map (read ++ ·)).result := by
  apply repeats_of_finish
  · intro read read' ts ahead h
    unfold fieldsPass at h
    split at h
    · cases h
    · split at h
      · cases h
      · obtain ⟨field, rest, hfield, hagain⟩ := again_of_onValue h
        cases hagain
        exact (field_progresses ts).value hfield
  · intro read ts
    rw [fields, fieldsPass]
    cases accept? [.rBrace] ts with
    | some front => simp [finish, Parsed.map, Front.give]
    | none =>
      dsimp only
      split
      · rfl
      · rw [map_chain]
        refine finish_chain fun field rest hr => ?_
        simp [finish]

/-- Enum members up to a closing brace, behind those of `read`, with the number of the next. -/
def membersPass (read : Int64 × List EnumMember) (ts : List Token) :
    Pass (Int64 × List EnumMember) (Outcome (List EnumMember)) :=
  if headKind ts = .rBrace then .leave (.ok read.2, ts)
  else
    onValue (expect .identifier ts).result fun name rest =>
      onValue (memberValue read.1 rest).result fun value rest =>
        match accept? [.comma] rest with
        | none => .leave (.ok (read.2 ++ [⟨name.value, value⟩]), rest)
        | some front => .again (value + 1, read.2 ++ [⟨name.value, value⟩]) front.rest

theorem leaves_memberValue (next : Int64) (ts : List Token) :
    Leaves ts (memberValue next ts).result.2 := by
  have hn : (bareToken .identifier).kind = .identifier := rfl
  refine (memberValue_meets next hn ts).leaves fun w value rest h => ?_
  exact (plain_cons.1 h.plain).2

theorem members_repeats :
    Repeats membersPass fun read ts => ((members read.1 ts).map (read.2 ++ ·)).result := by
  apply repeats_of_finish
  · intro read read' ts ahead h
    unfold membersPass at h
    split at h
    · cases h
    · obtain ⟨name, rest, hname, h⟩ := again_of_onValue h
      obtain ⟨value, rest', hvalue, h⟩ := again_of_onValue h
      split at h
      · cases h
      · rename_i front hf
        cases h
        have hfirst := (expect_progresses .identifier (by decide) ts).value hname
        have hleaves := leaves_memberValue read.1 rest
        rw [hvalue] at hleaves
        have hcomma := advances_of_accept? hf (by decide)
        exact hfirst.trans (hleaves.trans hcomma.leaves)
  · intro read ts
    rw [members, membersPass]
    split
    · simp [finish, Parsed.map, Parsed.stay]
    · rw [map_loose, result_loose, map_andThen]
      refine finish_andThen fun name rest hr => ?_
      rw [map_andThen]
      refine finish_andThen fun value rest' hr' => ?_
      cases accept? [.comma] rest' with
      | none => rfl
      | some front => simp [finish]

/-! ### Statements -/

/-- A statement of a block or its end, behind the statements and events of `read`. -/
def blockPass (read : List Stmt × List Event) (ts : List Token) :
    Pass (List Stmt × List Event) (List Event × Outcome (List Stmt)) :=
  match accept? [.rBrace] (skipSemicolons ts) with
  | some front => .leave (read.2, .ok read.1, front.rest)
  | none =>
    if headKind (skipSemicolons ts) = .eof then
      .leave (read.2 ++ [.fault (.here .missingClosingBrace (skipSemicolons ts))], .ok read.1,
        skipSemicolons ts)
    else
      let recovered := (statement .standard (skipSemicolons ts)).recover
      .again (read.1 ++ recovered.statement?.toList, read.2 ++ recovered.events) recovered.rest

theorem blockTail_repeats :
    Repeats blockPass fun read ts =>
      (read.2 ++ (blockTail .standard ts).events,
        ((blockTail .standard ts).outcome.map (read.1 ++ ·)).result) := by
  apply repeats_of_finish
  · intro read read' ts ahead h
    unfold blockPass at h
    split at h
    · cases h
    · split at h
      · cases h
      · rename_i he
        cases h
        exact (leaves_skipSemicolons ts).advances (recover_advances he)
  · intro read ts
    rw [blockTail, blockPass, Run.trimming, result_map_before, blockRest]
    cases accept? [.rBrace] (skipSemicolons ts) with
    | some front => simp [finish, Parsed.map, Front.give, Parsed.loose]
    | none =>
      dsimp only
      split
      · simp [finish, Run.after, Run.stay, Run.silent, Parsed.map, Parsed.stay]
      · simp [finish, Run.loose, Recovered.andThen]

/-- A statement of a program or its end, behind the statements and events of `read`. -/
def programPass (read : File × List Event) (ts : List Token) :
    Pass (File × List Event) Program :=
  if headKind (skipSemicolons ts) = .eof then .leave ⟨read.1, read.2, skipSemicolons ts⟩
  else
    let recovered := (statement .standard (skipSemicolons ts)).recover
    .again (read.1 ++ recovered.statement?.toList, read.2 ++ recovered.events) recovered.rest

theorem program_repeats :
    Repeats programPass fun read ts =>
      ⟨read.1 ++ (program .standard ts).file, read.2 ++ (program .standard ts).events,
        (program .standard ts).rest⟩ := by
  apply repeats_of_finish
  · intro read read' ts ahead h
    unfold programPass at h
    split at h
    · cases h
    · rename_i he
      cases h
      exact (leaves_skipSemicolons ts).advances (recover_advances he)
  · intro read ts
    unfold programPass
    split
    · rename_i he
      rw [program_of_eof he]
      simp [finish]
    · rename_i he
      rw [program_of_statement he]
      simp [finish]

/-! ### All loops -/

/-- The loops of reading, each with its pass and with what it comes to. -/
structure Loops : Prop where
  program : Repeats programPass fun read ts =>
    ⟨read.1 ++ (program .standard ts).file, read.2 ++ (program .standard ts).events,
      (program .standard ts).rest⟩
  block : Repeats blockPass fun read ts =>
    (read.2 ++ (blockTail .standard ts).events,
      ((blockTail .standard ts).outcome.map (read.1 ++ ·)).result)
  fields : Repeats fieldsPass fun read ts => ((fields ts).map (read ++ ·)).result
  members : Repeats membersPass fun read ts => ((members read.1 ts).map (read.2 ++ ·)).result
  params : Repeats (separatedPass param) fun items ts => ((params ts).map (items ++ ·)).result
  -- the arguments of a call and the values of an array literal
  elements :
    Repeats (separatedPass assignment) fun items ts => ((elements ts).map (items ++ ·)).result
  access : Repeats accessPass fun base ts => (accessTail base ts).result
  binary {level : Precedence} {tighter : List Precedence} :
    level :: tighter <:+ Precedence.binaryLevels →
    Repeats (operatorPass level.operators (binary tighter) .binary)
      fun left ts => (binaryTail level tighter left ts).result
  cast : Repeats (operatorPass Precedence.cast.operators typeExpr fun _ operand => .cast operand)
    fun operand ts => (castTail operand ts).result
  synchronize : Repeats synchronizePass fun _ => synchronize
  skipGroup : Repeats skipGroupPass skipGroup

/-- Reading always ends. Before the end of input, a statement is left behind even if it fails; what
is read takes at least one token, and what fails does not move back; in every loop a pass takes a
token or is the last. So a program is read up to the first token that ends the input. -/
theorem reading_ends :
    (∀ ts, headKind ts ≠ .eof → Advances ts (statement .standard ts).recover.rest) ∧
    (∀ ts, (statement .standard ts).outcome.Progresses ts ∧
      (block .standard ts).outcome.Progresses ts ∧ (assignment ts).Progresses ts ∧
      (typeExpr ts).Progresses ts) ∧
    Loops ∧
    ∀ ts, (program .standard ts).rest = ts.drop (ts.findIdx (·.kind = .eof)) := by
  refine ⟨fun ts he => recover_advances he, fun ts => ?_, ?_, program_rest⟩
  · exact ⟨statement_progresses ts, block_progresses ts, assignment_progresses ts,
      typeExpr_progresses ts⟩
  · exact {
      program := program_repeats
      block := blockTail_repeats
      fields := fields_repeats
      members := members_repeats
      params := params_repeats
      elements := elements_repeats
      access := accessTail_repeats
      binary := binaryTail_repeats
      cast := castTail_repeats
      synchronize := synchronize_repeats
      skipGroup := skipGroup_repeats }

/-- A stray brace, with another behind the end of input. -/
def strayTokens : List Token := [bareToken .rBrace, bareToken .eof, bareToken .rBrace]

theorem reading_ends_strayTokens :
    headKind strayTokens ≠ .eof ∧
      Advances strayTokens (statement .standard strayTokens).recover.rest ∧
      (program .standard strayTokens).rest = strayTokens.drop 1 ∧
      repeated programPass 4 ([], []) strayTokens = some (program .standard strayTokens) ∧
      repeated (operatorPass Precedence.additive.operators (binary [.multiplicative]) .binary) 4
          .null strayTokens =
        some (binaryTail .additive [.multiplicative] .null strayTokens).result := by
  have he : headKind strayTokens ≠ .eof := by decide
  obtain ⟨hrecover, -, hloops, hrest⟩ := reading_ends
  refine ⟨he, hrecover _ he, hrest _, ?_, ?_⟩
  · exact hloops.program.ends ([], []) strayTokens
  · exact (hloops.binary (by decide)).ends .null strayTokens

end FrontEnd.Grammar
