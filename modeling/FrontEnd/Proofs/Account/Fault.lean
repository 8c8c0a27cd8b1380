import FrontEnd.Proofs.Acceptance
import FrontEnd.Proofs.Account.Cause
import FrontEnd.Proofs.Block.Braces

/-!
Faults are paid for. Every fault of a run has a token of its own among those that the run has taken,
and every closing brace that is reported as missing has an opening one that was taken and not
closed. A statement pays with its first token for its own failure, and a block with its brace for
the end of input. So a parse has no more diagnostics than tokens, and it misses no more braces than
there are opening braces without a match.
-/

set_option autoImplicit false

namespace FrontEnd.Grammar

/-! ### Braces without a match -/

/-- The number of opening braces that no closing brace matches. -/
def unmatched : List Token → Nat
  | [] => 0
  | t :: ts => (if t.kind = .lBrace ∧ matching 0 ts = none then 1 else 0) + unmatched ts

/-- The number of closing braces that match no opening one. -/
def surplus : List Token → Nat
  | [] => 0
  | t :: ts =>
    if t.kind = .lBrace then surplus ts - 1
    else if t.kind = .rBrace then surplus ts + 1
    else surplus ts

/-- The number of open braces behind the tokens, with `d` open before them; a closing brace that
matches none is passed over. -/
def depth (d : Nat) : List Token → Nat
  | [] => d
  | t :: ts =>
    if t.kind = .lBrace then depth (d + 1) ts
    else if t.kind = .rBrace then depth (d - 1) ts
    else depth d ts

theorem matching_eq_none_iff (d : Nat) (ts : List Token) :
    matching d ts = none ↔ surplus ts ≤ d := by
  induction ts generalizing d with
  | nil => simp [matching, surplus]
  | cons t ts ih =>
    unfold matching surplus
    by_cases ho : t.kind = .lBrace
    · simp only [ho, if_true, ih]
      omega
    · by_cases hc : t.kind = .rBrace
      · cases d with
        | zero => simp [hc]
        | succ d => simp [hc, ih]
      · simp [ho, hc, ih]

/-- The braces that are open at the end are those without a match, and those that were open before
and that no surplus brace has closed. -/
theorem depth_eq (d : Nat) (ts : List Token) : depth d ts = unmatched ts + (d - surplus ts) := by
  induction ts generalizing d with
  | nil => simp [depth, unmatched, surplus]
  | cons t ts ih =>
    unfold depth unmatched surplus
    by_cases ho : t.kind = .lBrace
    · by_cases hs : surplus ts = 0
      · simp [ho, ih, matching_eq_none_iff, hs]
        omega
      · simp [ho, ih, matching_eq_none_iff, hs]
        omega
    · by_cases hc : t.kind = .rBrace
      · simp [hc, ih]
        omega
      · simp [ho, hc, ih]

theorem depth_zero (ts : List Token) : depth 0 ts = unmatched ts := by simp [depth_eq]

theorem depth_le_depth {d e : Nat} (h : d ≤ e) (ts : List Token) : depth d ts ≤ depth e ts := by
  rw [depth_eq, depth_eq]
  omega

theorem depth_append (d : Nat) (w v : List Token) :
    depth d (w ++ v) = depth (depth d w) v := by
  induction w generalizing d with
  | nil => rfl
  | cons t w ih =>
    rw [List.cons_append, depth, depth]
    split
    · exact ih (d + 1)
    · split
      · exact ih (d - 1)
      · exact ih d

theorem depth_of_level {d k : Nat} {w : List Token} (h : level d w = some k) : depth d w = k := by
  induction w generalizing d with
  | nil => exact Option.some.inj h
  | cons t w ih =>
    unfold level at h
    unfold depth
    split at h <;> rename_i ho
    · rw [if_pos ho]
      exact ih h
    · rw [if_neg ho]
      split at h <;> rename_i hc
      · rw [if_pos hc]
        split at h
        · cases h
        · exact ih h
      · rw [if_neg hc]
        exact ih h

/-! ### What covers faults -/

/-- The number of closing braces that the failures miss. -/
def missing (fs : List Failure) : Nat := fs.countP (·.cause = .missingClosingBrace)

@[simp] theorem missing_nil : missing [] = 0 := rfl

@[simp] theorem missing_append (fs gs : List Failure) :
    missing (fs ++ gs) = missing fs + missing gs := List.countP_append ..

theorem missing_le_length (fs : List Failure) : missing fs ≤ fs.length := List.countP_le_length

/-- The tokens `w` in front of `rest`, with `d` braces open before them, cover the failures `fs`,
all but `spare` of them: there is a token for each, and an open brace for each that misses one.
A brace is missed at the end of input only. -/
structure Covers (spare d : Nat) (w : List Token) (fs : List Failure) (rest : List Token) :
    Prop where
  before : ∀ t ∈ w, t.kind ≠ .eof
  tokens : fs.length ≤ w.length + spare
  braces : ∃ k, level d w = some k ∧ missing fs ≤ k
  last : missing fs = 0 ∨ headKind rest = .eof

section

variable {spare d : Nat} {w v rest : List Token} {fs gs : List Failure}

theorem Covers.mono {spare' : Nat} (h : Covers spare d w fs rest) (hs : spare ≤ spare') :
    Covers spare' d w fs rest := by
  have ht := h.tokens
  exact ⟨h.before, by omega, h.braces, h.last⟩

theorem Covers.append {spare' : Nat} (hw : Covers spare 0 w fs (v ++ rest))
    (hv : Covers spare' d v gs rest) : Covers (spare + spare') d (w ++ v) (fs ++ gs) rest := by
  obtain ⟨j, hj, hmj⟩ := hw.braces
  obtain ⟨k, hk, hmk⟩ := hv.braces
  have hbw := hw.before
  have hbv := hv.before
  have htw := hw.tokens
  have htv := hv.tokens
  refine ⟨by grind, by simp only [List.length_append]; omega, ⟨k + j, ?_, ?_⟩, ?_⟩
  · have hd := level_add hj d
    rw [Nat.zero_add] at hd
    rw [level_append, hd, Option.bind_some, Nat.add_comm, level_add hk]
  · rw [missing_append]
    omega
  · rw [missing_append]
    rcases hw.last with hz | he
    · rcases hv.last with hz' | he
      · exact .inl (by omega)
      · exact .inr he
    · -- nothing is taken behind the end of input
      obtain rfl := eq_nil_of_headKind_eof hbv he
      exact .inr he

theorem Plain.covers (h : Plain w) (rest : List Token) : Covers 0 0 w [] rest :=
  ⟨h.not_eof, by simp, ⟨0, h.rises, by simp⟩, .inl rfl⟩

theorem Plain.covers_failure (h : Plain w) {failure : Failure}
    (hf : failure.cause ≠ .missingClosingBrace) (rest : List Token) :
    Covers 1 0 w [failure] rest := by
  have hm : missing [failure] = 0 := by simp [missing, hf]
  exact ⟨h.not_eof, by simp, ⟨0, h.rises, by omega⟩, .inl hm⟩

theorem Opened.covers (h : Opened w) {failure : Failure}
    (hl : failure.cause = .missingClosingBrace → headKind rest = .eof) :
    Covers 1 0 w [failure] rest := by
  refine ⟨h.not_eof, by simp, ⟨1, h.rises, missing_le_length _⟩, ?_⟩
  by_cases hm : failure.cause = .missingClosingBrace
  · exact .inr (hl hm)
  · exact .inl (by simp [missing, hm])

/-- A brace covers one failure more, and what is open behind it. -/
theorem Covers.opened {o : Token} (ho : o.kind = .lBrace) (h : Covers (spare + 1) 1 w fs rest) :
    Covers spare 0 (o :: w) fs rest := by
  have ht := h.tokens
  obtain ⟨k, hk, hm⟩ := h.braces
  refine ⟨List.forall_mem_cons.2 ⟨by simp [ho], h.before⟩, ?_, ⟨k, ?_, hm⟩, h.last⟩
  · simp only [List.length_cons]
    omega
  · rwa [level_cons_open ho]

/-- A first token covers one failure more. -/
theorem Covers.cons {t : Token} (ht : t.kind ∉ outerKinds)
    (h : Covers (spare + 1) d w fs rest) : Covers spare d (t :: w) fs rest := by
  have hl := h.tokens
  have he : t.kind ≠ .eof := fun he => ht (by simp [he, outerKinds])
  obtain ⟨k, hk, hm⟩ := h.braces
  refine ⟨List.forall_mem_cons.2 ⟨he, h.before⟩, ?_, ⟨k, ?_, hm⟩, h.last⟩
  · simp only [List.length_cons]
    omega
  · rwa [level_cons_other ht]

end

/-! ### Runs -/

namespace Run

variable {α β : Type} {n : Nat} {ts : List Token}

/-- The run takes tokens off the front of `ts`: `good` relates them to the faults that were recorded
and the tokens left when a value was read, and `bad` does when reading failed, with the failure as
the last of the faults. -/
def Incurs (r : Run α n) (ts : List Token)
    (good bad : List Token → List Failure → List Token → Prop) : Prop :=
  match r.outcome.result with
  | (.ok _, rest) => ∃ w, ts = w ++ rest ∧ good w (faults r.events) rest
  | (.error failure, rest) => ∃ w, ts = w ++ rest ∧ bad w (faults r.events ++ [failure]) rest

variable {good bad : List Token → List Failure → List Token → Prop}

theorem Incurs.mono {r : Run α n} {good' bad' : List Token → List Failure → List Token → Prop}
    (h : r.Incurs ts good bad) (hg : ∀ w fs rest, ts = w ++ rest → good w fs rest → good' w fs rest)
    (hb : ∀ w fs rest, ts = w ++ rest → bad w fs rest → bad' w fs rest) :
    r.Incurs ts good' bad' := by
  unfold Incurs at *
  split at h
  · obtain ⟨w, hw, hv⟩ := h
    exact ⟨w, hw, hg w _ _ hw hv⟩
  · obtain ⟨w, hw, hv⟩ := h
    exact ⟨w, hw, hb w _ _ hw hv⟩

@[simp] theorem incurs_loose {r : Run α n} :
    r.loose.Incurs ts good bad ↔ r.Incurs ts good bad := by
  simp [Incurs, loose]

theorem incurs_map {r : Run α n} {f : α → β} :
    (r.map f).Incurs ts good bad ↔ r.Incurs ts good bad := by
  obtain ⟨events, outcome⟩ := r
  cases outcome <;> exact Iff.rfl

theorem incurs_after {r : Run α n} {t : Option Token} :
    (r.after (.statement t)).Incurs ts good bad ↔ r.Incurs ts good bad := Iff.rfl

theorem incurs_andThen {r : Run α n} {good' bad' : List Token → List Failure → List Token → Prop}
    {next : (value : α) → (rest : List Token) → rest.length < n → Run β (rest.length + 1)}
    (hr : r.Incurs ts good bad) (hb : ∀ w fs rest, bad w fs rest → bad' w fs rest)
    (hn : ∀ value w rest fs h, ts = w ++ rest → good w fs rest →
      (next value rest h).Incurs rest (fun v gs => good' (w ++ v) (fs ++ gs))
        (fun v gs => bad' (w ++ v) (fs ++ gs))) :
    (r.andThen next).Incurs ts good' bad' := by
  obtain ⟨events, outcome⟩ := r
  cases outcome with
  | failed failure rest within =>
    obtain ⟨w, hw, hf⟩ := hr
    exact ⟨w, hw, hb w _ _ hf⟩
  | done value rest shorter =>
    obtain ⟨w, hw, hv⟩ := hr
    have h := hn value w rest _ shorter hw hv
    unfold Incurs at h ⊢
    simp only [andThen, Parsed.result_before, faults_append]
    split at h <;> obtain ⟨v, hr, hg⟩ := h
    · exact ⟨w ++ v, by rw [hw, List.append_assoc, ← hr], hg⟩
    · exact ⟨w ++ v, by rw [hw, List.append_assoc, ← hr], by rwa [List.append_assoc]⟩

/-- What a run takes covers its faults, and all but one of them if it fails. -/
abbrev Pays (r : Run α n) (ts : List Token) : Prop := r.Incurs ts (Covers 0 0) (Covers 1 0)

theorem pays_silent {p : Parsed α n} {good : List Token → α → List Token → Prop}
    (h : p.Meets ts good Plain) (hg : ∀ w value rest, good w value rest → Plain w)
    (hs : p.Spares) : (silent p).Pays ts := by
  cases p with
  | done value rest shorter =>
    obtain ⟨w, hw, hv⟩ := h
    exact ⟨w, hw, (hg w value rest hv).covers rest⟩
  | failed failure rest within =>
    obtain ⟨w, hw, hv⟩ := h
    exact ⟨w, hw, hv.covers_failure (hs failure rest rfl) rest⟩

theorem pays_andThen {r : Run α n}
    {next : (value : α) → (rest : List Token) → rest.length < n → Run β (rest.length + 1)}
    (hr : r.Pays ts) (hn : ∀ value rest h, (next value rest h).Pays rest) :
    (r.andThen next).Pays ts := by
  refine incurs_andThen hr (fun _ _ _ h => h) ?_
  intro value w rest fs h _ hw
  refine (hn value rest h).mono ?_ ?_
  · intro v gs rest' hv hc
    exact (hv ▸ hw).append hc
  · intro v gs rest' hv hc
    exact (hv ▸ hw).append hc

theorem pays_chain {r : Run α n}
    {next : (value : α) → (rest : List Token) → rest.length < n → Run β rest.length}
    (hr : r.Pays ts) (hn : ∀ value rest h, (next value rest h).Pays rest) :
    (r.chain next).Pays ts :=
  pays_andThen hr fun value rest h => incurs_loose.2 (hn value rest h)

/-- A statement covers all its faults, its own failure too, unless it takes nothing. -/
abbrev PaysAll (r : Run α n) (ts : List Token) : Prop :=
  r.Incurs ts (Covers 0 0) fun w => Covers (1 - w.length) 0 w

theorem PaysAll.pays {r : Run α n} (h : r.PaysAll ts) : r.Pays ts :=
  h.mono (fun _ _ _ _ h => h) fun _ _ _ _ h => h.mono (Nat.sub_le _ _)

/-- The first token of a statement pays for the failure of what stands behind it. -/
theorem Pays.skipping {k : Token} {r : Run α ts.length} (hk : k.kind ∉ outerKinds)
    (h : r.Pays ts) : (skipping (k :: ts) r).PaysAll (k :: ts) := by
  obtain ⟨events, outcome⟩ := r
  cases outcome with
  | done value rest shorter =>
    obtain ⟨w, hw, hc⟩ := h
    exact ⟨k :: w, congrArg (k :: ·) hw, (hc.mono (Nat.zero_le 1)).cons hk⟩
  | failed failure rest within =>
    obtain ⟨w, hw, hc⟩ := h
    exact ⟨k :: w, congrArg (k :: ·) hw, (hc.cons hk).mono (Nat.zero_le _)⟩

end Run

theorem Front.pays_run {α : Type} {ts : List Token} {front : Front ts}
    {next : (t : Token) → (rest : List Token) → rest.length < ts.length → Run α rest.length}
    (hts : ts = front.token :: front.rest) (hk : front.token.kind ∉ outerKinds)
    (h : ∀ t rest hr, (next t rest hr).Pays rest) : (front.run next).Pays ts := by
  have hp : (front.give front.token).Meets ts (fun w _ _ => Plain w) Plain :=
    Parsed.meets_give hts (by simpa using hk)
  exact Run.pays_chain (Run.pays_silent hp (fun _ _ _ h => h) Parsed.fails_give) h

end FrontEnd.Grammar
