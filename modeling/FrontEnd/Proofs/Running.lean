import FrontEnd.Grammar.Run
import FrontEnd.Proofs.Reading

/-!
Laws of runs. A run is clean when it records no fault. `Gives` says that a run is clean and what it
reads; `Yields` says of every value that is read, clean or not, that some tokens account for it,
and that these are the tokens that were taken when the run is clean.
-/

set_option autoImplicit false

namespace FrontEnd.Grammar

/-- No fault is among the events. -/
def Clean (events : List Event) : Prop := ∀ failure, .fault failure ∉ events

@[simp] theorem clean_nil : Clean [] := by simp [Clean]

@[simp] theorem clean_append {a b : List Event} : Clean (a ++ b) ↔ Clean a ∧ Clean b := by
  simp [Clean, not_or, forall_and]

theorem clean_iff_filterMap {events : List Event} (stop : Token) :
    Clean events ↔ events.filterMap (Event.diagnostic? stop) = [] := by
  rw [List.filterMap_eq_nil_iff]
  constructor
  · intro h event he
    cases event with
    | fault failure => exact absurd he (h failure)
    | statement t => rfl
    | resumed t => rfl
  · intro h failure hf
    simpa [Event.diagnostic?] using h _ hf

/-- The failures that were recorded, in order. -/
def faults (events : List Event) : List Failure :=
  events.filterMap fun | .fault failure => some failure | _ => none

@[simp] theorem faults_nil : faults [] = [] := rfl

@[simp] theorem faults_append (a b : List Event) : faults (a ++ b) = faults a ++ faults b :=
  List.filterMap_append

@[simp] theorem faults_cons_fault (failure : Failure) (events : List Event) :
    faults (.fault failure :: events) = failure :: faults events := rfl

@[simp] theorem faults_cons_statement (t : Option Token) (events : List Event) :
    faults (.statement t :: events) = faults events := rfl

@[simp] theorem faults_cons_resumed (t : Option Token) (events : List Event) :
    faults (.resumed t :: events) = faults events := rfl

theorem filterMap_diagnostic? (stop : Token) (events : List Event) :
    events.filterMap (Event.diagnostic? stop) = (faults events).map (Failure.diagnostic stop) := by
  rw [faults, List.map_filterMap]
  congr
  funext event
  cases event <;> rfl

theorem faults_eq_nil_iff {events : List Event} : faults events = [] ↔ Clean events := by
  rw [clean_iff_filterMap (endToken []), filterMap_diagnostic?, List.map_eq_nil_iff]

/-! ### Tokens in order -/

/-- The tokens of `w`, and those of `rest` behind them, stand in `ts` in this order, but for braces
that are missing there. -/
def Drawn (ts w rest : List Token) : Prop :=
  (w.filter (·.kind ≠ .rBrace) ++ rest).Sublist ts

theorem drawn_of_eq {ts w rest : List Token} (h : ts = w ++ rest) : Drawn ts w rest := by
  rw [h]
  exact List.filter_sublist.append_right rest

theorem Drawn.left {ts w rest : List Token} (h : Drawn ts w rest) : rest.Sublist ts :=
  (List.sublist_append_right _ _).trans h

theorem Drawn.trans {ts w v rest rest' : List Token} (hw : Drawn ts w rest)
    (hv : Drawn rest v rest') : Drawn ts (w ++ v) rest' := by
  rw [Drawn, List.filter_append, List.append_assoc]
  exact (hv.append_left _).trans hw

theorem Drawn.mem {ts w rest : List Token} (h : Drawn ts w rest) :
    ∀ t ∈ w, t ∈ ts ∨ t.kind = .rBrace := by
  intro t ht
  by_cases hk : t.kind = .rBrace
  · exact .inr hk
  · exact .inl (h.subset (List.mem_append_left _ (List.mem_filter.2 ⟨ht, by simpa using hk⟩)))

namespace Run

variable {α β : Type} {n : Nat}

/-! ### Outcomes and events -/

@[simp] theorem outcome_silent (p : Parsed α n) : (silent p).outcome = p := rfl

@[simp] theorem events_silent (p : Parsed α n) : (silent p).events = [] := rfl

@[simp] theorem outcome_loose (r : Run α n) : r.loose.outcome = r.outcome.loose := rfl

@[simp] theorem outcome_map (f : α → β) (r : Run α n) :
    (r.map f).outcome = r.outcome.map f := rfl

@[simp] theorem outcome_after (event : Event) (r : Run α n) :
    (r.after event).outcome = r.outcome := rfl

@[simp] theorem result_trimming (ts : List Token) (r : Run α ((skipSemicolons ts).length + 1)) :
    (trimming ts r).outcome.result = r.outcome.result :=
  Parsed.result_before (Nat.lt_succ_of_le (skipSemicolons_length_le ts)) r.outcome

theorem outcome_andThen (r : Run α n)
    (next : (value : α) → (rest : List Token) → rest.length < n → Run β (rest.length + 1)) :
    (r.andThen next).outcome =
      r.outcome.andThen fun value rest h => (next value rest h).outcome := by
  obtain ⟨events, outcome⟩ := r
  cases outcome <;> rfl

theorem outcome_chain (r : Run α n)
    (next : (value : α) → (rest : List Token) → rest.length < n → Run β rest.length) :
    (r.chain next).outcome =
      r.outcome.chain fun value rest h => (next value rest h).outcome :=
  outcome_andThen r _

/-! ### Clean runs -/

/-- Without a fault, a value was read and `rest` is left. -/
def Gives (r : Run α n) (value : α) (rest : List Token) : Prop :=
  r.outcome.Gives value rest ∧ Clean r.events

theorem gives_silent {p : Parsed α n} {value : α} {rest : List Token}
    (h : p.Gives value rest) : (silent p).Gives value rest := ⟨h, clean_nil⟩

theorem gives_stay (value : α) (ts : List Token) : (stay value ts).Gives value ts :=
  gives_silent rfl

@[simp] theorem gives_loose {r : Run α n} {value : α} {rest : List Token} :
    r.loose.Gives value rest ↔ r.Gives value rest := by
  simp [Gives, Parsed.Gives, loose]

theorem Gives.map {r : Run α n} {value : α} {rest : List Token} (f : α → β)
    (h : r.Gives value rest) : (r.map f).Gives (f value) rest := ⟨h.1.map f, h.2⟩

theorem Gives.after {r : Run α n} {value : α} {rest : List Token} (t : Option Token)
    (h : r.Gives value rest) : (r.after (.statement t)).Gives value rest :=
  ⟨h.1, by simpa [Clean, Run.after] using h.2⟩

theorem Gives.skipping {t : Token} {ts : List Token} {r : Run α ts.length} {value : α}
    {rest : List Token} (h : r.Gives value rest) : (skipping (t :: ts) r).Gives value rest :=
  gives_loose.2 h

theorem Gives.andThen {r : Run α n} {value : α} {rest : List Token} (h : r.Gives value rest)
    {next : (value : α) → (rest : List Token) → rest.length < n → Run β (rest.length + 1)}
    {value' : β} {rest' : List Token} (hn : ∀ hr, (next value rest hr).Gives value' rest') :
    (r.andThen next).Gives value' rest' := by
  obtain ⟨events, outcome⟩ := r
  obtain ⟨ho, he⟩ := h
  cases outcome with
  | failed failure rest within => simp [Parsed.Gives] at ho
  | done value'' rest'' shorter =>
    simp only [Parsed.Gives, Parsed.result_done, Prod.mk.injEq, Except.ok.injEq] at ho
    obtain ⟨rfl, rfl⟩ := ho
    refine ⟨?_, clean_append.2 ⟨he, (hn shorter).2⟩⟩
    rw [Parsed.Gives, Run.andThen, Parsed.result_before]
    exact (hn shorter).1

theorem Gives.chain {r : Run α n} {value : α} {rest : List Token} (h : r.Gives value rest)
    {next : (value : α) → (rest : List Token) → rest.length < n → Run β rest.length}
    {value' : β} {rest' : List Token} (hn : ∀ hr, (next value rest hr).Gives value' rest') :
    (r.chain next).Gives value' rest' :=
  h.andThen fun hr => gives_loose.2 (hn hr)

/-! ### Runs with faults -/

/-- What is left comes from `ts`. Every value that is read is accounted for by some tokens, which
are drawn from `ts` too, and which are those that were taken off the front of `ts` when the run is
clean. -/
structure Yields (r : Run α n) (ts : List Token) (good : List Token → α → Prop) : Prop where
  left : r.outcome.result.2.Sublist ts
  tokens : ∀ value rest, r.outcome.Gives value rest →
    ∃ w, good w value ∧ Drawn ts w rest ∧ (Clean r.events → ts = w ++ rest)

variable {ts : List Token} {good : List Token → α → Prop}

theorem Yields.mono {r : Run α n} {good' : List Token → α → Prop} (h : r.Yields ts good)
    (hg : ∀ w value, good w value → good' w value) : r.Yields ts good' := by
  refine ⟨h.left, fun value rest hr => ?_⟩
  obtain ⟨w, hw, hc⟩ := h.tokens value rest hr
  exact ⟨w, hg w value hw, hc⟩

theorem yields_silent {p : Parsed α n} {bad : List Token → Prop}
    (h : p.Meets ts (fun w value _ => good w value) bad) : (silent p).Yields ts good := by
  constructor
  · unfold Parsed.Meets at h
    rw [outcome_silent]
    split at h <;> rename_i hr <;> obtain ⟨w, rfl, -⟩ := h <;> simp [hr]
  · intro value rest hp
    obtain ⟨w, rfl, hw⟩ := h.of_gives hp
    exact ⟨w, hw, drawn_of_eq rfl, fun _ => rfl⟩

theorem yields_stay {value : α} (h : good [] value) : (stay value ts).Yields ts good := by
  have hm : (Parsed.stay value ts).Meets ts (fun w value _ => good w value) fun _ => True :=
    Parsed.meets_stay h
  exact yields_silent hm

theorem yields_loose {r : Run α n} (h : r.Yields ts good) : r.loose.Yields ts good := by
  refine ⟨?_, fun value rest hr => h.tokens value rest ?_⟩
  · rw [outcome_loose, Parsed.result_loose]
    exact h.left
  · rwa [Parsed.Gives, outcome_loose, Parsed.result_loose] at hr

theorem yields_map {r : Run α n} {f : α → β} {good : List Token → β → Prop}
    (h : r.Yields ts fun w value => good w (f value)) : (r.map f).Yields ts good := by
  obtain ⟨events, outcome⟩ := r
  cases outcome with
  | failed failure rest within =>
    exact ⟨h.left, fun value rest hr => by simp [Parsed.Gives, Parsed.map] at hr⟩
  | done value' rest' shorter =>
    refine ⟨h.left, fun value rest hr => ?_⟩
    simp only [Parsed.Gives, outcome_map, Parsed.map, Parsed.result_done, Prod.mk.injEq,
      Except.ok.injEq] at hr
    obtain ⟨rfl, rfl⟩ := hr
    exact h.tokens value' rest' rfl

theorem yields_after {r : Run α n} {event : Event} (h : r.Yields ts good) :
    (r.after event).Yields ts good := by
  refine ⟨h.left, fun value rest hr => ?_⟩
  obtain ⟨w, hw, ht, hc⟩ := h.tokens value rest hr
  refine ⟨w, hw, ht, fun hclean => hc fun failure hf => hclean failure ?_⟩
  exact List.mem_cons_of_mem _ hf

theorem yields_skipping {t : Token} {r : Run α ts.length} {good : List Token → α → Prop}
    (h : r.Yields ts fun w value => good (t :: w) value) :
    (skipping (t :: ts) r).Yields (t :: ts) good := by
  have h := yields_loose h
  have hd : Drawn (t :: ts) [t] ts := drawn_of_eq rfl
  refine ⟨h.left.trans hd.left, fun value rest hr => ?_⟩
  obtain ⟨w, hw, ht, hc⟩ := h.tokens value rest hr
  exact ⟨t :: w, hw, hd.trans ht, fun hclean => congrArg (t :: ·) (hc hclean)⟩

theorem yields_andThen {r : Run α n} {good' : List Token → β → Prop}
    {next : (value : α) → (rest : List Token) → rest.length < n → Run β (rest.length + 1)}
    (hr : r.Yields ts good)
    (hn : ∀ value w rest h, good w value →
      (next value rest h).Yields rest fun v => good' (w ++ v)) :
    (r.andThen next).Yields ts good' := by
  obtain ⟨events, outcome⟩ := r
  cases outcome with
  | failed failure rest within =>
    exact ⟨hr.left, fun value' rest' h => by simp [Parsed.Gives, Run.andThen] at h⟩
  | done value rest shorter =>
    have hrest : rest.Sublist ts := hr.left
    obtain ⟨w, hw, hwt, hc⟩ := hr.tokens value rest rfl
    have h := hn value w rest shorter hw
    constructor
    · rw [Run.andThen, Parsed.result_before]
      exact h.left.trans hrest
    · intro value' rest' hg
      rw [Parsed.Gives, Run.andThen, Parsed.result_before] at hg
      obtain ⟨v, hv, hvt, hc'⟩ := h.tokens value' rest' hg
      refine ⟨w ++ v, hv, hwt.trans hvt, fun hclean => ?_⟩
      obtain ⟨h₁, h₂⟩ := clean_append.1 hclean
      rw [List.append_assoc, ← hc' h₂, ← hc h₁]

theorem yields_chain {r : Run α n} {good' : List Token → β → Prop}
    {next : (value : α) → (rest : List Token) → rest.length < n → Run β rest.length}
    (hr : r.Yields ts good)
    (hn : ∀ value w rest h, good w value →
      (next value rest h).Yields rest fun v => good' (w ++ v)) :
    (r.chain next).Yields ts good' :=
  yields_andThen hr fun value w rest h hw => yields_loose (hn value w rest h hw)

end Run

/-! ### The first token -/

namespace Front

variable {α : Type} {ts : List Token}

@[simp] theorem events_run (front : Front ts)
    (next : (t : Token) → (rest : List Token) → rest.length < ts.length → Run α rest.length) :
    (front.run next).events = (next front.token front.rest front.shorter).events := rfl

@[simp] theorem result_run (front : Front ts)
    (next : (t : Token) → (rest : List Token) → rest.length < ts.length → Run α rest.length) :
    (front.run next).outcome.result =
      (next front.token front.rest front.shorter).outcome.result := by
  rw [run, Run.outcome_chain, Run.outcome_silent]
  exact Parsed.result_chain (Parsed.result_give _ _) _

theorem gives_run {front : Front ts}
    {next : (t : Token) → (rest : List Token) → rest.length < ts.length → Run α rest.length}
    {value : α} {rest : List Token}
    (h : (next front.token front.rest front.shorter).Gives value rest) :
    (front.run next).Gives value rest := by
  have hg : (front.give front.token).Gives front.token front.rest := Parsed.result_give _ _
  exact (Run.gives_silent hg).chain fun _ => h

theorem yields_run {front : Front ts}
    {next : (t : Token) → (rest : List Token) → rest.length < ts.length → Run α rest.length}
    {good : List Token → α → Prop} (hts : ts = front.token :: front.rest)
    (h : (next front.token front.rest front.shorter).Yields front.rest
      fun w => good (front.token :: w)) :
    (front.run next).Yields ts good := by
  have hd : Drawn ts [front.token] front.rest := drawn_of_eq hts
  constructor
  · rw [result_run]
    exact h.left.trans hd.left
  · intro value rest hr
    rw [Parsed.Gives, result_run] at hr
    obtain ⟨w, hw, ht, hc⟩ := h.tokens value rest hr
    refine ⟨front.token :: w, hw, hd.trans ht, fun hclean => ?_⟩
    rw [List.cons_append, ← hc (clean_append.1 hclean).2]
    exact hts

end Front

end FrontEnd.Grammar
