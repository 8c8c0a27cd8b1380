import FrontEnd.Number.Integer
import FrontEnd.Proofs.Running

/-!
Two runs side by side. The tokens of the two lists agree in kind and value up to a point, where
the lists `x` and `y` begin; behind their first token these may differ in any way. As long as the
first run does not go beyond that point, the second does the same: it reads the same value, fails
for the same reasons, and blames the tokens at the same places. Each way to combine readers has
one rule. With a list beside itself, the rules say where failures are blamed and in which order.
-/

set_option autoImplicit false

namespace FrontEnd.Grammar

/-! ### Lists that agree up to a point -/

/-- The same kind and the same value, at any positions. -/
def SameWord (t u : Token) : Prop := t.kind = u.kind ∧ t.value = u.value

/-- The first tokens agree; the end of a list is like the end of input. -/
inductive SameHead : List Token → List Token → Prop where
  | stop {ts us : List Token} : headKind ts = .eof → headKind us = .eof → SameHead ts us
  | cons {t u : Token} {ts us : List Token} : SameWord t u → SameHead (t :: ts) (u :: us)

/-- The tokens agree one by one up to the point where `x` and `y` begin. -/
inductive Alike (x y : List Token) : List Token → List Token → Prop where
  | stop : SameHead x y → Alike x y x y
  | cons {t u : Token} {ts us : List Token} :
    SameWord t u → Alike x y ts us → Alike x y (t :: ts) (u :: us)

/-- What agreement says of the first tokens: both lists are at the end of input, or the first
tokens agree and, up to the point, so does what stands behind them. -/
inductive Heads (x y : List Token) : List Token → List Token → Prop where
  | stop {ts us : List Token} : headKind ts = .eof → headKind us = .eof → Heads x y ts us
  | cons {t u : Token} {ts us : List Token} :
    t.kind ≠ .eof → SameWord t u → (x.length ≤ ts.length → Alike x y ts us) →
    Heads x y (t :: ts) (u :: us)

section

variable {x y : List Token}

theorem Alike.heads {ts us : List Token} (h : Alike x y ts us) : Heads x y ts us := by
  cases h with
  | stop h =>
    cases h with
    | stop hx hy => exact .stop hx hy
    | @cons t u x y hw =>
      by_cases ht : t.kind = .eof
      · exact .stop ht (hw.1.symm.trans ht)
      · exact .cons ht hw fun hl => absurd hl (by simp)
  | @cons t u ts us hw h =>
    by_cases ht : t.kind = .eof
    · exact .stop ht (hw.1.symm.trans ht)
    · exact .cons ht hw fun _ => h

theorem Heads.headKind_eq {ts us : List Token} (h : Heads x y ts us) :
    headKind ts = headKind us := by
  cases h with
  | stop ht hu => rw [ht, hu]
  | cons _ hw _ => exact hw.1

theorem Alike.headKind_eq {ts us : List Token} (h : Alike x y ts us) :
    headKind ts = headKind us := h.heads.headKind_eq

/-- As many tokens stand before the point in one list as in the other. -/
theorem Alike.length {ts us : List Token} (h : Alike x y ts us) :
    ts.length + y.length = us.length + x.length := by
  induction h with
  | stop => exact Nat.add_comm _ _
  | cons _ _ ih =>
    simp only [List.length_cons]
    omega

theorem alike_refl (ts : List Token) : Alike [] [] ts ts := by
  induction ts with
  | nil => exact .stop (.stop rfl rfl)
  | cons t ts ih => exact .cons ⟨rfl, rfl⟩ ih

theorem alike_append (w : List Token) (h : SameHead x y) : Alike x y (w ++ x) (w ++ y) := by
  induction w with
  | nil => exact .stop h
  | cons t w ih => exact .cons ⟨rfl, rfl⟩ ih

theorem Alike.le_length {ts us : List Token} (h : Alike x y ts us) : x.length ≤ ts.length := by
  induction h with
  | stop => exact Nat.le_refl _
  | cons _ _ ih => exact Nat.le_succ_of_le ih

/-- The fronts of two lists agree. -/
structure Fronts (x y : List Token) {ts us : List Token} (f : Front ts) (g : Front us) : Prop where
  left : ts = f.token :: f.rest
  right : us = g.token :: g.rest
  word : SameWord f.token g.token
  rest : x.length ≤ f.rest.length → Alike x y f.rest g.rest

/-- A token of one of the given kinds is found in both lists or in neither. -/
theorem Alike.accept? {ts us : List Token} (h : Alike x y ts us) (kinds : List TokenKind)
    (hk : .eof ∉ kinds) :
    (accept? kinds ts = none ∧ Grammar.accept? kinds us = none ∧ headKind ts ∉ kinds) ∨
      ∃ f g, Grammar.accept? kinds ts = some f ∧ Grammar.accept? kinds us = some g ∧
        f.token.kind ∈ kinds ∧ Fronts x y f g := by
  cases h.heads with
  | stop ht hu => exact .inl ⟨accept?_eq_none (ht ▸ hk), accept?_eq_none (hu ▸ hk), ht ▸ hk⟩
  | @cons t u ts us ht hw ha =>
    by_cases hm : t.kind ∈ kinds
    · have hm' : u.kind ∈ kinds := hw.1 ▸ hm
      refine .inr ⟨_, _, (accept?_cons ..).trans (if_pos hm), (accept?_cons ..).trans (if_pos hm'),
        hm, rfl, rfl, hw, ha⟩
    · have hm' : u.kind ∉ kinds := hw.1 ▸ hm
      exact .inl ⟨accept?_eq_none hm, accept?_eq_none hm', hm⟩

/-- Both lists are at the end of input, or both have a first token. -/
theorem Alike.front? {ts us : List Token} (h : Alike x y ts us) :
    headKind ts = .eof ∧ headKind us = .eof ∨
      ∃ f g, front? ts = some f ∧ Grammar.front? us = some g ∧ f.token.kind ≠ .eof ∧
        Fronts x y f g := by
  cases h.heads with
  | stop ht hu => exact .inl ⟨ht, hu⟩
  | cons ht hw ha => exact .inr ⟨_, _, rfl, rfl, ht, rfl, rfl, hw, ha⟩

/-! ### Failures on the way -/

/-- What a cause says of the tokens at which it is blamed. -/
def Blames : Cause → List Token → Prop
  | .unexpectedToken expected found, ts => headKind ts = found ∧ found ≠ expected
  | .expectedPrimaryExpression found, ts => headKind ts = found
  | .invalidCallTarget, ts => headKind ts = .lParen
  | .numberParseError text, ts => ∃ t, ts.head? = some t ∧ t.value = text ∧
      (t.kind = .integer ∧ Number.int64? text = none ∨
        t.kind = .realNumber ∧ Number.Binary64.ofText? text = none)
  | .missingClosingBrace, ts => headKind ts = .eof
  | _, _ => False

/-- From two lists to the same place in both. -/
structure InStep (x y ts us ts' us' : List Token) : Prop where
  left : ts' <:+ ts
  right : us' <:+ us
  alike : Alike x y ts' us'

theorem InStep.trans {ts us ts' us' ts'' us'' : List Token} (h : InStep x y ts us ts' us')
    (h' : InStep x y ts' us' ts'' us'') : InStep x y ts us ts'' us'' :=
  ⟨h'.left.trans h.left, h'.right.trans h.right, h'.alike⟩

theorem Alike.inStep {ts us : List Token} (h : Alike x y ts us) : InStep x y ts us ts us :=
  ⟨List.suffix_rfl, List.suffix_rfl, h⟩

/-- The same place is as many tokens behind the start of one list as of the other. -/
theorem InStep.exists_drop {ts us ts' us' : List Token} (h : InStep x y ts us ts' us')
    (hl : ts.length + y.length = us.length + x.length) :
    ∃ i, i + x.length ≤ ts.length ∧ ts' = ts.drop i ∧ us' = us.drop i := by
  have hts := h.left.length_le
  have hus := h.right.length_le
  have hx := h.alike.le_length
  have hl' := h.alike.length
  have hi : ts.length - ts'.length = us.length - us'.length := by omega
  refine ⟨ts.length - ts'.length, by omega, List.suffix_iff_eq_drop.1 h.left, ?_⟩
  rw [hi]
  exact List.suffix_iff_eq_drop.1 h.right

theorem Fronts.head?_left {ts us : List Token} {f : Front ts} {g : Front us}
    (h : Fronts x y f g) : ts.head? = some f.token := congrArg List.head? h.left

theorem Fronts.head?_right {ts us : List Token} {f : Front ts} {g : Front us}
    (h : Fronts x y f g) : us.head? = some g.token := congrArg List.head? h.right

theorem Fronts.inStep {ts us : List Token} {f : Front ts} {g : Front us} (h : Fronts x y f g)
    (hl : x.length ≤ f.rest.length) : InStep x y ts us f.rest g.rest :=
  ⟨⟨[f.token], h.left.symm⟩, ⟨[g.token], h.right.symm⟩, h.rest hl⟩

/-- On the way from `ts` and `us` to `ts'` and `us'`, the failures `fs` and `gs` happen for the
same causes and blame the same places, one behind the other. -/
inductive Trail (x y : List Token) : (ts us : List Token) → (fs gs : List Failure) →
    (ts' us' : List Token) → Prop where
  | nil {ts us ts' us' : List Token} : InStep x y ts us ts' us' → Trail x y ts us [] [] ts' us'
  | cons {ts us bs cs ts' us' : List Token} {cause : Cause} {fs gs : List Failure} :
    InStep x y ts us bs cs → Blames cause bs → Trail x y bs cs fs gs ts' us' →
    Trail x y ts us (.here cause bs :: fs) (.here cause cs :: gs) ts' us'

theorem InStep.trail {ts us bs cs ts' us' : List Token} {fs gs : List Failure}
    (h : InStep x y ts us bs cs) (ht : Trail x y bs cs fs gs ts' us') :
    Trail x y ts us fs gs ts' us' := by
  cases ht with
  | nil hs => exact .nil (h.trans hs)
  | cons hs hb ht => exact .cons (h.trans hs) hb ht

theorem Trail.append {ts us bs cs ts' us' : List Token} {fs gs fs' gs' : List Failure}
    (h : Trail x y ts us fs gs bs cs) (h' : Trail x y bs cs fs' gs' ts' us') :
    Trail x y ts us (fs ++ fs') (gs ++ gs') ts' us' := by
  induction h with
  | nil hs => exact hs.trail h'
  | cons hs hb _ ih => exact .cons hs hb (ih h')

theorem Trail.inStep {ts us ts' us' : List Token} {fs gs : List Failure}
    (h : Trail x y ts us fs gs ts' us') : InStep x y ts us ts' us' := by
  induction h with
  | nil hs => exact hs
  | cons hs _ _ ih => exact hs.trans ih

/-- What a failure says holds where it is blamed. -/
theorem Trail.blames {ts us ts' us' : List Token} {fs gs : List Failure}
    (h : Trail x y ts us fs gs ts' us') {f : Failure} (hf : f ∈ fs) :
    ∃ cause bs, f = .here cause bs ∧ bs <:+ ts ∧ Blames cause bs := by
  induction h with
  | nil => simp at hf
  | @cons ts us bs cs ts' us' cause fs gs hs hb _ ih =>
    obtain rfl | hf := List.mem_cons.1 hf
    · exact ⟨cause, bs, rfl, hs.left, hb⟩
    · obtain ⟨cause', bs', rfl, hs', hb'⟩ := ih hf
      exact ⟨cause', bs', rfl, hs'.trans hs.left, hb'⟩

/-- What never falls along a list never falls along a trail. -/
theorem Trail.pairwise {ts us ts' us' : List Token} {fs gs : List Failure}
    (h : Trail x y ts us fs gs ts' us') (key : Option Token → Nat)
    (hk : ∀ bs cs, bs <:+ ts → cs <:+ bs → key bs.head? ≤ key cs.head?) :
    fs.Pairwise fun f g => key f.token? ≤ key g.token? := by
  induction h with
  | nil => exact .nil
  | @cons ts us bs cs ts' us' cause fs gs hs hb ht ih =>
    refine List.pairwise_cons.2 ⟨fun f hf => ?_, ih fun bs' cs' h => hk bs' cs' (h.trans hs.left)⟩
    obtain ⟨cause', bs', rfl, hs', -⟩ := ht.blames hf
    exact hk bs bs' hs.left hs'

/-- A failure blames the place where it happens. -/
theorem Alike.trail {ts us : List Token} (h : Alike x y ts us) {cause : Cause}
    (hb : Blames cause ts) :
    Trail x y ts us [.here cause ts] [.here cause us] ts us :=
  .cons h.inStep hb (.nil h.inStep)

/-! ### Runs in parallel -/

/-- Two results with the same failures before them: both are values, related by `R`, or both are
failures that come next on the trail. -/
inductive Agree (x y : List Token) {α : Type} (R : α → α → Prop) (ts us : List Token)
    (fs gs : List Failure) :
    Except Failure α × List Token → Except Failure α × List Token → Prop where
  | value {a b : α} {ts' us' : List Token} :
    R a b → Trail x y ts us fs gs ts' us' → Agree x y R ts us fs gs (.ok a, ts') (.ok b, us')
  | failure {f g : Failure} {ts' us' : List Token} :
    Trail x y ts us (fs ++ [f]) (gs ++ [g]) ts' us' →
    Agree x y R ts us fs gs (.error f, ts') (.error g, us')

/-- What comes behind a trail. -/
theorem Agree.behind {α : Type} {R : α → α → Prop} {ts us bs cs : List Token}
    {fs gs fs' gs' : List Failure} {p q : Except Failure α × List Token}
    (ht : Trail x y ts us fs gs bs cs) (h : Agree x y R bs cs fs' gs' p q) :
    Agree x y R ts us (fs ++ fs') (gs ++ gs') p q := by
  cases h with
  | value hr h => exact .value hr (ht.append h)
  | failure h => exact .failure (by simpa using ht.append h)

end

theorem Parsed.result_length_le {α : Type} {n : Nat} (p : Parsed α n) :
    p.result.2.length ≤ n := by
  cases p with
  | done value rest shorter => exact Nat.le_of_lt shorter
  | failed failure rest within => exact within

theorem Parsed.result_loose_length_le {α : Type} {n : Nat} (p : Parsed α n) :
    p.loose.result.2.length ≤ n := by
  rw [result_loose]
  exact result_length_le p

@[simp] theorem Parsed.result_map_snd {α β : Type} {n : Nat} (f : α → β) (p : Parsed α n) :
    (p.map f).result.2 = p.result.2 := by cases p <;> rfl

theorem Parsed.andThen_length_le {α β : Type} {n k : Nat} {p : Parsed α n}
    {next : (value : α) → (rest : List Token) → rest.length < n → Parsed β (rest.length + 1)}
    (hp : p.result.2.length ≤ k)
    (hn : ∀ a rest h, (next a rest h).result.2.length ≤ rest.length) :
    (p.andThen next).result.2.length ≤ k := by
  cases p with
  | failed failure rest within => exact hp
  | done value rest shorter =>
    rw [andThen, result_before]
    exact Nat.le_trans (hn value rest shorter) hp

theorem Parsed.chain_length_le {α β : Type} {n k : Nat} {p : Parsed α n}
    {next : (value : α) → (rest : List Token) → rest.length < n → Parsed β rest.length}
    (hp : p.result.2.length ≤ k) : (p.chain next).result.2.length ≤ k :=
  andThen_length_le hp fun _ _ _ => result_loose_length_le _

/-- What may go on with a first token does not move back. -/
theorem Parsed.option_length_le {α : Type} {ts : List Token} (front? : Option (Front ts)) (a : α)
    (next : Front ts → Parsed α ts.length) :
    (match front? with
      | none => stay a ts
      | some front => (next front).loose).result.2.length ≤ ts.length := by
  cases front? with
  | none => exact Nat.le_refl _
  | some front => exact result_loose_length_le _

namespace Run

variable {x y ts us : List Token} {α β : Type} {n m : Nat} {R : α → α → Prop} {S : β → β → Prop}

/-- Unless the first run goes beyond the point where `x` begins, the two runs agree. -/
def Parallel (x y : List Token) (R : α → α → Prop) (ts us : List Token) (r : Run α n)
    (r' : Run α m) : Prop :=
  x.length ≤ r.outcome.result.2.length →
    Agree x y R ts us (faults r.events) (faults r'.events) r.outcome.result r'.outcome.result

theorem parallel_stay {a b : α} (h : Alike x y ts us) (hr : R a b) :
    (stay a ts).Parallel x y R ts us (stay b us) := fun _ => .value hr (.nil h.inStep)

@[simp] theorem parallel_loose {r : Run α n} {r' : Run α m} :
    r.loose.Parallel x y R ts us r'.loose ↔ r.Parallel x y R ts us r' := by
  simp [Parallel, loose]

theorem parallel_map {f g : α → β} {r : Run α n} {r' : Run α m}
    (h : r.Parallel x y R ts us r') (hf : ∀ a b, R a b → S (f a) (g b)) :
    (r.map f).Parallel x y S ts us (r'.map g) := by
  obtain ⟨events, outcome⟩ := r
  obtain ⟨events', outcome'⟩ := r'
  intro hl
  cases outcome with
  | done a rest shorter =>
    cases outcome' with
    | done b rest' shorter' =>
      cases h hl with
      | value hr ht => exact .value (hf a b hr) ht
    | failed g rest' within' => cases h hl
  | failed f rest within =>
    cases outcome' with
    | done b rest' shorter' => cases h hl
    | failed g rest' within' =>
      cases h hl with
      | failure ht => exact .failure ht

theorem parallel_after {t u : Option Token} {r : Run α n} {r' : Run α m}
    (h : r.Parallel x y R ts us r') :
    (r.after (.statement t)).Parallel x y R ts us (r'.after (.statement u)) := h

/-- A failure that is recorded at the place where it is blamed. -/
theorem parallel_fault {cause : Cause} {r : Run α n} {r' : Run α m} (ha : Alike x y ts us)
    (hb : Blames cause ts) (h : r.Parallel x y R ts us r') :
    (r.after (.fault (.here cause ts))).Parallel x y R ts us
      (r'.after (.fault (.here cause us))) :=
  fun hl => .behind (ha.trail hb) (h hl)

/-- Behind values that agree, reading goes on in parallel. -/
theorem parallel_andThen {r : Run α n} {r' : Run α m}
    {next : (value : α) → (rest : List Token) → rest.length < n → Run β (rest.length + 1)}
    {next' : (value : α) → (rest : List Token) → rest.length < m → Run β (rest.length + 1)}
    (hr : r.Parallel x y R ts us r')
    (hw : ∀ a rest h, (next a rest h).outcome.result.2.length ≤ rest.length)
    (hn : ∀ a b rest rest' h h', R a b → Alike x y rest rest' →
      (next a rest h).Parallel x y S rest rest' (next' b rest' h')) :
    (r.andThen next).Parallel x y S ts us (r'.andThen next') := by
  obtain ⟨events, outcome⟩ := r
  obtain ⟨events', outcome'⟩ := r'
  intro hl
  cases outcome with
  | failed f rest within =>
    cases outcome' with
    | done b rest' shorter' => cases hr hl
    | failed g rest' within' =>
      cases hr hl with
      | failure ht => exact .failure ht
  | done a rest shorter =>
    simp only [Run.andThen, Parsed.result_before] at hl
    have hrest : x.length ≤ rest.length := Nat.le_trans hl (hw a rest shorter)
    cases outcome' with
    | failed g rest' within' => cases hr hrest
    | done b rest' shorter' =>
      cases hr hrest with
      | value hab ht =>
        have h := hn a b rest rest' shorter shorter' hab ht.inStep.alike hl
        simp only [Run.andThen, Parsed.result_before, faults_append]
        exact h.behind ht

theorem parallel_chain {r : Run α n} {r' : Run α m}
    {next : (value : α) → (rest : List Token) → rest.length < n → Run β rest.length}
    {next' : (value : α) → (rest : List Token) → rest.length < m → Run β rest.length}
    (hr : r.Parallel x y R ts us r')
    (hn : ∀ a b rest rest' h h', R a b → Alike x y rest rest' →
      (next a rest h).Parallel x y S rest rest' (next' b rest' h')) :
    (r.chain next).Parallel x y S ts us (r'.chain next') := by
  refine parallel_andThen hr ?_ ?_
  · intro a rest h
    exact Parsed.result_loose_length_le _
  · intro a b rest rest' h h' hab ha
    exact parallel_loose.2 (hn a b rest rest' h h' hab ha)

/-- What agrees behind a step agrees from before it. -/
theorem Parallel.behind {bs cs : List Token} {r : Run α n} {r' : Run α m}
    (hs : x.length ≤ r.outcome.result.2.length → InStep x y ts us bs cs)
    (h : r.Parallel x y R bs cs r') : r.Parallel x y R ts us r' :=
  fun hl => .behind (.nil (hs hl)) (h hl)

theorem parallel_skipping {t u : Token} {r : Run α ts.length} {r' : Run α us.length}
    (ha : x.length ≤ ts.length → Alike x y ts us) (h : Alike x y ts us → r.Parallel x y R ts us r') :
    (skipping (t :: ts) r).Parallel x y R (t :: ts) (u :: us) (skipping (u :: us) r') := by
  intro hl
  have hl' : x.length ≤ r.outcome.result.2.length := by simpa [skipping] using hl
  have ha := ha (Nat.le_trans hl' (Parsed.result_length_le _))
  have hs : InStep x y (t :: ts) (u :: us) ts us := ⟨⟨[t], rfl⟩, ⟨[u], rfl⟩, ha⟩
  exact (parallel_loose.2 (h ha)).behind (fun _ => hs) hl

end Run

namespace Parsed

variable {x y ts us : List Token} {α β : Type} {n m : Nat} {R : α → α → Prop} {S : β → β → Prop}

/-- Reading in parallel, with no failure on the way. -/
def Parallel (x y : List Token) (R : α → α → Prop) (ts us : List Token) (p : Parsed α n)
    (q : Parsed α m) : Prop :=
  (Run.silent p).Parallel x y R ts us (Run.silent q)

theorem parallel_stay {a b : α} (h : Alike x y ts us) (hr : R a b) :
    (stay a ts).Parallel x y R ts us (stay b us) := Run.parallel_stay h hr

theorem parallel_of_gives {p : Parsed α n} {q : Parsed α m} {a b : α} (h : Alike x y ts us)
    (hp : p.Gives a ts) (hq : q.Gives b us) (hr : R a b) : p.Parallel x y R ts us q := by
  intro _
  rw [Run.outcome_silent, Run.outcome_silent, hp, hq]
  exact .value hr (.nil h.inStep)

theorem parallel_refuse {cause : Cause} (h : Alike x y ts us) (hb : Blames cause ts) :
    (refuse cause ts : Parsed α ts.length).Parallel x y R ts us (refuse cause us) :=
  fun _ => .failure (h.trail hb)

@[simp] theorem parallel_loose {p : Parsed α n} {q : Parsed α m} :
    p.loose.Parallel x y R ts us q.loose ↔ p.Parallel x y R ts us q := by
  simp [Parallel, Run.Parallel]

theorem parallel_map {f g : α → β} {p : Parsed α n} {q : Parsed α m}
    (h : p.Parallel x y R ts us q) (hf : ∀ a b, R a b → S (f a) (g b)) :
    (p.map f).Parallel x y S ts us (q.map g) := Run.parallel_map h hf

theorem silent_andThen (p : Parsed α n)
    (next : (value : α) → (rest : List Token) → rest.length < n → Parsed β (rest.length + 1)) :
    Run.silent (p.andThen next) =
      (Run.silent p).andThen fun value rest h => .silent (next value rest h) := by
  cases p <;> rfl

theorem parallel_andThen {p : Parsed α n} {q : Parsed α m}
    {next : (value : α) → (rest : List Token) → rest.length < n → Parsed β (rest.length + 1)}
    {next' : (value : α) → (rest : List Token) → rest.length < m → Parsed β (rest.length + 1)}
    (hp : p.Parallel x y R ts us q)
    (hw : ∀ a rest h, (next a rest h).result.2.length ≤ rest.length)
    (hn : ∀ a b rest rest' h h', R a b → Alike x y rest rest' →
      (next a rest h).Parallel x y S rest rest' (next' b rest' h')) :
    (p.andThen next).Parallel x y S ts us (q.andThen next') := by
  rw [Parallel, silent_andThen, silent_andThen]
  exact Run.parallel_andThen hp hw hn

theorem parallel_chain {p : Parsed α n} {q : Parsed α m}
    {next : (value : α) → (rest : List Token) → rest.length < n → Parsed β rest.length}
    {next' : (value : α) → (rest : List Token) → rest.length < m → Parsed β rest.length}
    (hp : p.Parallel x y R ts us q)
    (hn : ∀ a b rest rest' h h', R a b → Alike x y rest rest' →
      (next a rest h).Parallel x y S rest rest' (next' b rest' h')) :
    (p.chain next).Parallel x y S ts us (q.chain next') := by
  rw [Parallel, chain, chain, silent_andThen, silent_andThen]
  exact Run.parallel_chain hp hn

end Parsed

/-! ### The first token -/

section

variable {x y ts us : List Token} {α : Type} {R : α → α → Prop} {f : Front ts} {g : Front us}

theorem Fronts.give (h : Fronts x y f g) {a b : α} (hr : R a b) :
    (f.give a).Parallel x y R ts us (g.give b) :=
  fun hl => .value hr (.nil (h.inStep hl))

/-- What agrees behind the first tokens agrees from before them. -/
theorem Fronts.behind (h : Fronts x y f g) {n m : Nat} {r : Run α n} {r' : Run α m}
    (hw : r.outcome.result.2.length ≤ f.rest.length)
    (hn : Alike x y f.rest g.rest → r.Parallel x y R f.rest g.rest r') :
    r.Parallel x y R ts us r' := by
  intro hl
  have hrest := Nat.le_trans hl hw
  exact (hn (h.rest hrest)).behind (fun _ => h.inStep hrest) hl

theorem Fronts.andThen (h : Fronts x y f g)
    {next : (t : Token) → (rest : List Token) → rest.length < ts.length →
      Parsed α (rest.length + 1)}
    {next' : (t : Token) → (rest : List Token) → rest.length < us.length →
      Parsed α (rest.length + 1)}
    (hw : (next f.token f.rest f.shorter).result.2.length ≤ f.rest.length)
    (hn : Alike x y f.rest g.rest → (next f.token f.rest f.shorter).Parallel x y R f.rest g.rest
      (next' g.token g.rest g.shorter)) :
    (f.andThen next).Parallel x y R ts us (g.andThen next') := by
  have hp := h.behind (r := .silent (next f.token f.rest f.shorter)) hw hn
  simpa [Parsed.Parallel, Run.Parallel] using hp

theorem Fronts.chain (h : Fronts x y f g)
    {next : (t : Token) → (rest : List Token) → rest.length < ts.length → Parsed α rest.length}
    {next' : (t : Token) → (rest : List Token) → rest.length < us.length → Parsed α rest.length}
    (hn : Alike x y f.rest g.rest → (next f.token f.rest f.shorter).Parallel x y R f.rest g.rest
      (next' g.token g.rest g.shorter)) :
    (f.chain next).Parallel x y R ts us (g.chain next') := by
  have hp := h.behind (r := .silent (next f.token f.rest f.shorter))
    (Parsed.result_length_le _) hn
  simpa [Parsed.Parallel, Run.Parallel] using hp

theorem Fronts.run (h : Fronts x y f g)
    {next : (t : Token) → (rest : List Token) → rest.length < ts.length → Run α rest.length}
    {next' : (t : Token) → (rest : List Token) → rest.length < us.length → Run α rest.length}
    (hn : Alike x y f.rest g.rest → (next f.token f.rest f.shorter).Parallel x y R f.rest g.rest
      (next' g.token g.rest g.shorter)) :
    (f.run next).Parallel x y R ts us (g.run next') := by
  have hp := h.behind (Parsed.result_length_le _) hn
  simpa [Run.Parallel] using hp

/-- A token that is not there is blamed in both lists. -/
theorem Alike.expect (h : Alike x y ts us) {kind : TokenKind} (hk : kind ≠ .eof) :
    (expect kind ts).Parallel x y SameWord ts us (Grammar.expect kind us) := by
  rcases h.accept? [kind] (by simpa using hk.symm) with
    ⟨ht, hu, hh⟩ | ⟨f, g, ht, hu, _, hfg⟩
  · rw [Grammar.expect, Grammar.expect, ht, hu, h.headKind_eq]
    exact Parsed.parallel_refuse h ⟨h.headKind_eq, by rw [← h.headKind_eq]; simpa using hh⟩
  · rw [Grammar.expect, Grammar.expect, ht, hu]
    exact hfg.give hfg.word

end

end FrontEnd.Grammar
