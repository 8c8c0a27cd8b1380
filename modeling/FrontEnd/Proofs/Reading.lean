import FrontEnd.Grammar.Parsed

/-!
Laws of reading. A reader is judged by what it takes off the front of its tokens: `Gives` says
what a result is, and `Meets` says of the tokens that were taken that they satisfy one condition
when a value was read and another when reading failed. Each way to combine readers has one rule.
-/

set_option autoImplicit false

namespace FrontEnd.Grammar

/-! ### The first token -/

theorem front?_eq_some {ts : List Token} {front : Front ts} (h : front? ts = some front) :
    ts = front.token :: front.rest := by
  cases ts with
  | nil => simp [front?] at h
  | cons t rest =>
    simp only [front?, Option.some.injEq] at h
    subst h
    rfl

theorem headKind_eq_of_front? {ts : List Token} {front : Front ts} (h : front? ts = some front) :
    headKind ts = front.token.kind := congrArg headKind (front?_eq_some h)

theorem front?_eq_none {ts : List Token} (h : front? ts = none) : ts = [] := by
  cases ts with
  | nil => rfl
  | cons t rest => simp [front?] at h

theorem accept?_eq_some {kinds : List TokenKind} {ts : List Token} {front : Front ts}
    (h : accept? kinds ts = some front) :
    ts = front.token :: front.rest ∧ front.token.kind ∈ kinds := by
  obtain ⟨hf, hk⟩ := Option.filter_eq_some_iff.1 h
  exact ⟨front?_eq_some hf, by simpa using hk⟩

theorem accept?_eq_none {kinds : List TokenKind} {ts : List Token} (h : headKind ts ∉ kinds) :
    accept? kinds ts = none := by
  cases ts with
  | nil => rfl
  | cons t rest => simp_all [accept?_cons]

/-- Only an empty list or a first token of another kind is refused. -/
theorem headKind_of_accept?_eq_none {kinds : List TokenKind} {ts : List Token}
    (h : accept? kinds ts = none) (hk : headKind ts ∈ kinds) : ts = [] := by
  cases ts with
  | nil => rfl
  | cons t rest => simp_all [accept?_cons]

theorem headKind_ne_of_accept? {kind : TokenKind} {ts : List Token}
    (h : accept? [kind] ts = none) (hk : kind ≠ .eof) : headKind ts ≠ kind := by
  rintro rfl
  rw [headKind_of_accept?_eq_none h (List.mem_singleton_self _)] at hk
  exact hk rfl

theorem headKind_append {w : List Token} (v : List Token) (h : headKind w ≠ .eof) :
    headKind (w ++ v) = headKind w := by
  cases w with
  | nil => simp at h
  | cons t w => rfl

/-- Induction on the number of tokens left: a reader calls others on fewer tokens only. -/
@[elab_as_elim] theorem tokens_induction {motive : List Token → Prop}
    (step : ∀ ts, (∀ us, us.length < ts.length → motive us) → motive ts) (ts : List Token) :
    motive ts := by
  induction hn : ts.length using Nat.strongRecOn generalizing ts with
  | ind n ih => exact step ts fun us h => ih us.length (hn ▸ h) us rfl

namespace Parsed

variable {α β : Type} {n : Nat}

/-! ### What a result is -/

/-- The value or failure of a result and the tokens left, without the bound on their number. -/
def result : Parsed α n → Except Failure α × List Token
  | .done value rest _ => (.ok value, rest)
  | .failed failure rest _ => (.error failure, rest)

/-- A value was read, and `rest` is left. -/
def Gives (p : Parsed α n) (value : α) (rest : List Token) : Prop := p.result = (.ok value, rest)

@[simp] theorem result_done (value : α) (rest : List Token) (h : rest.length < n) :
    (Parsed.done value rest h).result = (.ok value, rest) := rfl

@[simp] theorem result_failed (failure : Failure) (rest : List Token) (h : rest.length ≤ n) :
    (Parsed.failed failure rest h : Parsed α n).result = (.error failure, rest) := rfl

@[simp] theorem result_stay (value : α) (ts : List Token) :
    (stay value ts).result = (.ok value, ts) := rfl

@[simp] theorem result_loose (p : Parsed α n) : p.loose.result = p.result := by cases p <;> rfl

@[simp] theorem result_before {rest : List Token} (h : rest.length < n)
    (p : Parsed α (rest.length + 1)) : (p.before h).result = p.result := by cases p <;> rfl

@[simp] theorem result_give {ts : List Token} (front : Front ts) (value : α) :
    (front.give value).result = (.ok value, front.rest) := rfl

theorem Gives.shorter {p : Parsed α n} {value : α} {rest : List Token} (h : p.Gives value rest) :
    rest.length < n := by
  cases p with
  | done value' rest' shorter =>
    simp only [Gives, result_done, Prod.mk.injEq] at h
    exact h.2 ▸ shorter
  | failed failure rest' within => simp [Gives] at h

theorem Gives.unique {p : Parsed α n} {a b : α} {rest rest' : List Token} (h : p.Gives a rest)
    (h' : p.Gives b rest') : a = b := by
  rw [Gives, h] at h'
  exact Except.ok.inj (congrArg Prod.fst h')

theorem Gives.map {p : Parsed α n} {value : α} {rest : List Token} (f : α → β)
    (h : p.Gives value rest) : (p.map f).Gives (f value) rest := by
  cases p with
  | done value' rest' shorter => simp_all [Gives, Parsed.map]
  | failed failure rest' within => simp [Gives] at h

/-- Behind a value, reading goes on with what is left. -/
theorem result_andThen {p : Parsed α n} {value : α} {rest : List Token} (h : p.Gives value rest)
    (next : (value : α) → (rest : List Token) → rest.length < n → Parsed β (rest.length + 1)) :
    (p.andThen next).result = (next value rest h.shorter).result := by
  cases p with
  | done value' rest' shorter =>
    simp only [Gives, result_done, Prod.mk.injEq, Except.ok.injEq] at h
    obtain ⟨rfl, rfl⟩ := h
    simp [andThen]
  | failed failure rest' within => simp [Gives] at h

theorem result_chain {p : Parsed α n} {value : α} {rest : List Token} (h : p.Gives value rest)
    (next : (value : α) → (rest : List Token) → rest.length < n → Parsed β rest.length) :
    (p.chain next).result = (next value rest h.shorter).result := by
  rw [chain, result_andThen h, result_loose]

theorem Gives.andThen {p : Parsed α n} {value : α} {rest : List Token} (h : p.Gives value rest)
    {next : (value : α) → (rest : List Token) → rest.length < n → Parsed β (rest.length + 1)}
    {value' : β} {rest' : List Token} (hn : ∀ hr, (next value rest hr).Gives value' rest') :
    (p.andThen next).Gives value' rest' :=
  (result_andThen h next).trans (hn h.shorter)

theorem Gives.chain {p : Parsed α n} {value : α} {rest : List Token} (h : p.Gives value rest)
    {next : (value : α) → (rest : List Token) → rest.length < n → Parsed β rest.length}
    {value' : β} {rest' : List Token} (hn : ∀ hr, (next value rest hr).Gives value' rest') :
    (p.chain next).Gives value' rest' :=
  (result_chain h next).trans (hn h.shorter)

end Parsed

namespace Front

variable {α : Type} {ts : List Token}

@[simp] theorem result_andThen (front : Front ts)
    (next : (t : Token) → (rest : List Token) → rest.length < ts.length →
      Parsed α (rest.length + 1)) :
    (front.andThen next).result = (next front.token front.rest front.shorter).result :=
  Parsed.result_andThen (p := front.give front.token) rfl next

@[simp] theorem result_chain (front : Front ts)
    (next : (t : Token) → (rest : List Token) → rest.length < ts.length → Parsed α rest.length) :
    (front.chain next).result = (next front.token front.rest front.shorter).result :=
  Parsed.result_chain (p := front.give front.token) rfl next

end Front

theorem expect_cons {kind : TokenKind} {t : Token} (h : t.kind = kind) (rest : List Token) :
    (expect kind (t :: rest)).Gives t rest := by
  simp [Parsed.Gives, expect, accept?_cons, h]

namespace Parsed

variable {α β : Type} {n : Nat}

/-! ### What the tokens that were taken satisfy -/

/-- The result comes from taking tokens off the front of `ts`: `good` relates them to the value
that was read and the tokens left, and `bad` holds of them when reading failed. -/
def Meets (p : Parsed α n) (ts : List Token) (good : List Token → α → List Token → Prop)
    (bad : List Token → Prop) : Prop :=
  match p.result with
  | (.ok value, rest) => ∃ w, ts = w ++ rest ∧ good w value rest
  | (.error _, rest) => ∃ w, ts = w ++ rest ∧ bad w

variable {ts : List Token} {good : List Token → α → List Token → Prop} {bad : List Token → Prop}

theorem Meets.of_gives {p : Parsed α n} {value : α} {rest : List Token} (h : p.Meets ts good bad)
    (hg : p.Gives value rest) : ∃ w, ts = w ++ rest ∧ good w value rest := by
  rw [Meets, hg] at h
  exact h

theorem Meets.of_fails {p : Parsed α n} {failure : Failure} {rest : List Token}
    (h : p.Meets ts good bad) (hf : p.result = (.error failure, rest)) :
    ∃ w, ts = w ++ rest ∧ bad w := by
  rw [Meets, hf] at h
  exact h

theorem meets_of_gives {p : Parsed α n} {value : α} {rest w : List Token}
    (h : p.Gives value rest) (hw : ts = w ++ rest) (hg : good w value rest) :
    p.Meets ts good bad := by
  rw [Meets, h]
  exact ⟨w, hw, hg⟩

theorem Meets.mono {p : Parsed α n} {good' : List Token → α → List Token → Prop}
    {bad' : List Token → Prop} (h : p.Meets ts good bad)
    (hg : ∀ w value rest, good w value rest → good' w value rest) (hb : ∀ w, bad w → bad' w) :
    p.Meets ts good' bad' := by
  unfold Meets at *
  split at h
  · obtain ⟨w, hw, hv⟩ := h
    exact ⟨w, hw, hg w _ _ hv⟩
  · obtain ⟨w, hw, hv⟩ := h
    exact ⟨w, hw, hb w hv⟩

theorem meets_stay {value : α} (h : good [] value ts) : (stay value ts).Meets ts good bad :=
  ⟨[], rfl, h⟩

theorem meets_refuse {cause : Cause} (h : bad []) :
    (refuse cause ts : Parsed α ts.length).Meets ts good bad := ⟨[], rfl, h⟩

@[simp] theorem meets_loose {p : Parsed α n} : p.loose.Meets ts good bad ↔ p.Meets ts good bad := by
  simp [Meets]

theorem meets_map {p : Parsed α n} {f : α → β} {good : List Token → β → List Token → Prop}
    (h : p.Meets ts (fun w value rest => good w (f value) rest) bad) :
    (p.map f).Meets ts good bad := by
  cases p <;> exact h

theorem meets_give {front : Front ts} {value : α} (hts : ts = front.token :: front.rest)
    (h : good [front.token] value front.rest) : (front.give value).Meets ts good bad :=
  ⟨[front.token], hts, h⟩

/-- What is read behind a value continues the tokens of that value. -/
theorem meets_andThen {p : Parsed α n} {good' : List Token → β → List Token → Prop}
    {bad' : List Token → Prop}
    {next : (value : α) → (rest : List Token) → rest.length < n → Parsed β (rest.length + 1)}
    (hp : p.Meets ts good bad) (hb : ∀ w, bad w → bad' w)
    (hn : ∀ value w rest h, ts = w ++ rest → good w value rest →
      (next value rest h).Meets rest (fun v => good' (w ++ v)) (fun v => bad' (w ++ v))) :
    (p.andThen next).Meets ts good' bad' := by
  cases p with
  | failed failure rest within =>
    obtain ⟨w, hw, hf⟩ := hp
    exact ⟨w, hw, hb w hf⟩
  | done value rest shorter =>
    obtain ⟨w, hw, hv⟩ := hp
    have h := hn value w rest shorter hw hv
    unfold Meets at h ⊢
    simp only [andThen, result_before]
    split at h
    · obtain ⟨v, hr, hg⟩ := h
      exact ⟨w ++ v, by rw [hw, List.append_assoc, ← hr], hg⟩
    · obtain ⟨v, hr, hf⟩ := h
      exact ⟨w ++ v, by rw [hw, List.append_assoc, ← hr], hf⟩

theorem meets_chain {p : Parsed α n} {good' : List Token → β → List Token → Prop}
    {bad' : List Token → Prop}
    {next : (value : α) → (rest : List Token) → rest.length < n → Parsed β rest.length}
    (hp : p.Meets ts good bad) (hb : ∀ w, bad w → bad' w)
    (hn : ∀ value w rest h, ts = w ++ rest → good w value rest →
      (next value rest h).Meets rest (fun v => good' (w ++ v)) (fun v => bad' (w ++ v))) :
    (p.chain next).Meets ts good' bad' :=
  meets_andThen hp hb fun value w rest h hw hv => meets_loose.2 (hn value w rest h hw hv)

end Parsed

namespace Front

variable {α : Type} {ts : List Token} {good : List Token → α → List Token → Prop}
  {bad : List Token → Prop}

theorem meets_andThen {front : Front ts}
    {next : (t : Token) → (rest : List Token) → rest.length < ts.length →
      Parsed α (rest.length + 1)}
    (hts : ts = front.token :: front.rest)
    (hn : (next front.token front.rest front.shorter).Meets front.rest
      (fun w => good (front.token :: w)) (fun w => bad (front.token :: w))) :
    (front.andThen next).Meets ts good bad := by
  unfold Parsed.Meets at hn ⊢
  rw [result_andThen]
  split at hn
  · obtain ⟨w, hw, hg⟩ := hn
    exact ⟨front.token :: w, by rw [List.cons_append, ← hw]; exact hts, hg⟩
  · obtain ⟨w, hw, hb⟩ := hn
    exact ⟨front.token :: w, by rw [List.cons_append, ← hw]; exact hts, hb⟩

theorem meets_chain {front : Front ts}
    {next : (t : Token) → (rest : List Token) → rest.length < ts.length → Parsed α rest.length}
    (hts : ts = front.token :: front.rest)
    (hn : (next front.token front.rest front.shorter).Meets front.rest
      (fun w => good (front.token :: w)) (fun w => bad (front.token :: w))) :
    (front.chain next).Meets ts good bad :=
  meets_andThen hts (Parsed.meets_loose.2 hn)

end Front

theorem expect_meets {kind : TokenKind} {ts : List Token}
    {good : List Token → Token → List Token → Prop} {bad : List Token → Prop}
    (hg : ∀ t rest, t.kind = kind → good [t] t rest) (hb : bad []) :
    (expect kind ts).Meets ts good bad := by
  rw [expect]
  split
  · rename_i front hf
    obtain ⟨hts, hk⟩ := accept?_eq_some hf
    exact Parsed.meets_give hts (hg _ _ (by simpa using hk))
  · exact Parsed.meets_refuse hb

theorem expect_takes (kind : TokenKind) (ts : List Token) :
    (expect kind ts).Meets ts (fun w t _ => w = [t] ∧ t.kind = kind) (· = []) :=
  expect_meets (fun _ _ h => ⟨rfl, h⟩) rfl

end FrontEnd.Grammar
