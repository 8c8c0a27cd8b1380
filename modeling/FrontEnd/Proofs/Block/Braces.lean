import FrontEnd.Proofs.Clause.Soundness

/-!
Counting braces. `level` counts the braces that are open, and `matching` looks for the closing
brace that matches an opening one, both without regard to what the tokens between mean. Tokens
rise by `k` when they close no brace that they did not open and leave `k` of their own open.
-/

set_option autoImplicit false

namespace FrontEnd.Grammar

/-! ### Levels -/

/-- The number of open braces behind the tokens, with `d` open before them; none if they close one
too many. -/
def level (d : Nat) : List Token → Option Nat
  | [] => some d
  | t :: ts =>
    if t.kind = .lBrace then level (d + 1) ts
    else if t.kind = .rBrace then if d = 0 then none else level (d - 1) ts
    else level d ts

/-- The tokens from the closing brace on that matches an opening one, with `d` more braces open. -/
def matching (d : Nat) : List Token → Option (List Token)
  | [] => none
  | t :: ts =>
    if t.kind = .lBrace then matching (d + 1) ts
    else if t.kind = .rBrace then if d = 0 then some (t :: ts) else matching (d - 1) ts
    else matching d ts

section

variable {t : Token} {ts : List Token} {d : Nat}

@[simp] theorem level_nil : level d [] = some d := rfl

theorem level_cons_open (h : t.kind = .lBrace) : level d (t :: ts) = level (d + 1) ts := by
  simp [level, h]

theorem level_cons_close (h : t.kind = .rBrace) : level (d + 1) (t :: ts) = level d ts := by
  simp [level, h]

theorem level_cons_other (h : t.kind ∉ outerKinds) : level d (t :: ts) = level d ts := by
  simp only [outerKinds, List.mem_cons, List.not_mem_nil, or_false, not_or] at h
  simp [level, h]

end

theorem level_append (d : Nat) (w v : List Token) :
    level d (w ++ v) = (level d w).bind fun e => level e v := by
  induction w generalizing d with
  | nil => rfl
  | cons t w ih =>
    rw [List.cons_append, level, level]
    split
    · exact ih (d + 1)
    · split
      · cases d with
        | zero => rfl
        | succ d => exact ih d
      · exact ih d

/-- Tokens rise alike from every level. -/
theorem level_add {d k : Nat} {w : List Token} (h : level d w = some k) (e : Nat) :
    level (d + e) w = some (k + e) := by
  induction w generalizing d with
  | nil => simp_all
  | cons t w ih =>
    rw [level] at h ⊢
    split at h <;> rename_i ho
    · rw [if_pos ho, Nat.add_right_comm]
      exact ih h
    · rw [if_neg ho]
      split at h <;> rename_i hc
      · rw [if_pos hc]
        cases d with
        | zero => simp at h
        | succ d =>
          simp only [Nat.add_right_comm d 1 e, Nat.succ_ne_zero, if_false,
            Nat.add_sub_cancel] at h ⊢
          exact ih h
      · rw [if_neg hc]
        exact ih h

theorem matching_append {d e : Nat} {w : List Token} (ts : List Token) (h : level d w = some e) :
    matching d (w ++ ts) = matching e ts := by
  induction w generalizing d with
  | nil => simp_all
  | cons t w ih =>
    rw [level] at h
    rw [List.cons_append, matching]
    split at h <;> rename_i ho
    · rw [if_pos ho]
      exact ih h
    · rw [if_neg ho]
      split at h <;> rename_i hc
      · rw [if_pos hc]
        cases d with
        | zero => simp at h
        | succ d => exact ih h
      · rw [if_neg hc]
        exact ih h

theorem length_of_matching {d : Nat} {ts us : List Token} (h : matching d ts = some us) :
    us.length ≤ ts.length := by
  induction ts generalizing d with
  | nil => simp [matching] at h
  | cons t ts ih =>
    rw [matching] at h
    split at h
    · exact Nat.le_succ_of_le (ih h)
    · split at h
      · cases d with
        | zero =>
          obtain rfl := Option.some.inj h
          exact Nat.le_refl _
        | succ d => exact Nat.le_succ_of_le (ih h)
      · exact Nat.le_succ_of_le (ih h)

/-! ### Tokens that rise -/

/-- No brace is closed that was not opened, and `k` are left open. -/
def Rises (w : List Token) (k : Nat) : Prop := level 0 w = some k

theorem Rises.append {w v : List Token} {j k : Nat} (hw : Rises w j) (hv : Rises v k) :
    Rises (w ++ v) (j + k) := by
  have h := level_add hv j
  rw [Nat.zero_add, Nat.add_comm] at h
  rw [Rises, level_append, hw, Option.bind_some, h]

theorem Plain.rises {w : List Token} (h : Plain w) : Rises w 0 := by
  induction w with
  | nil => rfl
  | cons t w ih =>
    obtain ⟨ht, hw⟩ := plain_cons.1 h
    rw [Rises, level_cons_other ht]
    exact ih hw

/-- Tokens without braces in front do not matter. -/
theorem Plain.append_rises {w v : List Token} {k : Nat} (hw : Plain w) (hv : Rises v k) :
    Rises (w ++ v) k := by
  have h := hw.rises.append hv
  rwa [Nat.zero_add] at h

theorem rises_cons {t : Token} {w : List Token} {k : Nat} (ht : t.kind ∉ outerKinds)
    (hw : Rises w k) : Rises (t :: w) k := (level_cons_other ht).trans hw

theorem Opened.not_eof {w : List Token} (h : Opened w) : ∀ t ∈ w, t.kind ≠ .eof := by
  obtain ⟨v, o, u, rfl, hv, ho, hu⟩ := h
  have hv := hv.not_eof
  have hu := hu.not_eof
  grind

theorem Opened.rises {w : List Token} (h : Opened w) : Rises w 1 := by
  obtain ⟨v, o, u, rfl, hv, ho, hu⟩ := h
  have hou : Rises (o :: u) 1 := by
    rw [Rises, level_cons_open ho]
    exact level_add hu.rises 1
  exact hv.append_rises hou

theorem Rises.braced {w : List Token} {k : Nat} (h : Rises w k) {o c : Token}
    (ho : o.kind = .lBrace) (hc : c.kind = .rBrace) : Rises (o :: (w ++ [c])) k := by
  rw [Rises, level_cons_open ho, level_append, level_add h 1, Option.bind_some,
    level_cons_close hc, level_nil]

/-- The closing brace behind tokens that rise is the matching one exactly if they leave none
open. -/
theorem Rises.matching_iff {w : List Token} {k : Nat} (h : Rises w k) {c : Token}
    (hc : c.kind = .rBrace) (rest : List Token) :
    matching 0 (w ++ c :: rest) = some (c :: rest) ↔ k = 0 := by
  rw [matching_append _ h]
  cases k with
  | zero => simp [matching, hc]
  | succ k =>
    simp only [matching, hc, Nat.succ_ne_zero, iff_false]
    intro hm
    have hle := length_of_matching hm
    simp only [List.length_cons] at hle
    omega

/-- What the grammar forms closes what it opens. -/
theorem Forms.rises {c : Clause} {w : List Token} {s : c.Tree} (h : Forms c w s) : Rises w 0 := by
  induction h with
  | namespaceDecl hk hn _ ih =>
    exact rises_cons (by simp [hk, outerKinds]) (hn.plain.append_rises ih)
  | functionDecl hk hw ho hv hc hx _ ih =>
    refine rises_cons (by simp [hk, outerKinds]) (hw.plain.append_rises ?_)
    refine rises_cons (by simp [ho, outerKinds]) (hv.plain.append_rises ?_)
    exact rises_cons (by simp [hc, outerKinds]) (hx.plain.append_rises ih)
  | variableDecl hk hw hv hs =>
    apply Plain.rises
    have hk : _ ∉ outerKinds := plain_of_kind hk (by split <;> decide)
    simp_all [hw.plain, hv.plain, outerKinds]
  | structDecl hk hn ho hw hc | unionDecl hk hn ho hw hc =>
    exact rises_cons (by simp [hk, outerKinds]) (rises_cons (by simp [hn, outerKinds])
      (hw.plain.rises.braced ho hc))
  | enumDecl hk hn ho hw hc =>
    exact rises_cons (by simp [hk, outerKinds]) (rises_cons (by simp [hn, outerKinds])
      (hw.plain.rises.braced ho hc))
  | usingDecl hk hn hw hs =>
    apply Plain.rises
    simp [hk, hn, hw.plain, hs, outerKinds]
  | ifElse hk hw _ _ ihb iho =>
    exact rises_cons (by simp [hk, outerKinds]) ((hw.plain trivial).append_rises (ihb.append iho))
  | whileLoop hk hw _ ih =>
    exact rises_cons (by simp [hk, outerKinds]) ((hw.plain trivial).append_rises ih)
  | @doWhile k l s w v c b hk _ hl hv hs ih =>
    have hp : Plain (l :: (v ++ [s])) := by simp [hl, hv.plain trivial, hs, outerKinds]
    exact rises_cons (by simp [hk, outerKinds]) (ih.append hp.rises)
  | forLoop hk _ _ hx _ ihi ihc ihb =>
    exact rises_cons (by simp [hk, outerKinds])
      (ihi.append (ihc.append ((hx.plain trivial).append_rises ihb)))
  | breakLoop hk hs | continueLoop hk hs | returnNothing hk hs =>
    apply Plain.rises
    simp [hk, hs, outerKinds]
  | returnValue hk hw hs | free hk hw hs =>
    apply Plain.rises
    simp [hk, hw.plain trivial, hs, outerKinds]
  | assembly hk ho hw hc =>
    have hp : Plain _ := fun t ht => plain_of_kind (hw t ht) (by decide)
    exact rises_cons (by simp [hk, outerKinds]) (hp.rises.braced ho hc)
  | expression hw hs =>
    apply Plain.rises
    simp [hw.plain trivial, hs, outerKinds]
  | block ho _ hc ih => exact ih.braced ho hc
  | nil | nothing => rfl
  | stray hs _ ih => exact rises_cons (by simp [hs, outerKinds]) ih
  | cons _ _ ihs ihb => exact ihs.append ihb
  | elseBlock hk _ ih => exact rises_cons (by simp [hk, outerKinds]) ih
  | elseIf hk hi hw _ _ ihb iho =>
    exact rises_cons (by simp [hk, outerKinds]) (rises_cons (by simp [hi, outerKinds])
      ((hw.plain trivial).append_rises (ihb.append iho)))

/-! ### Tokens that were taken -/

/-- Taking the tokens `w`, which leaves `rest`, goes on before the end of input, and unless `rest`
is there they rise: by nothing exactly if the taking is not spoiled. -/
def Taken (w rest : List Token) (spoiled : Prop) : Prop :=
  (∀ t ∈ w, t.kind ≠ .eof) ∧
    (headKind rest = .eof ∨ ∃ k, Rises w k ∧ (k = 0 ↔ ¬ spoiled))

theorem Taken.congr {w rest : List Token} {p q : Prop} (h : Taken w rest p) (hpq : p ↔ q) :
    Taken w rest q := by
  rwa [propext hpq] at h

theorem Taken.of_rises {w rest : List Token} (h : Rises w 0) (he : ∀ t ∈ w, t.kind ≠ .eof) :
    Taken w rest False := ⟨he, .inr ⟨0, h, by simp⟩⟩

theorem Forms.taken {c : Clause} {w : List Token} {s : c.Tree} (h : Forms c w s)
    (rest : List Token) : Taken w rest False := .of_rises h.rises h.not_eof

theorem Plain.taken {w : List Token} (h : Plain w) (rest : List Token) : Taken w rest False :=
  .of_rises h.rises h.not_eof

/-- At the end of input nothing is taken. -/
theorem eq_nil_of_headKind_eof {w rest : List Token} (he : ∀ t ∈ w, t.kind ≠ .eof)
    (h : headKind (w ++ rest) = .eof) : w = [] := by
  cases w with
  | nil => rfl
  | cons t w => exact absurd h (he t (List.mem_cons_self ..))

theorem Taken.append {w v rest : List Token} {p q : Prop} (hw : Taken w (v ++ rest) p)
    (hv : Taken v rest q) : Taken (w ++ v) rest (p ∨ q) := by
  obtain ⟨hwe, hw⟩ := hw
  obtain ⟨hve, hv⟩ := hv
  refine ⟨fun t ht => (List.mem_append.1 ht).elim (hwe t) (hve t), ?_⟩
  rcases hw with hw | ⟨j, hj, hjp⟩
  · obtain rfl := eq_nil_of_headKind_eof hve hw
    exact .inl hw
  · rcases hv with hv | ⟨k, hk, hkq⟩
    · exact .inl hv
    · refine .inr ⟨j + k, hj.append hk, ?_⟩
      rw [not_or, ← hjp, ← hkq]
      omega

/-! ### Tokens that recovery skips -/

/-- A group is skipped up to the brace that closes it; at the end of input some braces may be
left open. -/
theorem skipGroup_level (inner : Nat) (ts : List Token) :
    ∃ w k, ts = w ++ skipGroup inner ts ∧ (∀ t ∈ w, t.kind ≠ .eof) ∧
      level (inner + 1) w = some k ∧ (headKind (skipGroup inner ts) = .eof ∨ k = 0) := by
  fun_induction skipGroup inner ts with
  | case1 inner => exact ⟨[], inner + 1, rfl, by simp, rfl, .inl rfl⟩
  | case2 inner t rest ht => exact ⟨[], inner + 1, rfl, by simp, rfl, .inl ht⟩
  | case3 inner t rest ht ih =>
    obtain ⟨w, k, hw, he, hl⟩ := ih
    refine ⟨t :: w, k, congrArg (t :: ·) hw, List.forall_mem_cons.2 ⟨by simp [ht], he⟩, ?_⟩
    rwa [level_cons_open ht]
  | case4 t rest ht =>
    exact ⟨[t], 0, rfl, by simp [ht], by rw [level_cons_close ht, level_nil], .inr rfl⟩
  | case5 t rest ht inner ih =>
    obtain ⟨w, k, hw, he, hl⟩ := ih
    refine ⟨t :: w, k, congrArg (t :: ·) hw, List.forall_mem_cons.2 ⟨by simp [ht], he⟩, ?_⟩
    rwa [level_cons_close ht]
  | case6 inner t rest h₁ h₂ h₃ ih =>
    obtain ⟨w, k, hw, he, hl⟩ := ih
    refine ⟨t :: w, k, congrArg (t :: ·) hw, List.forall_mem_cons.2 ⟨h₁, he⟩, ?_⟩
    have ht : t.kind ∉ outerKinds := by
      simp only [outerKinds, List.mem_cons, List.not_mem_nil, or_false, not_or]
      exact ⟨h₁, h₂, h₃⟩
    rwa [level_cons_other ht]

/-- Synchronization skips whole groups, but for one that the end of input cuts off. -/
theorem synchronize_rises (ts : List Token) :
    ∃ w k, ts = w ++ synchronize ts ∧ (∀ t ∈ w, t.kind ≠ .eof) ∧ Rises w k ∧
      (headKind (synchronize ts) = .eof ∨ k = 0) := by
  induction ts with
  | nil => exact ⟨[], 0, rfl, by simp, rfl, .inr rfl⟩
  | cons t rest ih =>
    rw [synchronize]
    split
    · split
      · exact ⟨[], 0, rfl, by simp, rfl, .inr rfl⟩
      · rename_i ht
        obtain ⟨w, k, hw, he, hl⟩ := skipGroup_level 0 rest
        refine ⟨t :: w, k, congrArg (t :: ·) hw, List.forall_mem_cons.2 ⟨by simp [ht], he⟩, ?_⟩
        rwa [Rises, level_cons_open ht]
      · rename_i hs _ h₁ h₂
        have ht : Plain [t] := by
          simp only [synchronizationKinds, plain_cons, outerKinds, List.mem_cons] at hs ⊢
          grind [plain_nil]
        exact ⟨[t], 0, rfl, ht.not_eof, ht.rises, .inr rfl⟩
    · split
      · exact ⟨[], 0, rfl, by simp, rfl, .inr rfl⟩
      · rename_i hs he
        obtain ⟨w, k, hw, hn, hk, hz⟩ := ih
        have ht : t.kind ∉ outerKinds := by
          simp only [synchronizationKinds, outerKinds, List.mem_cons] at hs ⊢
          grind
        refine ⟨t :: w, k, congrArg (t :: ·) hw, ?_, rises_cons ht hk, hz⟩
        exact List.forall_mem_cons.2 ⟨he, hn⟩

theorem synchronize_taken (ts : List Token) :
    ∃ w, ts = w ++ synchronize ts ∧ Taken w (synchronize ts) False := by
  obtain ⟨w, k, hw, hn, hk, hz⟩ := synchronize_rises ts
  exact ⟨w, hw, hn, hz.imp_right fun hz => ⟨k, hk, by simp [hz]⟩⟩

/-- Only where a sequence ends is nothing skipped. -/
theorem synchronize_length_lt {ts : List Token} (h : headKind ts ∉ [.rBrace, .eof]) :
    (synchronize ts).length < ts.length := by
  cases ts with
  | nil => simp at h
  | cons t rest =>
    simp only [headKind_cons, List.mem_cons, List.not_mem_nil, or_false, not_or] at h
    rw [synchronize]
    split
    · split
      · simp_all
      · exact Nat.lt_succ_of_le (skipGroup_length_le 0 rest)
      · simp
    · rw [if_neg h.2]
      exact Nat.lt_succ_of_le (synchronize_length_le rest)

/-- Inside a sequence, reading resumes where synchronization stops. -/
theorem resume_eq_synchronize {w rest : List Token}
    (h : headKind (w ++ rest) ∉ [.rBrace, .eof]) : resume (w ++ rest) rest = synchronize rest := by
  have hne : (synchronize rest).length ≠ (w ++ rest).length := by
    cases w with
    | nil => exact Nat.ne_of_lt (synchronize_length_lt h)
    | cons t w =>
      have := synchronize_length_le rest
      simp
      omega
  unfold resume
  dsimp only
  rw [if_neg fun hp => hne hp.1]

/-! ### Readers -/

namespace Parsed

variable {α β : Type} {n : Nat} {ts : List Token}

/-- What was read or tried is taken off the front of `ts`. -/
def Takes (p : Parsed α n) (ts : List Token) (spoiled : Prop) : Prop :=
  ∃ w, ts = w ++ p.result.2 ∧ Taken w p.result.2 spoiled

theorem Takes.congr {p : Parsed α n} {s q : Prop} (h : p.Takes ts s) (hs : s ↔ q) :
    p.Takes ts q := by
  rwa [propext hs] at h

theorem takes_of_meets {p : Parsed α n} {good : List Token → α → List Token → Prop}
    (h : p.Meets ts good Plain) (hg : ∀ w value rest, good w value rest → Taken w rest False) :
    p.Takes ts False := by
  unfold Meets at h
  unfold Takes
  split at h <;> rename_i hp <;> rw [hp] <;> obtain ⟨w, hts, hw⟩ := h
  · exact ⟨w, hts, hg w _ _ hw⟩
  · exact ⟨w, hts, hw.taken _⟩

@[simp] theorem takes_loose {p : Parsed α n} {s : Prop} : p.loose.Takes ts s ↔ p.Takes ts s := by
  simp [Takes]

@[simp] theorem takes_map {p : Parsed α n} {f : α → β} {s : Prop} :
    (p.map f).Takes ts s ↔ p.Takes ts s := by
  cases p <;> exact Iff.rfl

theorem takes_andThen {p : Parsed α n} {s : Prop} {q : α → List Token → Prop}
    {next : (value : α) → (rest : List Token) → rest.length < n → Parsed β (rest.length + 1)}
    (hp : p.Takes ts s)
    (hn : ∀ value rest h, p.Gives value rest → (next value rest h).Takes rest (q value rest)) :
    (p.andThen next).Takes ts (s ∨ ∃ value rest, p.Gives value rest ∧ q value rest) := by
  cases p with
  | failed failure rest within =>
    refine Takes.congr (s := s) hp ?_
    simp [Gives]
  | done value rest shorter =>
    obtain ⟨w, hts, hw⟩ := hp
    obtain ⟨v, hr, hv⟩ := hn value rest shorter rfl
    have hg : (done value rest shorter).Gives value rest := result_done _ _ _
    rw [Takes, result_andThen hg]
    refine ⟨w ++ v, by rw [List.append_assoc, ← hr]; exact hts, ?_⟩
    rw [result_done, hr] at hw
    refine (hw.append hv).congr (or_congr Iff.rfl ?_)
    constructor
    · intro h
      exact ⟨value, rest, rfl, h⟩
    · rintro ⟨value', rest', h, hs⟩
      simp only [Gives, result_done, Prod.mk.injEq, Except.ok.injEq] at h
      obtain ⟨rfl, rfl⟩ := h
      exact hs

theorem takes_chain {p : Parsed α n} {s : Prop} {q : α → List Token → Prop}
    {next : (value : α) → (rest : List Token) → rest.length < n → Parsed β rest.length}
    (hp : p.Takes ts s)
    (hn : ∀ value rest h, p.Gives value rest → (next value rest h).Takes rest (q value rest)) :
    (p.chain next).Takes ts (s ∨ ∃ value rest, p.Gives value rest ∧ q value rest) :=
  takes_andThen hp fun value rest h hg => takes_loose.2 (hn value rest h hg)

end Parsed

end FrontEnd.Grammar
