import FrontEnd.Grammar.Session
import FrontEnd.Proofs.Block.Braces
import FrontEnd.Proofs.Parallel.Clause
import Mathlib.Order.Bounds.Defs

/-!
Where recovery stops. From the cursor on, the first token at which recovery can stop decides: it is
left where it is, or skipped, or skipped together with the shortest balanced run of tokens that it
opens. Nothing changes but the cursor and the log, and the braces of a group can be counted without
ever counting below zero.
-/

set_option autoImplicit false

namespace FrontEnd.Grammar

/-! ### Indices -/

/-- The kind of the token with an index; behind the last token is the end of input. -/
def kindAt (tokens : List Token) (i : Nat) : TokenKind := headKind (tokens.drop i)

/-- The tokens from `i` up to `j` stand before the end of input and close the braces that they open,
and no others. -/
def Balanced (tokens : List Token) (i j : Nat) : Prop :=
  ∃ w rest, tokens.drop i = w ++ rest ∧ j = i + w.length ∧ w ≠ [] ∧
    (∀ t ∈ w, t.kind ≠ .eof) ∧ Rises w 0

section

variable {tokens w rest : List Token} {i : Nat}

theorem drop_of_split (h : tokens.drop i = w ++ rest) : tokens.drop (i + w.length) = rest := by
  rw [← List.drop_drop, h, List.drop_left]

theorem le_length_of_split (hi : i ≤ tokens.length) (h : tokens.drop i = w ++ rest) :
    i + w.length ≤ tokens.length := by
  have hl := congrArg List.length h
  rw [List.length_drop, List.length_append] at hl
  omega

/-- The first index from `i` on with a kind of token that is not among the tokens `w` there. -/
theorem isLeast_of_split {p : TokenKind → Prop} (h : tokens.drop i = w ++ rest)
    (hw : ∀ t ∈ w, ¬ p t.kind) (hrest : p (headKind rest)) :
    IsLeast {j | i ≤ j ∧ p (kindAt tokens j)} (i + w.length) := by
  constructor
  · refine ⟨Nat.le_add_right _ _, ?_⟩
    rwa [kindAt, drop_of_split h]
  · rintro j ⟨hle, hj⟩
    refine Nat.le_of_not_lt fun hlt => ?_
    obtain ⟨n, rfl⟩ := Nat.exists_eq_add_of_le hle
    have hn : n < w.length := by omega
    rw [kindAt, ← List.drop_drop, h, List.drop_append_of_le_length (Nat.le_of_lt hn),
      List.drop_eq_getElem_cons hn, List.cons_append, headKind_cons] at hj
    exact hw _ (List.getElem_mem hn) hj

end

/-! ### Groups -/

/-- Skips a group from its opening brace on, with `depth` of its braces open so far. A closing brace
with none open counts below zero, and then there is no result. -/
def countGroup (depth : Nat) : List Token → Option (List Token)
  | [] => some []
  | t :: rest =>
    match t.kind with
    | .eof => some (t :: rest)
    | .lBrace => countGroup (depth + 1) rest
    | .rBrace =>
      match depth with
      | 0 => none
      | 1 => some rest
      | depth + 2 => countGroup (depth + 1) rest
    | _ => countGroup depth rest

theorem countGroup_succ (inner : Nat) (ts : List Token) :
    countGroup (inner + 1) ts = some (skipGroup inner ts) := by
  fun_induction skipGroup inner ts with
  | case1 => rfl
  | case2 inner t rest ht => simp [countGroup, ht]
  | case3 inner t rest ht ih => simpa [countGroup, ht] using ih
  | case4 t rest ht => simp [countGroup, ht]
  | case5 t rest ht inner ih => simpa [countGroup, ht] using ih
  | case6 inner t rest h₁ h₂ h₃ ih => simpa [countGroup] using ih

theorem countGroup_of_brace {t : Token} (ht : t.kind = .lBrace) (rest : List Token) :
    countGroup 0 (t :: rest) = some (skipGroup 0 rest) := by
  simpa [countGroup, ht] using countGroup_succ 0 rest

/-- As long as the skipping of a group goes on, a brace is open. -/
theorem level_of_skipGroup {inner : Nat} {ts v u : List Token} (h : ts = v ++ u)
    (hl : (skipGroup inner ts).length < u.length) : ∃ k, level (inner + 1) v = some (k + 1) := by
  induction v generalizing inner ts with
  | nil => exact ⟨inner, rfl⟩
  | cons t v ih =>
    subst h
    have hle : u.length ≤ (v ++ u).length := by simp
    rw [List.cons_append] at hl
    rw [skipGroup.eq_def] at hl
    dsimp only at hl
    split at hl
    · rw [List.length_cons] at hl
      omega
    · rename_i ht
      rw [level_cons_open ht]
      exact ih rfl hl
    · rename_i ht
      rw [level_cons_close ht]
      cases inner with
      | zero => exact absurd hl (Nat.not_lt.2 hle)
      | succ inner => exact ih rfl hl
    · rename_i h₁ h₂ h₃
      have ht : t.kind ∉ outerKinds := by
        simp only [outerKinds, List.mem_cons, List.not_mem_nil, or_false, not_or]
        exact ⟨h₁, h₂, h₃⟩
      rw [level_cons_other ht]
      exact ih rfl hl

/-- A balanced run of tokens takes in all that is skipped of its group. -/
theorem Balanced.skipped {tokens w rest : List Token} {t : Token} {j e : Nat}
    (h : Balanced tokens j e) (hs : tokens.drop j = t :: rest) (ht : t.kind = .lBrace)
    (hw : rest = w ++ skipGroup 0 rest) :
    ∃ y x, skipGroup 0 rest = y ++ x ∧ e = j + (t :: w).length + y.length ∧
      (∀ u ∈ y, u.kind ≠ .eof) ∧ Rises (t :: w ++ y) 0 := by
  obtain ⟨v, x, hv, rfl, hne, hkinds, hrises⟩ := h
  have hsplit : t :: w ++ skipGroup 0 rest = v ++ x := by
    rw [← hv, hs, List.cons_append, ← hw]
  rcases List.append_eq_append_iff.1 hsplit with ⟨y, rfl, hy⟩ | ⟨y, hy, rfl⟩
  · refine ⟨y, x, hy, by rw [List.length_append, Nat.add_assoc], fun u hu => ?_, hrises⟩
    exact hkinds u (List.mem_append_right _ hu)
  · cases y with
    | nil =>
      rw [List.append_nil] at hy
      subst hy
      exact ⟨[], _, rfl, rfl, by simp, by simpa using hrises⟩
    | cons z y =>
      -- in front of the end of the group a brace is open
      obtain ⟨u, v, rfl⟩ := List.exists_cons_of_ne_nil hne
      obtain ⟨rfl, rfl⟩ := List.cons.inj hy
      have hlt : (skipGroup 0 rest).length < (z :: y ++ skipGroup 0 rest).length := by
        rw [List.length_append, List.length_cons]
        omega
      obtain ⟨k, hk⟩ := level_of_skipGroup (v := v) (by rw [← List.append_assoc]; exact hw) hlt
      have hopen := (level_cons_open ht).trans hk
      rw [hrises] at hopen
      cases hopen

/-- What is skipped of a group is its shortest balanced run, or if there is none all tokens before
the end of input. -/
theorem skipGroup_stops {tokens rest : List Token} {t : Token} {j : Nat}
    (h : tokens.drop j = t :: rest) (ht : t.kind = .lBrace) :
    ∃ n, tokens.drop (j + n) = skipGroup 0 rest ∧ (j ≤ tokens.length → j + n ≤ tokens.length) ∧
      ((∃ e, Balanced tokens j e) → IsLeast {e | Balanced tokens j e} (j + n)) ∧
      ((¬ ∃ e, Balanced tokens j e) →
        IsLeast {e | j ≤ e ∧ kindAt tokens e = .eof} (j + n)) := by
  obtain ⟨w, k, hw, hkinds, hlevel, hend⟩ := skipGroup_level 0 rest
  have hrises : Rises (t :: w) k := (level_cons_open ht).trans hlevel
  have hsplit : tokens.drop j = t :: w ++ skipGroup 0 rest := by
    rw [h, List.cons_append, ← hw]
  have heof : ∀ u ∈ t :: w, u.kind ≠ .eof := List.forall_mem_cons.2 ⟨by simp [ht], hkinds⟩
  have hclosed (hk : k = 0) : Balanced tokens j (j + (t :: w).length) :=
    ⟨t :: w, _, hsplit, rfl, by simp, heof, hk ▸ hrises⟩
  refine ⟨(t :: w).length, drop_of_split hsplit, fun hj => le_length_of_split hj hsplit, ?_, ?_⟩
  · rintro ⟨e, he⟩
    have hk : k = 0 := by
      obtain ⟨y, x, hy, -, hyeof, hyrises⟩ := he.skipped h ht hw
      refine hend.elim (fun hu => ?_) id
      rw [hy] at hu
      obtain rfl := eq_nil_of_headKind_eof hyeof hu
      rw [List.append_nil] at hyrises
      exact Option.some.inj (hrises.symm.trans hyrises)
    refine ⟨hclosed hk, fun e he => ?_⟩
    obtain ⟨y, x, -, rfl, -⟩ := Balanced.skipped he h ht hw
    exact Nat.le_add_right _ _
  · intro hn
    have hu : headKind (skipGroup 0 rest) = .eof :=
      hend.resolve_right fun hk => hn ⟨_, hclosed hk⟩
    exact isLeast_of_split (p := (· = .eof)) hsplit heof hu

/-! ### Synchronization points -/

/-- Recovery can stop at the end of input and at tokens of certain kinds. -/
def Stops (kind : TokenKind) : Prop := kind = .eof ∨ kind ∈ synchronizationKinds

theorem exists_point (ts : List Token) : ∃ w point, ts = w ++ point ∧
    (∀ t ∈ w, ¬ Stops t.kind) ∧ Stops (headKind point) ∧ synchronize ts = synchronize point := by
  induction ts with
  | nil => exact ⟨[], [], rfl, by simp, .inl rfl, rfl⟩
  | cons t ts ih =>
    by_cases ht : Stops t.kind
    · exact ⟨[], t :: ts, rfl, by simp, ht, rfl⟩
    · obtain ⟨w, point, rfl, hw, hpoint, hs⟩ := ih
      refine ⟨t :: w, point, rfl, List.forall_mem_cons.2 ⟨ht, hw⟩, hpoint, ?_⟩
      rw [synchronize, if_neg fun hk => ht (.inr hk), if_neg fun hk => ht (.inl hk), hs]

/-- Where recovery goes on, given the index `j` of its synchronization point. The end of input and a
closing brace are left where they are, of an opening brace the shortest balanced run is skipped, or
without one all tokens before the end of input, and any other point is skipped itself. -/
structure ResumesAt (tokens : List Token) (j stop : Nat) : Prop where
  left : kindAt tokens j ∈ [.eof, .rBrace] → stop = j
  skipped : kindAt tokens j ∈ [.semicolon, .comma, .lParen, .rParen] → stop = j + 1
  group : kindAt tokens j = .lBrace → (∃ e, Balanced tokens j e) →
    IsLeast {e | Balanced tokens j e} stop
  unclosed : kindAt tokens j = .lBrace → (¬ ∃ e, Balanced tokens j e) →
    IsLeast {e | j ≤ e ∧ kindAt tokens e = .eof} stop
  /-- The count of open braces never goes below zero. -/
  counted : kindAt tokens j = .lBrace →
    countGroup 0 (tokens.drop j) = some (tokens.drop stop)

section

variable {t : Token} (rest : List Token)

theorem synchronize_of_left (h : t.kind ∈ [.eof, .rBrace]) :
    synchronize (t :: rest) = t :: rest := by
  simp only [List.mem_cons, List.not_mem_nil, or_false] at h
  obtain h | h := h <;> simp [synchronize, synchronizationKinds, h]

theorem synchronize_of_skipped (h : t.kind ∈ [.semicolon, .comma, .lParen, .rParen]) :
    synchronize (t :: rest) = rest := by
  simp only [List.mem_cons, List.not_mem_nil, or_false] at h
  obtain h | h | h | h := h <;> simp [synchronize, synchronizationKinds, h]

theorem synchronize_of_brace (h : t.kind = .lBrace) :
    synchronize (t :: rest) = skipGroup 0 rest := by
  simp [synchronize, synchronizationKinds, h]

end

theorem Stops.cases {kind : TokenKind} (h : Stops kind) : kind ∈ [.eof, .rBrace] ∨
    kind ∈ [.semicolon, .comma, .lParen, .rParen] ∨ kind = .lBrace := by
  simp only [Stops, synchronizationKinds, List.mem_cons, List.not_mem_nil, or_false] at h ⊢
  grind

theorem exists_resumesAt {tokens : List Token} {j : Nat} (hj : j ≤ tokens.length)
    (hp : Stops (kindAt tokens j)) : ∃ stop, stop ≤ tokens.length ∧
      tokens.drop stop = synchronize (tokens.drop j) ∧ ResumesAt tokens j stop := by
  cases hd : tokens.drop j with
  | nil =>
    have hk : kindAt tokens j = .eof := by rw [kindAt, hd, headKind_nil]
    exact ⟨j, hj, hd, by constructor <;> simp [hk]⟩
  | cons t rest =>
    have hk : kindAt tokens j = t.kind := by rw [kindAt, hd, headKind_cons]
    rw [hk] at hp
    rcases hp.cases with ht | ht | ht
    · refine ⟨j, hj, by rw [hd, synchronize_of_left rest ht], ?_⟩
      simp only [List.mem_cons, List.not_mem_nil, or_false] at ht
      obtain ht | ht := ht <;> constructor <;> simp [hk, ht]
    · refine ⟨j + 1, le_length_of_split (w := [t]) hj hd, ?_, ?_⟩
      · rw [synchronize_of_skipped rest ht]
        exact drop_of_split (w := [t]) hd
      · simp only [List.mem_cons, List.not_mem_nil, or_false] at ht
        obtain ht | ht | ht | ht := ht <;> constructor <;> simp [hk, ht]
    · obtain ⟨n, hn, hle, hclosed, hunclosed⟩ := skipGroup_stops hd ht
      refine ⟨j + n, hle hj, by rw [hn, synchronize_of_brace rest ht], ?_⟩
      refine ⟨by simp [hk, ht], by simp [hk, ht], fun _ => hclosed, fun _ => hunclosed, fun _ => ?_⟩
      rw [hd, hn, countGroup_of_brace ht]

namespace Session

/-- The cursor of a session stands at an index of its tokens. -/
structure At (s : Session) (pos : Nat) : Prop where
  within : pos ≤ s.tokens.length
  ahead : s.ahead = s.tokens.drop pos

theorem synchronize_eq (s : Session) : s.synchronize = { s with
    ahead := Grammar.synchronize s.ahead
    log := s.log ++ [⟨.trace, .grammar, "resynchronized at "
      ++ ((Grammar.synchronize s.ahead).head?.getD s.stop).text⟩] } := by
  simp [synchronize, absorb, Event.diagnostic?, Event.record]

/-- Recovery moves the cursor from `pos` to where the first synchronization point from there on
sends it. It changes nothing else, but for a record in the log. -/
theorem synchronize_stops {s : Session} {pos : Nat} (h : s.At pos) :
    ∃ j stop, IsLeast {i | pos ≤ i ∧ Stops (kindAt s.tokens i)} j ∧ ResumesAt s.tokens j stop ∧
      s.synchronize.At stop ∧
      s.synchronize = { s with
        ahead := s.tokens.drop stop
        log := s.log ++ [⟨.trace, .grammar, "resynchronized at "
          ++ ((s.tokens.drop stop).head?.getD s.stop).text⟩] } := by
  obtain ⟨w, point, hw, hkinds, hstops, hs⟩ := exists_point s.ahead
  have heq := s.synchronize_eq
  rw [hs] at heq
  rw [h.ahead] at hw
  have hdrop : s.tokens.drop (pos + w.length) = point := drop_of_split hw
  have hleast := isLeast_of_split hw hkinds hstops
  obtain ⟨stop, hle, hd, hresumes⟩ :=
    exists_resumesAt (le_length_of_split h.within hw) hleast.1.2
  rw [hdrop] at hd
  rw [← hd] at heq
  refine ⟨_, stop, hleast, hresumes, ?_, heq⟩
  rw [heq]
  exact ⟨hle, rfl⟩

/-- `x { { } ; } y`, and the end of input inside of a group behind it. -/
def groupTokens : List Token :=
  [⟨.identifier, "x", .null⟩, bareToken .lBrace, bareToken .lBrace, bareToken .rBrace,
    bareToken .semicolon, bareToken .rBrace, ⟨.identifier, "y", .null⟩, bareToken .lBrace,
    bareToken .eof, bareToken .rBrace]

/-- A group that is closed is skipped as a whole, and one that is not up to the end of input. -/
theorem synchronize_stops_groupTokens :
    (ofTokens groupTokens).At 0 ∧
      (∃ j, ResumesAt groupTokens j 6 ∧ (ofTokens groupTokens).synchronize.At 6) ∧
      ({ ofTokens groupTokens with ahead := groupTokens.drop 6 } : Session).At 6 ∧
      ∃ j, ResumesAt groupTokens j 8 ∧
        ({ ofTokens groupTokens with ahead := groupTokens.drop 6 } : Session).synchronize.At 8 := by
  have hstart : (ofTokens groupTokens).At 0 := ⟨by decide, rfl⟩
  have hbehind : ({ ofTokens groupTokens with ahead := groupTokens.drop 6 } : Session).At 6 :=
    ⟨by decide, rfl⟩
  have hstop {s : Session} {n stop : Nat} (hs : s.At stop) (hn : s.tokens.length = 10)
      (hl : s.ahead.length + n = 10) : stop = n := by
    have hle := hs.within
    rw [hs.ahead, List.length_drop] at hl
    omega
  obtain ⟨j, stop, -, hresumes, hat, -⟩ := synchronize_stops hstart
  obtain rfl := hstop (n := 6) hat rfl (by decide)
  obtain ⟨j', stop', -, hresumes', hat', -⟩ := synchronize_stops hbehind
  obtain rfl := hstop (n := 8) hat' rfl (by decide)
  exact ⟨hstart, ⟨j, hresumes, hat⟩, hbehind, j', hresumes', hat'⟩

end Session

end FrontEnd.Grammar
