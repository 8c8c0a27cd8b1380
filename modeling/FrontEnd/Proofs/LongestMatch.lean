import FrontEnd.Proofs.Stages

/-!
Longest matches. The operator that is cut off a text is the longest that the text starts with,
words and numbers go on as far as they can, and a punctuation character is only reported where no
operator starts. Operators can be looked up by probing the first three bytes of a text, the first
two and the first, with the same result: a probe that ends inside of a character finds nothing.
-/

set_option autoImplicit false

namespace FrontEnd

/-! ### Probes of bytes -/

namespace Text

/-- The front of a text that takes up `n` bytes. There is none if the text is shorter, or if that
many bytes end inside of a character. -/
def front? : Nat → List Char → Option (List Char)
  | 0, _ => some []
  | _ + 1, [] => none
  | n + 1, c :: cs =>
    if c.utf8Size ≤ n + 1 then (front? (n + 1 - c.utf8Size) cs).map (c :: ·) else none

theorem front?_eq_some_iff {n : Nat} {cs front : List Char} :
    front? n cs = some front ↔ front <+: cs ∧ bytes front = n := by
  fun_induction front? n cs generalizing front with
  | case1 cs =>
    constructor
    · rintro ⟨⟩
      exact ⟨List.nil_prefix, rfl⟩
    · rintro ⟨-, hb⟩
      cases front with
      | nil => rfl
      | cons c cs =>
        have hpos := c.utf8Size_pos
        rw [bytes_cons] at hb
        omega
  | case2 n => simp +contextual [List.prefix_nil]
  | case3 n c cs hc ih =>
    rw [Option.map_eq_some_iff]
    constructor
    · rintro ⟨ds, hd, rfl⟩
      obtain ⟨hp, hb⟩ := ih.1 hd
      refine ⟨List.cons_prefix_cons.2 ⟨rfl, hp⟩, ?_⟩
      rw [bytes_cons]
      omega
    · rintro ⟨hp, hb⟩
      cases front with
      | nil => simp at hb
      | cons d ds =>
        obtain ⟨rfl, hds⟩ := List.cons_prefix_cons.1 hp
        rw [bytes_cons] at hb
        exact ⟨ds, ih.2 ⟨hds, by omega⟩, rfl⟩
  | case4 n c cs hc =>
    simp only [reduceCtorEq, false_iff, not_and]
    intro hp hb
    cases front with
    | nil => simp at hb
    | cons d ds =>
      obtain ⟨rfl, -⟩ := List.cons_prefix_cons.1 hp
      rw [bytes_cons] at hb
      omega

end Text

namespace TokenKind

/-- The member of a table that the first `n` bytes of a text spell. -/
def probe? (n : Nat) (table : List TokenKind) (cs : List Char) : Option TokenKind :=
  (Text.front? n cs).bind fun front => spelled? table (String.ofList front)

/-- A probe of as many bytes as all spellings of a table have finds what stands in front. -/
theorem find?_isPrefixOf {n : Nat} {table : List TokenKind}
    (h : ∀ k ∈ table, Text.bytes k.spelling.toList = n) (cs : List Char) :
    table.find? (·.spelling.toList.isPrefixOf cs) = probe? n table cs := by
  have hp : ∀ k ∈ table, k.spelling.toList.isPrefixOf cs = true ↔
      Text.front? n cs = some k.spelling.toList := by
    intro k hk
    rw [List.isPrefixOf_iff_prefix, Text.front?_eq_some_iff, h k hk]
    simp
  rw [probe?]
  cases hf : Text.front? n cs with
  | none =>
    refine List.find?_eq_none.2 fun k hk => ?_
    rw [hp k hk, hf]
    simp
  | some front =>
    refine List.find?_congr fun k hk => ?_
    rw [Bool.eq_iff_iff, hp k hk, hf, beq_iff_eq, Option.some.injEq, String.ext_iff,
      String.toList_ofList, eq_comm]

theorem operator?_eq_probe? (cs : List Char) :
    operator? cs = ((probe? 3 tripleOperators cs).or (probe? 2 doubleOperators cs)).or
      (probe? 1 singleOperators cs) := by
  rw [operator?, operators, List.find?_append, List.find?_append,
    find?_isPrefixOf (n := 3) (by decide), find?_isPrefixOf (n := 2) (by decide),
    find?_isPrefixOf (n := 1) (by decide)]

/-- The first operator that is found is the longest. -/
theorem length_le_of_operator? {cs : List Char} {kind : TokenKind} (h : operator? cs = some kind)
    {k : TokenKind} (hk : k ∈ operators) (hp : k.spelling.toList <+: cs) :
    k.spelling.length ≤ kind.spelling.length := by
  have hsorted : operators.Pairwise fun k l => l.spelling.length ≤ k.spelling.length := by decide
  obtain ⟨-, front, back, ho, hn⟩ := List.find?_eq_some_iff_append.1 h
  rw [ho] at hk hsorted
  obtain hk | hk := List.mem_append.1 hk
  · have hfalse := hn k hk
    rw [Bool.not_eq_true', Bool.eq_false_iff, ne_eq, List.isPrefixOf_iff_prefix] at hfalse
    exact absurd hp hfalse
  · obtain rfl | hk := List.mem_cons.1 hk
    · exact Nat.le_refl _
    · exact (List.pairwise_cons.1 (List.pairwise_append.1 hsorted).2.1).1 k hk

end TokenKind

namespace Segment

/-! ### What a lexeme takes -/

/-- A letter or underscore and word characters behind it, as far as they go. -/
structure WordRun (run after : List Char) : Prop where
  start : ∃ c ∈ run.head?, isWordStart c
  inside : ∀ c ∈ run, isWordChar c
  stop : ∀ c ∈ after.head?, isWordChar c = false

/-- A token takes `run` off the text `run ++ after`, and that is as much as it can: no longer
operator starts there, and the run of a word or a number, which may be longer than its value, ends.
A whole word that is spelled like a keyword is that keyword. -/
structure Longest (kind : TokenKind) (value : String) (run after : List Char) : Prop where
  operator : kind ∈ TokenKind.operators → kind.spelling.toList = run ∧
    ∀ k ∈ TokenKind.operators, k.spelling.toList <+: run ++ after →
      k.spelling.length ≤ kind.spelling.length
  word : kind = .identifier ∨ kind ∈ TokenKind.keywords →
    WordRun run after ∧ kind.written value = run ∧
      (kind ∈ TokenKind.keywords ↔ ∃ k ∈ TokenKind.keywords, k.spelling.toList = run)
  number : kind = .integer ∨ kind = .realNumber → DigitRun run after ∧ value.toList <+: run

theorem longest_of_quoted {kind : TokenKind} (h : kind = .string ∨ kind = .character)
    (value : String) (run after : List Char) : Longest kind value run after := by
  obtain rfl | rfl := h <;>
    exact ⟨fun h => absurd h (by decide), fun h => absurd h (by decide),
      fun h => absurd h (by decide)⟩

theorem numberValue_isPrefix (seen : Bool) (cs : List Char) : numberValue seen cs <+: cs := by
  fun_induction numberValue seen cs with
  | case1 => exact List.nil_prefix
  | case2 => exact List.nil_prefix
  | case3 seen cs _ ih => exact List.cons_prefix_cons.2 ⟨rfl, ih⟩
  | case4 seen c cs _ ih => exact List.cons_prefix_cons.2 ⟨rfl, ih⟩

theorem cut_wordRun {c : Char} {cs : List Char} (h : isWordStart c) :
    WordRun (c :: cs.takeWhile isWordChar) (cs.dropWhile isWordChar) := by
  have hc : isWordChar c := by simp [isWordChar, h]
  refine ⟨⟨c, rfl, h⟩, List.forall_mem_cons.2 ⟨hc, List.all_eq_true.1 List.all_takeWhile⟩, ?_⟩
  intro d hd
  have hn := List.head?_dropWhile_not isWordChar cs
  rw [Option.mem_def.1 hd] at hn
  simpa using hn

theorem longest_ofWord {run after : List Char} (h : WordRun run after) {kind : TokenKind}
    {value : String} (hr : (ofWord run).role = .lexeme kind value) :
    Longest kind value run after := by
  have hkeyword : ∀ k ∈ TokenKind.keywords,
      k ∉ TokenKind.operators ∧ k ≠ .integer ∧ k ≠ .realNumber := by decide
  unfold ofWord at hr
  dsimp only at hr
  split at hr
  · rename_i k hk
    rw [TokenKind.keyword?, TokenKind.spelled?] at hk
    cases hr
    have hm : kind ∈ TokenKind.keywords := List.mem_of_find?_eq_some hk
    have hs : kind.spelling = String.ofList run := by simpa using List.find?_some hk
    have hw : kind.spelling.toList = run := by rw [hs, String.toList_ofList]
    obtain ⟨ho, hi, hreal⟩ := hkeyword kind hm
    refine ⟨fun hx => absurd hx ho, fun _ => ⟨h, ?_, ?_⟩, ?_⟩
    · rw [TokenKind.written_eq_spelling (.inr hm), hw]
    · exact iff_of_true hm ⟨kind, hm, hw⟩
    · exact fun hx => (hx.elim hi hreal).elim
  · rename_i hk
    rw [TokenKind.keyword?, TokenKind.spelled?, List.find?_eq_none] at hk
    cases hr
    refine ⟨fun hx => absurd hx (by decide), fun _ => ⟨h, ?_, ?_⟩, ?_⟩
    · simp [TokenKind.written]
    · refine iff_of_false (by decide) ?_
      rintro ⟨k, hm, rfl⟩
      exact hk k hm (by simp)
    · exact fun hx => absurd hx (by decide)

theorem longest_ofNumber {run after : List Char} (h : DigitRun run after) {kind : TokenKind}
    {value : String} (hr : (ofNumber run).role = .lexeme kind value) :
    Longest kind value run after := by
  have hkind : kind = .integer ∨ kind = .realNumber := by
    cases hr
    split
    · exact .inr rfl
    · exact .inl rfl
  have hvalue : value.toList <+: run := by
    cases hr
    rw [String.toList_ofList]
    exact numberValue_isPrefix false run
  refine ⟨fun hx => ?_, fun hx => ?_, fun _ => ⟨h, hvalue⟩⟩
  · obtain rfl | rfl := hkind <;> exact absurd hx (by decide)
  · obtain rfl | rfl := hkind <;> exact absurd hx (by decide)

theorem longest_cutOperator {c : Char} {cs : List Char} {kind : TokenKind} {value : String}
    (hr : (cutOperator c cs).1.role = .lexeme kind value) :
    Longest kind value (cutOperator c cs).1.text (cutOperator c cs).2 := by
  have hoperator : ∀ k ∈ TokenKind.operators,
      k ∉ TokenKind.keywords ∧ k ≠ .identifier ∧ k ≠ .integer ∧ k ≠ .realNumber := by decide
  have happend := cutOperator_append c cs
  cases ho : TokenKind.operator? (c :: cs) with
  | none =>
    rw [cutOperator, ho] at hr
    cases hr
  | some k =>
    rw [cutOperator, ho] at hr happend ⊢
    cases hr
    obtain ⟨hkeyword, hw, hi, hreal⟩ := hoperator kind (List.mem_of_find?_eq_some ho)
    refine ⟨fun _ => ⟨rfl, fun k hk hp => ?_⟩, fun hx => (hx.elim hw hkeyword).elim,
      fun hx => (hx.elim hi hreal).elim⟩
    rw [happend] at hp
    exact TokenKind.length_le_of_operator? ho hk hp

theorem role_cutComment (cs : List Char) (kind : TokenKind) (value : String) :
    (cutComment cs).1.role ≠ .lexeme kind value := by
  rw [cutComment]
  split <;> simp [unterminated]

theorem kind_of_cutString {cs : List Char} {kind : TokenKind} {value : String}
    (hr : (cutString cs).1.role = .lexeme kind value) : kind = .string := by
  rw [cutString] at hr
  split at hr <;> cases hr
  rfl

theorem kind_of_cutCharacter {cs : List Char} {kind : TokenKind} {value : String}
    (hr : (cutCharacter cs).1.role = .lexeme kind value) : kind = .character := by
  rw [cutCharacter] at hr
  split at hr
  · cases hr
  · cases hr
  · dsimp only at hr
    split at hr
    · cases hr
      rfl
    · split at hr <;> cases hr
      rfl

/-- The token of a first segment takes as much as it can. -/
theorem longest_cut {c : Char} {cs : List Char} {kind : TokenKind} {value : String}
    (hr : (cut c cs).1.role = .lexeme kind value) :
    Longest kind value (cut c cs).1.text (cut c cs).2 := by
  have hdigits := cut_digitRun c cs
  revert hr hdigits
  fun_cases cut c cs with
  | case1 | case2 =>
    intro hr
    cases hr
  | case3 => exact fun hr _ => absurd hr (role_cutComment _ _ _)
  | case4 => exact fun hr _ => longest_of_quoted (.inl (kind_of_cutString hr)) _ _ _
  | case5 => exact fun hr _ => longest_of_quoted (.inr (kind_of_cutCharacter hr)) _ _ _
  | case6 _ _ _ _ _ hd => exact fun hr hdigits => longest_ofNumber (hdigits ⟨c, rfl, hd⟩) hr
  | case7 _ _ _ _ _ _ hw =>
    intro hr _
    rw [cutRun, ofWord_text]
    exact longest_ofWord (cut_wordRun hw) hr
  | case8 => exact fun hr _ => longest_cutOperator hr

/-! ### Where no operator starts -/

section

variable {c d : Char} {cs : List Char} {f : Fault}

theorem cause_cutComment (hf : f ∈ (cutComment cs).1.faults) : f.cause = .unexpectedEndOfFile := by
  rw [cutComment] at hf
  split at hf
  · cases hf
  · obtain rfl := List.mem_singleton.1 hf
    rfl

theorem cause_cutString (hf : f ∈ (cutString cs).1.faults) : f.cause = .unexpectedEndOfFile := by
  rw [cutString] at hf
  split at hf
  · cases hf
  · obtain rfl := List.mem_singleton.1 hf
    rfl

theorem cause_cutCharacter (hf : f ∈ (cutCharacter cs).1.faults) :
    f.cause = .unexpectedEndOfFile ∨ ∃ found, f.cause = .malformedCharacter found := by
  rw [cutCharacter] at hf
  split at hf
  · obtain rfl := List.mem_singleton.1 hf
    exact .inl rfl
  · obtain rfl := List.mem_singleton.1 hf
    exact .inl rfl
  · dsimp only at hf
    split at hf
    · cases hf
    · split at hf
      · obtain hf | hf := List.mem_append.1 hf
        · obtain rfl := List.mem_singleton.1 hf
          exact .inr ⟨_, rfl⟩
        · obtain rfl := List.mem_singleton.1 hf
          exact .inl rfl
      · obtain rfl := List.mem_singleton.1 hf
        exact .inr ⟨_, rfl⟩

theorem unknownOperator_cutOperator (hf : f ∈ (cutOperator c cs).1.faults)
    (hd : f.cause = .unknownOperator d) :
    f.offset = 0 ∧ d = c ∧ ∀ k ∈ TokenKind.operators, ¬ k.spelling.toList <+: c :: cs := by
  cases ho : TokenKind.operator? (c :: cs) with
  | some k =>
    rw [cutOperator, ho] at hf
    cases hf
  | none =>
    rw [cutOperator, ho] at hf
    obtain rfl := List.mem_singleton.1 hf
    refine ⟨rfl, ?_, fun k hk => ?_⟩
    · dsimp only at hd
      split at hd <;> cases hd
      rfl
    · simpa using List.find?_eq_none.1 ho k hk

/-- A punctuation character is only reported at the start of a first segment, and where no operator
starts. -/
theorem unknownOperator_cut (hf : f ∈ (cut c cs).1.faults) (hd : f.cause = .unknownOperator d) :
    f.offset = 0 ∧ d = c ∧ ∀ k ∈ TokenKind.operators, ¬ k.spelling.toList <+: c :: cs := by
  revert hf
  fun_cases cut c cs with
  | case1 | case2 =>
    intro hf
    cases hf
  | case3 =>
    intro hf
    rw [cause_cutComment hf] at hd
    cases hd
  | case4 =>
    intro hf
    rw [cause_cutString hf] at hd
    cases hd
  | case5 =>
    intro hf
    obtain hcause | ⟨found, hcause⟩ := cause_cutCharacter hf <;>
    · rw [hcause] at hd
      cases hd
  | case6 =>
    intro hf
    obtain ⟨offset, -, rfl⟩ := List.mem_map.1 hf
    cases hd
  | case7 =>
    intro hf
    rw [cutRun, ofWord_faults] at hf
    cases hf
  | case8 => exact fun hf => unknownOperator_cutOperator hf hd

end

end Segment

namespace Scan

/-- Every token of a scan but the end token is pushed by a step of the scan, which takes as much as
it can from where the token stands. A punctuation character is only reported as an unknown operator
where a step finds that no operator starts. Operators are found by probing bytes, also in front of
the end of the text and of characters of several bytes. -/
theorem ofSource_longest (source : Source) :
    (∀ t ∈ (ofSource source).tokens, t = (ofSource source).endToken ∨
      ∃ s s' : Stage, (Stage.start source).Leads s ∧ s.next? = some s' ∧
        t.position = ⟨.behind s.behind, source.name⟩ ∧ s'.tokens = s.tokens ++ [t] ∧
        ∃ run, s'.behind = s.behind ++ run ∧ s.ahead = run ++ s'.ahead ∧
          Segment.Longest t.kind t.value run s'.ahead) ∧
    (∀ d ∈ (ofSource source).diagnostics, ∀ c, d.cause = .unknownOperator c →
      ∃ s s' : Stage, (Stage.start source).Leads s ∧ s.next? = some s' ∧
        d.position = ⟨.behind s.behind, source.name⟩ ∧ s.ahead.head? = some c ∧
        ∀ k ∈ TokenKind.operators, ¬ k.spelling.toList <+: s.ahead) ∧
    ∀ cs, TokenKind.operator? cs
      = ((TokenKind.probe? 3 TokenKind.tripleOperators cs).or
          (TokenKind.probe? 2 TokenKind.doubleOperators cs)).or
        (TokenKind.probe? 1 TokenKind.singleOperators cs) := by
  obtain ⟨last, hl, hn⟩ := Stage.exists_last (.start source)
  have hlast := Stage.halfway_of_leads hl
  have ha := hlast.ahead_of_none hn
  refine ⟨fun t ht => ?_, fun d hd c hc => ?_, TokenKind.operator?_eq_probe?⟩
  · rw [hlast.tokens_of_nil ha] at ht
    obtain ht | ht := List.mem_append.1 ht
    · obtain ⟨s, s', c, cs, hs, hn, ha, hcuts, htoken⟩ := Stage.exists_of_mem_tokens hl ht
      obtain ⟨hr, hp⟩ := Segment.token?_eq_some htoken
      refine .inr ⟨s, s', hs, hn, ?_, ?_, _, hcuts.behind, ?_, ?_⟩
      · rw [hp, ← (Stage.halfway_of_leads hs).position]
        rfl
      · rw [hcuts.tokens, htoken, Option.toList_some]
      · rw [ha, hcuts.ahead, Segment.cut_append]
      · rw [hcuts.ahead]
        exact Segment.longest_cut hr
    · exact .inl (List.mem_singleton.1 ht)
  · rw [hlast.diagnostics_of_nil ha] at hd
    obtain ⟨s, s', c', cs, hs, hn, ha, hcuts, f, hf, rfl⟩ := Stage.exists_of_mem_diagnostics hl hd
    obtain ⟨ho, rfl, hnone⟩ := Segment.unknownOperator_cut hf hc
    refine ⟨s, s', hs, hn, ?_, by rw [ha, List.head?_cons], by rwa [ha]⟩
    rw [← (Stage.halfway_of_leads hs).position, ho]
    rfl

/-- A probe of three bytes ends inside of the character behind the shift. -/
theorem ofSource_longest_shift :
    ⟨.bitwiseShiftLeft, "", ⟨⟨1, 1⟩, "t"⟩⟩ ∈ (ofSource ⟨"t", "<<é@"⟩).tokens ∧
      ⟨.unknownOperator '@', ⟨⟨1, 5⟩, "t"⟩⟩ ∈ (ofSource ⟨"t", "<<é@"⟩).diagnostics ∧
      (∃ s : Stage, (Stage.start ⟨"t", "<<é@"⟩).Leads s ∧
        ∃ run after, s.ahead = run ++ after ∧
          Segment.Longest .bitwiseShiftLeft "" run after) ∧
      ∃ s : Stage, (Stage.start ⟨"t", "<<é@"⟩).Leads s ∧ s.ahead.head? = some '@' ∧
        ∀ k ∈ TokenKind.operators, ¬ k.spelling.toList <+: s.ahead := by
  have ht : ⟨.bitwiseShiftLeft, "", ⟨⟨1, 1⟩, "t"⟩⟩ ∈ (ofSource ⟨"t", "<<é@"⟩).tokens := by
    decide +kernel
  have hd : ⟨.unknownOperator '@', ⟨⟨1, 5⟩, "t"⟩⟩ ∈ (ofSource ⟨"t", "<<é@"⟩).diagnostics := by
    decide +kernel
  obtain ⟨htokens, hdiagnostics, -⟩ := ofSource_longest ⟨"t", "<<é@"⟩
  obtain hstop | ⟨s, s', hs, -, -, -, run, -, ha, hrun⟩ := htokens _ ht
  · exact absurd (congrArg Token.kind hstop) (by decide)
  obtain ⟨u, -, hu, -, -, hhead, hnone⟩ := hdiagnostics _ hd '@' rfl
  exact ⟨ht, hd, ⟨s, hs, run, s'.ahead, ha, hrun⟩, u, hu, hhead, hnone⟩

end Scan

end FrontEnd
