import FrontEnd.Segment

/-!
What the segments of a text are, said without the functions that cut it: the insides of comments
and literals, the tokens that can be written, and the eight forms of a segment. Every segment that
is cut off a text has one of these forms.
-/

set_option autoImplicit false

namespace FrontEnd

/-- The text of a token: a fixed spelling, the value itself, or the value in quotes. -/
def TokenKind.written (kind : TokenKind) (value : String) : List Char :=
  match kind with
  | .identifier | .integer | .realNumber => value.toList
  | .string => '"' :: value.toList ++ ['"']
  | .character => '\'' :: value.toList ++ ['\'']
  | kind => kind.spelling.toList

theorem TokenKind.written_eq_spelling {kind : TokenKind} (h : kind ∈ operators ∨ kind ∈ keywords)
    (value : String) : kind.written value = kind.spelling.toList := by
  cases kind <;> first | rfl | exact absurd h (by decide)

namespace Segment

/-- A run of characters of a class ends in front of the first character that is not of it. -/
theorem run_append {p : Char → Bool} {run rest : List Char} (h : ∀ c ∈ run, p c)
    (hr : ∀ c ∈ rest.head?, p c = false) :
    (run ++ rest).takeWhile p = run ∧ (run ++ rest).dropWhile p = rest := by
  rw [List.takeWhile_append_of_pos h, List.dropWhile_append_of_pos h]
  cases rest with
  | nil => simp
  | cons c rest => simp [hr c rfl]

/-! ### The inside of a block comment -/

/-- Whether a star and a slash stand side by side in a text. -/
def Closes (cs : List Char) : Prop := ['*', '/'] <:+: cs

theorem closeComment_eq_some {cs body rest : List Char}
    (h : closeComment cs = some (body, rest)) :
    ∃ inside, body = inside ++ ['*', '/'] ∧ ¬ Closes inside := by
  fun_induction closeComment cs generalizing body rest with
  | case1 => simp at h
  | case2 =>
    simp only [Option.some.injEq, Prod.mk.injEq] at h
    obtain ⟨rfl, rfl⟩ := h
    exact ⟨[], rfl, by simp [Closes]⟩
  | case3 c cs hc ih =>
    obtain ⟨⟨body', rest'⟩, hb, he⟩ := Option.map_eq_some_iff.1 h
    simp only [Prod.mk.injEq] at he
    obtain ⟨rfl, rfl⟩ := he
    obtain ⟨inside, rfl, hi⟩ := ih hb
    refine ⟨c :: inside, rfl, fun hx => ?_⟩
    obtain hp | hx := List.infix_cons_iff.1 hx
    · obtain ⟨rfl, hs⟩ := List.cons_prefix_cons.1 hp
      obtain ⟨ds, rfl⟩ := hs
      exact hc (ds ++ '*' :: '/' :: rest') rfl (by simp [← closeComment_append hb])
    · exact hi hx

theorem closeComment_eq_none {cs : List Char} (h : closeComment cs = none) : ¬ Closes cs := by
  fun_induction closeComment cs with
  | case1 => simp [Closes]
  | case2 => simp at h
  | case3 c cs hc ih =>
    intro hx
    obtain hp | hx := List.infix_cons_iff.1 hx
    · obtain ⟨rfl, ds, rfl⟩ := List.cons_prefix_cons.1 hp
      exact hc ds rfl rfl
    · exact ih (Option.map_eq_none_iff.1 h) hx

/-! ### The inside of a string literal -/

/-- A backslash takes the next character with it, and no other double quote stands inside. -/
inductive StringBody : List Char → Prop where
  | nil : StringBody []
  | plain {c : Char} {cs : List Char} :
    c ≠ '"' → c ≠ '\\' → StringBody cs → StringBody (c :: cs)
  | escape {c : Char} {cs : List Char} : StringBody cs → StringBody ('\\' :: c :: cs)

/-- The text that is read before the quote is an inside, together with the backslash that was
read last. -/
theorem closeString_eq_some {escaped : Bool} {cs body rest : List Char}
    (h : closeString escaped cs = some (body, rest)) :
    StringBody (if escaped then '\\' :: body else body) := by
  fun_induction closeString escaped cs generalizing body rest with
  | case1 => simp at h
  | case2 escaped c cs hq =>
    simp only [Option.some.injEq, Prod.mk.injEq] at h
    obtain ⟨rfl, rfl⟩ := h
    have he : escaped = false := by simpa using (Bool.and_eq_true_iff.1 hq).2
    simpa [he] using StringBody.nil
  | case3 escaped c cs hq ih =>
    obtain ⟨⟨body', rest'⟩, hb, he⟩ := Option.map_eq_some_iff.1 h
    simp only [Prod.mk.injEq] at he
    obtain ⟨rfl, rfl⟩ := he
    have hi := ih hb
    cases escaped with
    -- behind a backslash the flag drops at once, whatever the character is
    | true => exact .escape (by simpa using hi)
    | false =>
      by_cases hc : c = '\\'
      · simpa [hc] using hi
      · exact .plain (by simpa using hq) hc (by simpa [hc] using hi)

theorem StringBody.closeString {body : List Char} (h : StringBody body) (rest : List Char) :
    closeString false (body ++ '"' :: rest) = some (body, rest) := by
  induction h with
  | nil => simp [Segment.closeString]
  | plain hq hb _ ih => simp [Segment.closeString, hq, hb, ih]
  | escape _ ih => simp [Segment.closeString, ih]

/-! ### The inside of a character literal -/

/-- One character, or a backslash and any character. -/
inductive CharacterBody : List Char → Prop where
  | plain {c : Char} : c ≠ '\\' → CharacterBody [c]
  | escape {c : Char} : CharacterBody ['\\', c]

theorem CharacterBody.characterBody {body : List Char} (h : CharacterBody body)
    (rest : List Char) : characterBody (body ++ rest) = some (body, rest) := by
  cases h with
  | plain hc => simp [Segment.characterBody, hc]
  | escape => simp [Segment.characterBody]

theorem characterBody_eq_some {cs body rest : List Char}
    (h : characterBody cs = some (body, rest)) : CharacterBody body := by
  fun_cases characterBody cs with
  | case1 => simp [characterBody] at h
  | case2 => simp [characterBody] at h
  | case3 c cs =>
    simp only [characterBody, Option.some.injEq, Prod.mk.injEq] at h
    obtain ⟨rfl, rfl⟩ := h
    exact .escape
  | case4 c cs h₁ h₂ =>
    simp only [characterBody, Option.some.injEq, Prod.mk.injEq] at h
    obtain ⟨rfl, rfl⟩ := h
    refine .plain fun hc => ?_
    cases cs with
    | nil => exact h₁ hc rfl
    | cons d cs => exact h₂ d cs hc rfl

theorem closeQuote_eq_some {cs skipped rest : List Char}
    (h : closeQuote cs = some (skipped, rest)) :
    ∃ inside, skipped = inside ++ ['\''] ∧ '\'' ∉ inside := by
  fun_induction closeQuote cs generalizing skipped rest with
  | case1 => simp at h
  | case2 =>
    simp only [Option.some.injEq, Prod.mk.injEq] at h
    obtain ⟨rfl, rfl⟩ := h
    exact ⟨[], rfl, by simp⟩
  | case3 c cs hc ih =>
    obtain ⟨⟨skipped', rest'⟩, hs, he⟩ := Option.map_eq_some_iff.1 h
    simp only [Prod.mk.injEq] at he
    obtain ⟨rfl, rfl⟩ := he
    obtain ⟨inside, rfl, hi⟩ := ih hs
    exact ⟨c :: inside, rfl, by simp [hi, Ne.symm hc]⟩

theorem closeQuote_eq_none {cs : List Char} (h : closeQuote cs = none) : '\'' ∉ cs := by
  fun_induction closeQuote cs with
  | case1 => simp
  | case2 => simp at h
  | case3 c cs hc ih => simp [Ne.symm hc, ih (Option.map_eq_none_iff.1 h)]

/-! ### Tokens that can be written -/

/-- The kinds and values of tokens. -/
inductive Lexical : TokenKind → List Char → Prop where
  | operator {kind : TokenKind} : kind ∈ TokenKind.operators → Lexical kind []
  | keyword {kind : TokenKind} : kind ∈ TokenKind.keywords → Lexical kind []
  | identifier {c : Char} {cs : List Char} :
    isWordStart c → (∀ d ∈ cs, isWordChar d) →
    (∀ kind ∈ TokenKind.keywords, kind.spelling ≠ String.ofList (c :: cs)) →
    Lexical .identifier (c :: cs)
  | integer {c : Char} {cs : List Char} :
    (∀ d ∈ c :: cs, Number.isDigit d) → Lexical .integer (c :: cs)
  | real {c : Char} {cs fraction : List Char} :
    (∀ d ∈ c :: cs, Number.isDigit d) → (∀ d ∈ fraction, Number.isDigit d) →
    Lexical .realNumber (c :: cs ++ '.' :: fraction)
  | string {value : List Char} : StringBody value → Lexical .string value
  | character {value : List Char} : CharacterBody value → Lexical .character value

theorem Lexical.ne_eof {kind : TokenKind} {value : List Char} (h : Lexical kind value) :
    kind ≠ .eof := by
  rintro rfl
  cases h with
  | operator hk => exact absurd hk (by decide)
  | keyword hk => exact absurd hk (by decide)

/-! ### Forms of segments -/

/-- A construct that is opened and that nothing closes. -/
inductive Unterminated : List Char → Prop where
  | comment {cs : List Char} : ¬ Closes cs → Unterminated ('/' :: '*' :: cs)
  | string {cs : List Char} :
    (∀ body rest, StringBody body → cs ≠ body ++ '"' :: rest) → Unterminated ('"' :: cs)
  | character {cs : List Char} :
    (∀ body rest, CharacterBody body → cs = body ++ rest → '\'' ∉ rest) →
    Unterminated ('\'' :: cs)

/-- No construct starts with the first character of the text `c :: cs`. -/
structure StartsNothing (c : Char) (cs : List Char) : Prop where
  blank : Text.isBlank c = false
  quotes : c ≠ '"' ∧ c ≠ '\''
  digit : Number.isDigit c = false
  word : isWordStart c = false
  operator : ∀ kind ∈ TokenKind.operators, ¬ kind.spelling.toList <+: c :: cs

/-- A segment and the text behind it. A lexeme has the text of its token, unless a fault inside
says why not; the last two forms bear no token and have a fault too. -/
inductive Formed : Segment → List Char → Prop where
  | blank {text rest : List Char} :
    (∀ c ∈ text, Text.isBlank c) → Formed ⟨text, .blank, []⟩ rest
  | lineComment {inside rest : List Char} :
    '\n' ∉ inside → (∀ c ∈ rest.head?, c = '\n') → Formed ⟨'/' :: '/' :: inside, .comment, []⟩ rest
  | blockComment {inside rest : List Char} :
    ¬ Closes inside → Formed ⟨'/' :: '*' :: inside ++ ['*', '/'], .comment, []⟩ rest
  | lexeme {kind : TokenKind} {value rest : List Char} :
    Lexical kind value →
    Formed ⟨kind.written (String.ofList value), .lexeme kind (String.ofList value), []⟩ rest
  | number {value more rest : List Char} {faults : List Fault} :
    Lexical .realNumber value → (∀ c ∈ more, isNumberChar c) →
    Formed ⟨value ++ '.' :: more, .lexeme .realNumber (String.ofList value),
      ⟨value.length, .tooManyDecimalPoints (String.ofList (value ++ '.' :: more))⟩ :: faults⟩ rest
  | character {body inside rest : List Char} {c : Char} :
    CharacterBody body → c ≠ '\'' → '\'' ∉ inside →
    Formed ⟨'\'' :: body ++ c :: inside ++ ['\''], .lexeme .character (String.ofList body),
      [⟨body.length + 1, .malformedCharacter c⟩]⟩ rest
  | stray {c : Char} {rest : List Char} : StartsNothing c rest → Formed (ofStray c) rest
  | cutOff {text : List Char} (before : List Fault) :
    Unterminated text →
    Formed ⟨text, .cutOff, before ++ [⟨text.length, .unexpectedEndOfFile⟩]⟩ []

/-! ### Numbers -/

theorem ne_point_of_isDigit {c : Char} (h : Number.isDigit c) : c ≠ '.' := by
  rintro rfl
  exact absurd h (by decide)

theorem numberValue_append {ds : List Char} (hd : ∀ d ∈ ds, Number.isDigit d) (seen : Bool)
    (cs : List Char) : numberValue seen (ds ++ cs) = ds ++ numberValue seen cs := by
  induction ds with
  | nil => rfl
  | cons d ds ih =>
    obtain ⟨h, hd⟩ := List.forall_mem_cons.1 hd
    simp [numberValue, ne_point_of_isDigit h, ih hd]

theorem extraPoints_append {ds : List Char} (hd : ∀ d ∈ ds, Number.isDigit d) (seen : Bool)
    (offset : Nat) (cs : List Char) :
    extraPoints seen offset (ds ++ cs) = extraPoints seen (offset + ds.length) cs := by
  induction ds generalizing offset with
  | nil => rfl
  | cons d ds ih =>
    obtain ⟨h, hd⟩ := List.forall_mem_cons.1 hd
    simp [extraPoints, ne_point_of_isDigit h, ih hd, Nat.add_assoc, Nat.add_comm 1]

/-- Digits and points are digits only, or digits, a point and the rest. -/
theorem digits_or_point {cs : List Char} (h : ∀ c ∈ cs, isNumberChar c) :
    (∀ c ∈ cs, Number.isDigit c) ∨
      ∃ ds rest, cs = ds ++ '.' :: rest ∧ (∀ d ∈ ds, Number.isDigit d) ∧
        ∀ c ∈ rest, isNumberChar c := by
  induction cs with
  | nil => exact .inl (by simp)
  | cons c cs ih =>
    obtain ⟨hc, hcs⟩ := List.forall_mem_cons.1 h
    by_cases hp : c = '.'
    · exact .inr ⟨[], cs, by simp [hp], by simp, hcs⟩
    · have hd : Number.isDigit c := by simpa [isNumberChar, hp] using hc
      obtain hds | ⟨ds, rest, rfl, hds, hr⟩ := ih hcs
      · exact .inl (List.forall_mem_cons.2 ⟨hd, hds⟩)
      · exact .inr ⟨c :: ds, rest, rfl, List.forall_mem_cons.2 ⟨hd, hds⟩, hr⟩

theorem ofNumber_digits {ds : List Char} (hd : ∀ d ∈ ds, Number.isDigit d) :
    ofNumber ds = ⟨ds, .lexeme .integer (String.ofList ds), []⟩ := by
  have hv : numberValue false ds = ds := by
    simpa [numberValue] using numberValue_append hd false []
  have hp : extraPoints false 0 ds = [] := by
    simpa [extraPoints] using extraPoints_append hd false 0 []
  have hn : '.' ∉ ds := fun hm => ne_point_of_isDigit (hd _ hm) rfl
  simp [ofNumber, hv, hp, hn]

theorem ofNumber_point {ds fs : List Char} (hd : ∀ d ∈ ds, Number.isDigit d)
    (hf : ∀ d ∈ fs, Number.isDigit d) :
    ofNumber (ds ++ '.' :: fs)
      = ⟨ds ++ '.' :: fs, .lexeme .realNumber (String.ofList (ds ++ '.' :: fs)), []⟩ := by
  have hv : numberValue true fs = fs := by
    simpa [numberValue] using numberValue_append hf true []
  have hp (offset : Nat) : extraPoints true offset fs = [] := by
    simpa [extraPoints] using extraPoints_append hf true offset []
  simp [ofNumber, numberValue_append hd, extraPoints_append hd, numberValue, extraPoints, hv, hp]

/-- A second point ends the value and is the first fault. -/
theorem ofNumber_points {ds fs : List Char} (hd : ∀ d ∈ ds, Number.isDigit d)
    (hf : ∀ d ∈ fs, Number.isDigit d) (more : List Char) :
    ∃ faults, ofNumber (ds ++ '.' :: fs ++ '.' :: more)
      = ⟨ds ++ '.' :: fs ++ '.' :: more, .lexeme .realNumber (String.ofList (ds ++ '.' :: fs)),
          ⟨(ds ++ '.' :: fs).length,
            .tooManyDecimalPoints (String.ofList (ds ++ '.' :: fs ++ '.' :: more))⟩ :: faults⟩ := by
  have hv : numberValue false (ds ++ '.' :: fs ++ '.' :: more) = ds ++ '.' :: fs := by
    simp [numberValue_append hd, numberValue_append hf, numberValue]
  have hp : extraPoints false 0 (ds ++ '.' :: fs ++ '.' :: more)
      = (ds ++ '.' :: fs).length :: extraPoints true ((ds ++ '.' :: fs).length + 1) more := by
    simp [extraPoints_append hd, extraPoints_append hf, extraPoints, Nat.add_assoc,
      Nat.add_comm 1]
  have hm : (ds ++ '.' :: fs ++ '.' :: more).contains '.' = true := by simp
  refine ⟨(extraPoints true ((ds ++ '.' :: fs).length + 1) more).map
    (⟨·, .tooManyDecimalPoints (String.ofList (ds ++ '.' :: fs ++ '.' :: more))⟩), ?_⟩
  rw [ofNumber, hv, hp, if_pos hm, List.map_cons]

theorem ofNumber_formed {c : Char} {cs : List Char} (hc : Number.isDigit c)
    (h : ∀ d ∈ cs, isNumberChar d) (rest : List Char) : (ofNumber (c :: cs)).Formed rest := by
  obtain hd | ⟨ds, tail, rfl, hd, ht⟩ := digits_or_point h
  · have hd : ∀ d ∈ c :: cs, Number.isDigit d := List.forall_mem_cons.2 ⟨hc, hd⟩
    rw [ofNumber_digits hd]
    simpa [TokenKind.written] using Formed.lexeme (.integer hd)
  · have hd : ∀ d ∈ c :: ds, Number.isDigit d := List.forall_mem_cons.2 ⟨hc, hd⟩
    rw [← List.cons_append]
    obtain hf | ⟨fs, more, rfl, hf, hm⟩ := digits_or_point ht
    · rw [ofNumber_point hd hf]
      simpa [TokenKind.written] using Formed.lexeme (.real hd hf)
    · obtain ⟨faults, he⟩ := ofNumber_points hd hf more
      simp only [List.append_assoc, List.cons_append] at he ⊢
      rw [he]
      simpa using Formed.number (.real hd hf) hm

/-! ### Every segment has a form -/

theorem ofWord_formed {c : Char} {cs : List Char} (hc : isWordStart c)
    (h : ∀ d ∈ cs, isWordChar d) (rest : List Char) : (ofWord (c :: cs)).Formed rest := by
  unfold ofWord
  dsimp only
  split
  · rename_i kind hk
    rw [TokenKind.keyword?, TokenKind.spelled?] at hk
    have hm : kind ∈ TokenKind.keywords := List.mem_of_find?_eq_some hk
    have hs : kind.spelling = String.ofList (c :: cs) := by simpa using List.find?_some hk
    have hw : kind.written (String.ofList []) = c :: cs := by
      rw [TokenKind.written_eq_spelling (.inr hm), hs, String.toList_ofList]
    simpa [hw] using Formed.lexeme (.keyword hm)
  · rename_i hk
    have hn : ∀ kind ∈ TokenKind.keywords, kind.spelling ≠ String.ofList (c :: cs) := by
      simpa [TokenKind.keyword?, TokenKind.spelled?] using hk
    simpa [TokenKind.written] using Formed.lexeme (.identifier hc h hn)

/-- A line comment takes all before the next newline. -/
theorem lineComment_formed (cs : List Char) :
    Formed ⟨'/' :: '/' :: cs.takeWhile (· ≠ '\n'), .comment, []⟩ (cs.dropWhile (· ≠ '\n')) := by
  refine .lineComment (fun hm => ?_) fun c hc => ?_
  · simpa using List.all_eq_true.1 List.all_takeWhile _ hm
  · have hn := List.head?_dropWhile_not (· ≠ '\n') cs
    rw [Option.mem_def.1 hc] at hn
    simpa using hn

theorem cutComment_formed (cs : List Char) : (cutComment cs).1.Formed (cutComment cs).2 := by
  rw [cutComment]
  split
  · rename_i h
    obtain ⟨inside, rfl, hi⟩ := closeComment_eq_some h
    exact .blockComment hi
  · rename_i h
    exact .cutOff [] (.comment (closeComment_eq_none h))

theorem cutString_formed (cs : List Char) : (cutString cs).1.Formed (cutString cs).2 := by
  rw [cutString]
  split
  · rename_i body rest h
    simpa [TokenKind.written] using Formed.lexeme (.string (closeString_eq_some h))
  · rename_i h
    refine .cutOff [] (.string ?_)
    rintro body rest hb rfl
    rw [hb.closeString] at h
    cases h

theorem cutCharacter_formed (cs : List Char) :
    (cutCharacter cs).1.Formed (cutCharacter cs).2 := by
  rw [cutCharacter]
  split
  · rename_i h
    refine .cutOff [] (.character ?_)
    rintro body rest hb rfl
    rw [hb.characterBody] at h
    cases h
  · rename_i body h
    refine .cutOff [] (.character ?_)
    rintro body' rest hb rfl
    rw [hb.characterBody] at h
    cases h
    simp
  · rename_i body c rest h
    have hb := characterBody_eq_some h
    dsimp only
    split
    · simpa [TokenKind.written] using Formed.lexeme (.character hb)
    · rename_i hc
      split
      · rename_i hq
        -- the fault that was found before the end is kept
        refine .cutOff [_] (.character ?_)
        rintro body' rest' hb' rfl
        rw [hb'.characterBody] at h
        cases h
        simp [Ne.symm hc, closeQuote_eq_none hq]
      · rename_i hq
        obtain ⟨inside, rfl, hi⟩ := closeQuote_eq_some hq
        simpa using Formed.character hb hc hi

theorem cutOperator_formed {c : Char} {cs : List Char} (hb : Text.isBlank c = false)
    (hq : c ≠ '"' ∧ c ≠ '\'') (hd : Number.isDigit c = false) (hw : isWordStart c = false) :
    (cutOperator c cs).1.Formed (cutOperator c cs).2 := by
  rw [cutOperator]
  split
  · rename_i kind h
    have hm : kind ∈ TokenKind.operators := List.mem_of_find?_eq_some h
    have hs : kind.written (String.ofList []) = kind.spelling.toList :=
      TokenKind.written_eq_spelling (.inl hm) _
    simpa [hs] using Formed.lexeme (.operator hm)
  · rename_i h
    have hn : ∀ kind ∈ TokenKind.operators, ¬ kind.spelling.toList <+: c :: cs := by
      simpa [TokenKind.operator?] using h
    exact .stray ⟨hb, hq, hd, hw, hn⟩

/-- The first segment of a text has a form. -/
theorem cut_formed (c : Char) (cs : List Char) : (cut c cs).1.Formed (cut c cs).2 := by
  have hall (p : Char → Bool) : ∀ d ∈ cs.takeWhile p, p d = true :=
    List.all_eq_true.1 List.all_takeWhile
  fun_cases cut c cs with
  | case1 hb => exact .blank (List.forall_mem_cons.2 ⟨hb, hall _⟩)
  | case2 _ hl =>
    obtain ⟨rfl, hs⟩ : c = '/' ∧ cs.head? = some '/' := by simpa using hl
    obtain ⟨cs, rfl⟩ := List.head?_eq_some_iff.1 hs
    simpa [cutRun] using lineComment_formed cs
  | case3 => exact cutComment_formed _
  | case4 => exact cutString_formed _
  | case5 => exact cutCharacter_formed _
  | case6 _ _ _ _ _ hd => exact ofNumber_formed hd (hall _) _
  | case7 _ _ _ _ _ _ hw => exact ofWord_formed hw (hall _) _
  | case8 hb _ _ hs hq hd hw =>
    exact cutOperator_formed (by simpa using hb) ⟨hs, hq⟩ (by simpa using hd) (by simpa using hw)

/-- What holds of every first segment holds of every segment, with the segments behind it as the
text behind it. -/
theorem forall_segments {P : Segment → List Char → Prop}
    (hp : ∀ c cs, P (cut c cs).1 (cut c cs).2) {cs : List Char} {before after : List Segment}
    {s : Segment} (h : segments cs = before ++ s :: after) : P s (after.flatMap (·.text)) := by
  fun_induction segments cs generalizing before with
  | case1 => simp at h
  | case2 c cs ih =>
    cases before with
    | nil =>
      obtain ⟨rfl, rfl⟩ := List.cons.inj h
      rw [flatMap_segments]
      exact hp c cs
    | cons b before => exact ih (List.cons.inj h).2

theorem segments_formed {cs : List Char} {before after : List Segment} {s : Segment}
    (h : segments cs = before ++ s :: after) : s.Formed (after.flatMap (·.text)) :=
  forall_segments cut_formed h

theorem text_ne_nil_of_mem_segments {cs : List Char} {s : Segment} (h : s ∈ segments cs) :
    s.text ≠ [] := by
  obtain ⟨before, after, h⟩ := List.append_of_mem h
  exact forall_segments (P := fun s _ => s.text ≠ []) cut_text_ne_nil h

/-- A lexeme has the text of its token, or a fault inside. -/
theorem Formed.written {s : Segment} {rest : List Char} (h : s.Formed rest) {kind : TokenKind}
    {value : String} (hr : s.role = .lexeme kind value) :
    s.text = kind.written value ∨ ∃ f ∈ s.faults, f.offset < s.text.length := by
  cases h with
  | lexeme =>
    cases hr
    exact .inl rfl
  | number => exact .inr ⟨_, List.mem_cons_self, by simp⟩
  | character => exact .inr ⟨_, List.mem_cons_self, by simp⟩
  | blank | lineComment | blockComment | stray | cutOff => cases hr

theorem Formed.lexical {s : Segment} {rest : List Char} (h : s.Formed rest) {kind : TokenKind}
    {value : String} (hr : s.role = .lexeme kind value) : Lexical kind value.toList := by
  cases h with
  | lexeme hl =>
    cases hr
    rwa [String.toList_ofList]
  | number hl =>
    cases hr
    rwa [String.toList_ofList]
  | character hb =>
    cases hr
    rw [String.toList_ofList]
    exact .character hb
  | blank | lineComment | blockComment | stray | cutOff => cases hr

theorem Formed.kind_ne_eof {s : Segment} {rest : List Char} (h : s.Formed rest) {kind : TokenKind}
    {value : String} (hr : s.role = .lexeme kind value) : kind ≠ .eof :=
  (h.lexical hr).ne_eof

end Segment

end FrontEnd
