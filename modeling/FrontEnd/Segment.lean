import FrontEnd.Diagnostic
import FrontEnd.Number.Digits
import FrontEnd.Text.Blank

/-!
Segments of a source text: blanks, comments, lexemes, characters that belong to nothing, and a
last piece that the end of the text cuts off. `cut` takes the first segment off a text, `segments`
cuts a whole text. Cutting loses nothing: the texts of the segments, joined, are the source.
-/

set_option autoImplicit false

namespace FrontEnd

/-- What a segment is for. -/
inductive Role where
  | blank
  | comment
  | lexeme (kind : TokenKind) (value : String)
  | stray
  | cutOff
deriving DecidableEq, Repr

/-- Something wrong inside a segment, behind its first `offset` characters. -/
structure Fault where
  offset : Nat
  cause : Cause
deriving DecidableEq, Repr

structure Segment where
  text : List Char
  role : Role
  faults : List Fault
deriving DecidableEq, Repr

namespace Segment

/-! ### Classes of characters -/

def isNumberChar (c : Char) : Bool := Number.isDigit c || c = '.'

def isWordStart (c : Char) : Bool :=
  ('a' ≤ c && c ≤ 'z') || ('A' ≤ c && c ≤ 'Z') || c = '_'

def isWordChar (c : Char) : Bool := isWordStart c || Number.isDigit c

/-- The printable characters of ASCII that are neither letters nor digits nor the space. -/
def isPunctuation (c : Char) : Bool :=
  ('!' ≤ c && c ≤ '/') || (':' ≤ c && c ≤ '@') || ('[' ≤ c && c ≤ '\x60')
    || ('\x7b' ≤ c && c ≤ '~')

/-! ### Where a construct closes -/

/-- Splits behind the first star and slash. -/
def closeComment : List Char → Option (List Char × List Char)
  | [] => none
  | '*' :: '/' :: rest => some (['*', '/'], rest)
  | c :: cs => (closeComment cs).map fun (body, rest) => (c :: body, rest)

/-- Splits at the first double quote that no backslash escapes, and drops that quote. -/
def closeString (escaped : Bool) : List Char → Option (List Char × List Char)
  | [] => none
  | c :: cs =>
    if c = '"' && !escaped then some ([], cs)
    else (closeString (c = '\\' && !escaped) cs).map fun (body, rest) => (c :: body, rest)

/-- Splits behind the first single quote. -/
def closeQuote : List Char → Option (List Char × List Char)
  | [] => none
  | c :: cs =>
    if c = '\'' then some (['\''], cs)
    else (closeQuote cs).map fun (body, rest) => (c :: body, rest)

/-! ### One segment -/

/-- A construct that the end of the text leaves open, with what was wrong before. -/
def unterminated (text : List Char) (before : List Fault) : Segment × List Char :=
  (⟨text, .cutOff, before ++ [⟨text.length, .unexpectedEndOfFile⟩]⟩, [])

/-- What stands between the quotes: one character, or a backslash and the character behind it. -/
def characterBody : List Char → Option (List Char × List Char)
  | [] => none
  | '\\' :: [] => none
  | '\\' :: c :: cs => some (['\\', c], cs)
  | c :: cs => some ([c], cs)

/-- A character literal, behind its opening quote. A literal that goes on where it should close is
reported and skipped to the next quote; it keeps its first character. -/
def cutCharacter (cs : List Char) : Segment × List Char :=
  match characterBody cs with
  | none => unterminated ('\'' :: cs) []
  | some (_, []) => unterminated ('\'' :: cs) []
  | some (body, c :: rest) =>
    let role := Role.lexeme .character (String.ofList body)
    if c = '\'' then (⟨'\'' :: body ++ ['\''], role, []⟩, rest)
    else
      let fault : Fault := ⟨body.length + 1, .malformedCharacter c⟩
      match closeQuote rest with
      | none => unterminated ('\'' :: cs) [fault]
      | some (skipped, rest) => (⟨'\'' :: body ++ c :: skipped, role, [fault]⟩, rest)

/-- The text before the second decimal point. -/
def numberValue (seenPoint : Bool) : List Char → List Char
  | [] => []
  | c :: cs =>
    if c = '.' then if seenPoint then [] else c :: numberValue true cs
    else c :: numberValue seenPoint cs

/-- The offsets of the decimal points behind the first one. -/
def extraPoints (seenPoint : Bool) (offset : Nat) : List Char → List Nat
  | [] => []
  | c :: cs =>
    if c = '.' then
      if seenPoint then offset :: extraPoints true (offset + 1) cs
      else extraPoints true (offset + 1) cs
    else extraPoints seenPoint (offset + 1) cs

/-- The segment of a run of digits and points. -/
def ofNumber (run : List Char) : Segment :=
  let kind := if run.contains '.' then TokenKind.realNumber else .integer
  ⟨run, .lexeme kind (String.ofList (numberValue false run)),
    (extraPoints false 0 run).map (⟨·, .tooManyDecimalPoints (String.ofList run)⟩)⟩

/-- The segment of a run of letters, digits and underscores. -/
def ofWord (run : List Char) : Segment :=
  let word := String.ofList run
  match TokenKind.keyword? word with
  | some kind => ⟨run, .lexeme kind "", []⟩
  | none => ⟨run, .lexeme .identifier word, []⟩

/-- A single character that starts nothing. -/
def ofStray (c : Char) : Segment :=
  ⟨[c], .stray, [⟨0, if isPunctuation c then .unknownOperator c else .unexpectedCharacter c⟩]⟩

/-- The longest operator at the front, or one stray character. -/
def cutOperator (c : Char) (cs : List Char) : Segment × List Char :=
  match TokenKind.operator? (c :: cs) with
  | some kind => (⟨kind.spelling.toList, .lexeme kind "", []⟩,
      (c :: cs).drop kind.spelling.toList.length)
  | none => (ofStray c, cs)

/-- A block comment, behind its opening slash and star. -/
def cutComment (cs : List Char) : Segment × List Char :=
  match closeComment cs with
  | some (body, rest) => (⟨'/' :: '*' :: body, .comment, []⟩, rest)
  | none => unterminated ('/' :: '*' :: cs) []

/-- A string literal, behind its opening quote. -/
def cutString (cs : List Char) : Segment × List Char :=
  match closeString false cs with
  | some (body, rest) =>
    (⟨'"' :: body ++ ['"'], .lexeme .string (String.ofList body), []⟩, rest)
  | none => unterminated ('"' :: cs) []

/-- The segment of a run of characters behind `c`, and the text behind the run. -/
def cutRun (segment : List Char → Segment) (inRun : Char → Bool) (c : Char) (cs : List Char) :
    Segment × List Char :=
  (segment (c :: cs.takeWhile inRun), cs.dropWhile inRun)

/-- The first segment of the text `c :: cs`, and the text behind it. -/
def cut (c : Char) (cs : List Char) : Segment × List Char :=
  if Text.isBlank c then cutRun (⟨·, .blank, []⟩) Text.isBlank c cs
  else if c = '/' && cs.head? = some '/' then cutRun (⟨·, .comment, []⟩) (· ≠ '\n') c cs
  else if c = '/' && cs.head? = some '*' then cutComment cs.tail
  else if c = '"' then cutString cs
  else if c = '\'' then cutCharacter cs
  else if Number.isDigit c then cutRun ofNumber isNumberChar c cs
  else if isWordStart c then cutRun ofWord isWordChar c cs
  else cutOperator c cs

/-! ### Nothing is lost -/

theorem closeComment_append {cs body rest : List Char} (h : closeComment cs = some (body, rest)) :
    body ++ rest = cs := by
  fun_induction closeComment cs generalizing body rest with
  | case1 => simp at h
  | case2 =>
    simp only [Option.some.injEq, Prod.mk.injEq] at h
    obtain ⟨rfl, rfl⟩ := h
    simp_all
  | case3 c cs _ ih =>
    obtain ⟨⟨body', rest'⟩, hb, he⟩ := Option.map_eq_some_iff.1 h
    simp only [Prod.mk.injEq] at he
    obtain ⟨rfl, rfl⟩ := he
    simp [ih hb]

theorem closeString_append {escaped : Bool} {cs body rest : List Char}
    (h : closeString escaped cs = some (body, rest)) : body ++ '"' :: rest = cs := by
  fun_induction closeString escaped cs generalizing body rest with
  | case1 => simp at h
  | case2 => simp_all
  | case3 escaped c cs _ ih =>
    obtain ⟨⟨body', rest'⟩, hb, he⟩ := Option.map_eq_some_iff.1 h
    simp only [Prod.mk.injEq] at he
    obtain ⟨rfl, rfl⟩ := he
    simp [ih hb]

theorem closeQuote_append {cs body rest : List Char} (h : closeQuote cs = some (body, rest)) :
    body ++ rest = cs := by
  fun_induction closeQuote cs generalizing body rest with
  | case1 => simp at h
  | case2 =>
    simp only [Option.some.injEq, Prod.mk.injEq] at h
    obtain ⟨rfl, rfl⟩ := h
    simp_all
  | case3 c cs _ ih =>
    obtain ⟨⟨body', rest'⟩, hb, he⟩ := Option.map_eq_some_iff.1 h
    simp only [Prod.mk.injEq] at he
    obtain ⟨rfl, rfl⟩ := he
    simp [ih hb]

theorem characterBody_append {cs body rest : List Char}
    (h : characterBody cs = some (body, rest)) : body ++ rest = cs := by
  fun_cases characterBody cs with
  | case1 => simp [characterBody] at h
  | case2 => simp [characterBody] at h
  | case3 c cs =>
    simp only [characterBody, Option.some.injEq, Prod.mk.injEq] at h
    obtain ⟨rfl, rfl⟩ := h
    rfl
  | case4 c cs h₁ h₂ =>
    simp only [characterBody, Option.some.injEq, Prod.mk.injEq] at h
    obtain ⟨rfl, rfl⟩ := h
    rfl

theorem cutCharacter_append (cs : List Char) :
    (cutCharacter cs).1.text ++ (cutCharacter cs).2 = '\'' :: cs := by
  rw [cutCharacter]
  split
  · simp [unterminated]
  · simp [unterminated]
  · rename_i body c rest h
    have hb := characterBody_append h
    dsimp only
    split
    · simp_all
    · split
      · simp [unterminated]
      · rename_i hq
        have hs := closeQuote_append hq
        simp [hs, hb]

theorem operator?_isPrefix {cs : List Char} {kind : TokenKind}
    (h : TokenKind.operator? cs = some kind) : kind.spelling.toList <+: cs := by
  simpa using List.find?_some h

theorem cutOperator_append (c : Char) (cs : List Char) :
    (cutOperator c cs).1.text ++ (cutOperator c cs).2 = c :: cs := by
  rw [cutOperator]
  split
  · rename_i kind h
    exact List.prefix_iff_eq_append.1 (operator?_isPrefix h)
  · simp [ofStray]

theorem cutComment_append (cs : List Char) :
    (cutComment cs).1.text ++ (cutComment cs).2 = '/' :: '*' :: cs := by
  rw [cutComment]
  split
  · rename_i h
    simp [closeComment_append h]
  · simp [unterminated]

theorem cutString_append (cs : List Char) :
    (cutString cs).1.text ++ (cutString cs).2 = '"' :: cs := by
  rw [cutString]
  split
  · rename_i h
    simp [closeString_append h]
  · simp [unterminated]

theorem cutRun_append {segment : List Char → Segment} (hs : ∀ run, (segment run).text = run)
    (inRun : Char → Bool) (c : Char) (cs : List Char) :
    (cutRun segment inRun c cs).1.text ++ (cutRun segment inRun c cs).2 = c :: cs := by
  simp [cutRun, hs]

theorem ofWord_text (run : List Char) : (ofWord run).text = run := by
  unfold ofWord
  dsimp only
  split <;> rfl

/-- A segment and the text behind it are the text that was cut. -/
theorem cut_append (c : Char) (cs : List Char) : (cut c cs).1.text ++ (cut c cs).2 = c :: cs := by
  unfold cut
  split
  · exact cutRun_append (fun _ => rfl) _ c cs
  · split
    · exact cutRun_append (fun _ => rfl) _ c cs
    · split
      · rename_i h
        cases cs with
        | nil => simp at h
        | cons d ds =>
          simp only [List.head?_cons, Bool.and_eq_true, decide_eq_true_eq, Option.some.injEq] at h
          simp [cutComment_append, h]
      · split
        · simp_all [cutString_append]
        · split
          · simp_all [cutCharacter_append]
          · split
            · exact cutRun_append (fun _ => rfl) _ c cs
            · split
              · exact cutRun_append ofWord_text _ c cs
              · exact cutOperator_append c cs

theorem spelling_ne_nil_of_mem_operators {kind : TokenKind} (h : kind ∈ TokenKind.operators) :
    kind.spelling.toList ≠ [] := by
  revert h
  cases kind <;> decide

/-- No segment is empty. -/
theorem cut_text_ne_nil (c : Char) (cs : List Char) : (cut c cs).1.text ≠ [] := by
  unfold cut cutRun cutComment cutString cutCharacter cutOperator
  repeat' split
  all_goals first
    | exact spelling_ne_nil_of_mem_operators (List.mem_of_find?_eq_some (by assumption))
    | simp [unterminated, ofStray, ofNumber, ofWord_text]

theorem cut_length_le (c : Char) (cs : List Char) : (cut c cs).2.length ≤ cs.length := by
  have h := congrArg List.length (cut_append c cs)
  have hn := List.length_pos_iff.2 (cut_text_ne_nil c cs)
  simp only [List.length_append, List.length_cons] at h
  omega

/-! ### The whole text -/

/-- The segments of a text, in order. -/
def segments : List Char → List Segment
  | [] => []
  | c :: cs => (cut c cs).1 :: segments (cut c cs).2
termination_by cs => cs.length
decreasing_by
  have := cut_length_le c cs
  simp only [List.length_cons]
  omega

/-- The segments, joined, are the text. -/
theorem flatMap_segments (cs : List Char) : (segments cs).flatMap (·.text) = cs := by
  fun_induction segments cs with
  | case1 => rfl
  | case2 c cs ih => rw [List.flatMap_cons, ih, cut_append]

end Segment

end FrontEnd
