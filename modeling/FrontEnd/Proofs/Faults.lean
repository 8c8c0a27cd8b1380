import FrontEnd.Proofs.Layout
import FrontEnd.Proofs.Offset
import Mathlib.Data.List.Induction

/-!
The faults of a scan tell the truth. A fault stands at the character that it names, at a point of
a number that has one already, or at the end of a text that stops too early; and the faults of a
scan are reported from left to right, no two at the same place.
-/

set_option autoImplicit false

namespace FrontEnd

namespace Segment

/-! ### Runs of digits and points -/

/-- Digits and points that start with a digit and go on as far as they can. -/
structure DigitRun (run after : List Char) : Prop where
  digit : ∃ c ∈ run.head?, Number.isDigit c
  inside : ∀ c ∈ run, isNumberChar c
  stop : ∀ c ∈ after.head?, isNumberChar c = false

/-- The text ends with a letter or underscore and word characters behind it. -/
def EndsInWord (text : List Char) : Prop :=
  ∃ front c cs, text = front ++ c :: cs ∧ isWordStart c ∧ ∀ d ∈ cs, isWordChar d

/-- A run that cannot be made longer: digits in front of it from which it could start are inside
of words. -/
structure NumberRun (before run after : List Char) : Prop extends DigitRun run after where
  start : ∀ front c more, before = front ++ c :: more → Number.isDigit c →
    (∀ d ∈ more, isNumberChar d) → EndsInWord front

theorem head?_cut_text (c : Char) (cs : List Char) : (cut c cs).1.text.head? = some c := by
  obtain ⟨d, ds, ht⟩ := List.exists_cons_of_ne_nil (cut_text_ne_nil c cs)
  have ha := cut_append c cs
  rw [ht, List.cons_append] at ha
  rw [ht, (List.cons.inj ha).1]
  rfl

theorem cut_digitRun (c : Char) (cs : List Char)
    (h : ∃ d ∈ (cut c cs).1.text.head?, Number.isDigit d) :
    DigitRun (cut c cs).1.text (cut c cs).2 := by
  obtain ⟨d, hd, hc⟩ := h
  obtain rfl : c = d := by simpa [head?_cut_text] using hd
  rw [cut_digit hc]
  refine ⟨⟨c, rfl, hc⟩, ?_, ?_⟩
  · have hn : isNumberChar c := by simp [isNumberChar, hc]
    exact List.forall_mem_cons.2 ⟨hn, List.all_eq_true.1 List.all_takeWhile⟩
  · intro d hd
    have hn := List.head?_dropWhile_not isNumberChar cs
    rw [show (cs.dropWhile isNumberChar).head? = some d from hd] at hn
    simpa using hn

theorem isDigit_written {kind : TokenKind}
    (hk : kind ∈ TokenKind.operators ∨ kind ∈ TokenKind.keywords) {value : String} {c : Char}
    (h : c ∈ kind.written value) : Number.isDigit c = false := by
  have hs : ∀ kind : TokenKind, kind.spelling.toList.any Number.isDigit = false := by
    intro kind
    cases kind <;> decide
  rw [TokenKind.written_eq_spelling hk] at h
  exact Bool.eq_false_iff.2 (List.any_eq_false.1 (hs kind) c h)

/-- Of the tokens that neither start with a digit nor end with a quote, only words hold digits. -/
theorem Lexical.endsInWord {kind : TokenKind} {value front more : List Char} {c : Char}
    (h : Lexical kind value) (ht : kind.written (String.ofList value) = front ++ c :: more)
    (hc : Number.isDigit c)
    (hhead : ¬ ∃ d ∈ (kind.written (String.ofList value)).head?, Number.isDigit d)
    (hlast : ∀ d ∈ (kind.written (String.ofList value)).getLast?, isNumberChar d) :
    EndsInWord front := by
  have hmem : c ∈ kind.written (String.ofList value) := by simp [ht]
  cases h with
  | operator hk =>
    rw [isDigit_written (.inl hk) hmem] at hc
    cases hc
  | keyword hk =>
    rw [isDigit_written (.inr hk) hmem] at hc
    cases hc
  | @identifier w cs hw hcs =>
    have ht : w :: cs = front ++ c :: more := by simpa [TokenKind.written] using ht
    cases front with
    | nil =>
      obtain ⟨rfl, -⟩ := List.cons.inj ht
      rw [isDigit_of_isWordStart hw] at hc
      cases hc
    | cons w' front =>
      obtain ⟨rfl, rfl⟩ := List.cons.inj ht
      exact ⟨[], w, front, rfl, hw, fun d hd => hcs d (by simp [hd])⟩
  | @integer d cs hd => exact absurd ⟨d, by simp [TokenKind.written], hd d (by simp)⟩ hhead
  | @real d cs fraction hd =>
    exact absurd ⟨d, by simp [TokenKind.written], hd d (by simp)⟩ hhead
  | string => exact absurd (hlast '"' List.getLast?_concat) (by decide)
  | character => exact absurd (hlast '\'' List.getLast?_concat) (by decide)

/-- In front of more digits and points, a digit of a segment is inside of a word. -/
theorem Formed.endsInWord {s : Segment} {rest front more : List Char} {c : Char}
    (h : s.Formed rest) (hr : (∃ d ∈ s.text.head?, Number.isDigit d) → DigitRun s.text rest)
    (hrest : ∃ d ∈ rest.head?, isNumberChar d) (ht : s.text = front ++ c :: more)
    (hc : Number.isDigit c) (hm : ∀ d ∈ more, isNumberChar d) : EndsInWord front := by
  have hmem : c ∈ s.text := by simp [ht]
  have hlast : ∀ d ∈ s.text.getLast?, isNumberChar d := by
    have hmore : ∀ d ∈ c :: more, isNumberChar d :=
      List.forall_mem_cons.2 ⟨by simp [isNumberChar, hc], hm⟩
    intro d hd
    rw [ht, List.getLast?_append, List.getLast?_eq_some_getLast (List.cons_ne_nil c more)] at hd
    exact hmore d (Option.some.inj hd ▸ List.getLast_mem _)
  obtain ⟨d, hd, hn⟩ := hrest
  have hhead : ¬ ∃ d ∈ s.text.head?, Number.isDigit d := fun hx => by
    have hs := (hr hx).stop d hd
    rw [hn] at hs
    cases hs
  cases h with
  | blank hb =>
    have hf := isBlank_eq_false (p := Number.isDigit) (by decide) hc
    rw [hb c hmem] at hf
    cases hf
  | lineComment _ hs =>
    obtain rfl := hs d hd
    exact absurd hn (by decide)
  | blockComment => exact absurd (hlast '/' (by rw [List.getLast?_append]; rfl)) (by decide)
  | lexeme hl => exact hl.endsInWord ht hc hhead hlast
  | number hl =>
    cases hl with
    | @real d cs fraction hd => exact absurd ⟨d, by simp, hd d (by simp)⟩ hhead
    | operator hk | keyword hk => exact absurd hk (by decide)
  | character => exact absurd (hlast '\'' List.getLast?_concat) (by decide)
  | stray hs =>
    obtain rfl : c = _ := by simpa [ofStray] using hmem
    rw [hs.digit] at hc
    cases hc
  | cutOff => simp at hd

theorem EndsInWord.append {text : List Char} (h : EndsInWord text) (before : List Char) :
    EndsInWord (before ++ text) := by
  obtain ⟨front, c, cs, rfl, hw⟩ := h
  exact ⟨before ++ front, c, cs, by simp, hw⟩

theorem segments_digitRun {cs : List Char} {before after : List Segment} {s : Segment}
    (h : segments cs = before ++ s :: after) (hd : ∃ d ∈ s.text.head?, Number.isDigit d) :
    DigitRun s.text (after.flatMap (·.text)) :=
  forall_segments (P := fun s rest => (∃ d ∈ s.text.head?, Number.isDigit d) →
    DigitRun s.text rest) cut_digitRun h hd

/-- A digit from which digits and points go on across the end of a segment is inside of a word. -/
theorem endsInWord_of_segments {text front more : List Char} {c : Char} (hc : Number.isDigit c)
    (hm : ∀ d ∈ more, isNumberChar d) {before after : List Segment}
    (h : segments text = before ++ after) (hb : before.flatMap (·.text) = front ++ c :: more)
    (ha : ∃ d ∈ (after.flatMap (·.text)).head?, isNumberChar d) : EndsInWord front := by
  induction before using List.reverseRecOn generalizing more after with
  | nil => simp at hb
  | append_singleton before s ih =>
    rw [List.append_assoc, List.singleton_append] at h
    have hs := fun f (hf : s.text = f ++ c :: more) =>
      ((segments_formed h).endsInWord (segments_digitRun h) ha hf hc hm).append
        (before.flatMap (·.text))
    rw [List.flatMap_append, List.flatMap_singleton, List.append_eq_append_iff] at hb
    rcases hb with ⟨cs, rfl, ht⟩ | ⟨cs, hb, ht⟩
    · exact hs cs ht
    · cases cs with
      | nil => simpa [hb] using hs [] ht.symm
      | cons d cs =>
        -- the segment is a part of what follows the digit
        obtain ⟨rfl, rfl⟩ := List.cons.inj ht
        refine ih (fun d hd => hm d (by simp [hd])) h hb ?_
        have hmem : s ∈ segments text := by simp [h]
        obtain ⟨d, ds, hd⟩ := List.exists_cons_of_ne_nil (text_ne_nil_of_mem_segments hmem)
        exact ⟨d, by simp [hd], hm d (by simp [hd])⟩

/-! ### What a fault says -/

/-- What a fault says of the text of its segment and of the text behind it. -/
def Tells (text after : List Char) (f : Fault) : Prop :=
  match f.cause with
  | .unexpectedCharacter c | .unknownOperator c | .malformedCharacter c =>
    text[f.offset]? = some c
  | .tooManyDecimalPoints literal =>
    text[f.offset]? = some '.' ∧ '.' ∈ text.take f.offset ∧ literal.toList = text ∧
      DigitRun text after
  | .unexpectedEndOfFile => f.offset = text.length ∧ after = []
  | _ => False

/-- A fault stands inside of its segment, unless nothing follows the segment. -/
theorem Tells.offset_le {text after : List Char} {f : Fault} (h : Tells text after f) :
    f.offset ≤ text.length ∧ (after ≠ [] → f.offset < text.length) := by
  obtain ⟨offset, cause⟩ := f
  have hin {c : Char} (h : text[offset]? = some c) :
      offset ≤ text.length ∧ (after ≠ [] → offset < text.length) := by
    have hlt := (List.getElem?_eq_some_iff.1 h).1
    exact ⟨Nat.le_of_lt hlt, fun _ => hlt⟩
  cases cause with
  | unexpectedCharacter | unknownOperator | malformedCharacter => exact hin h
  | tooManyDecimalPoints => exact hin h.1
  | unexpectedEndOfFile => exact ⟨Nat.le_of_eq h.1, fun hn => absurd h.2 hn⟩
  | fileRead | unexpectedToken | expectedPrimaryExpression | invalidCallTarget | numberParseError
  | missingClosingBrace => exact h.elim

/-- All faults of a segment in front of `after` tell the truth, in order. -/
structure Truthful (s : Segment) (after : List Char) : Prop where
  tells : ∀ f ∈ s.faults, Tells s.text after f
  order : s.faults.Pairwise (·.offset < ·.offset)

theorem truthful_of_nil {s : Segment} {after : List Char} (h : s.faults = []) :
    s.Truthful after := by
  constructor <;> simp [h]

theorem truthful_of_singleton {s : Segment} {after : List Char} {f : Fault} (h : s.faults = [f])
    (hf : Tells s.text after f) : s.Truthful after := by
  constructor <;> simp [h, hf]

theorem unterminated_truthful {text : List Char} {before : List Fault}
    (h : Truthful ⟨text, .cutOff, before⟩ []) (hlt : ∀ f ∈ before, f.offset < text.length) :
    (unterminated text before).1.Truthful (unterminated text before).2 := by
  constructor
  · intro f hf
    obtain hf | hf := List.mem_append.1 hf
    · exact h.tells f hf
    · obtain rfl := List.mem_singleton.1 hf
      exact ⟨rfl, rfl⟩
  · refine List.pairwise_append.2 ⟨h.order, List.pairwise_singleton _ _, ?_⟩
    intro f hf g hg
    obtain rfl := List.mem_singleton.1 hg
    exact hlt f hf

theorem cutCharacter_truthful (cs : List Char) :
    (cutCharacter cs).1.Truthful (cutCharacter cs).2 := by
  have hopen : ∀ text, (unterminated text []).1.Truthful (unterminated text []).2 := fun text =>
    unterminated_truthful (truthful_of_nil rfl) (by simp)
  rw [cutCharacter]
  split
  · exact hopen _
  · exact hopen _
  · rename_i body c rest h
    have hb := characterBody_append h
    dsimp only
    split
    · exact truthful_of_nil rfl
    · split
      · refine unterminated_truthful (truthful_of_singleton rfl ?_) ?_
        · simp [Tells, ← hb]
        · simp [← hb]
      · exact truthful_of_singleton rfl (by simp [Tells])

/-- An extra point is a point behind another one, which may have been seen before. -/
theorem exists_of_mem_extraPoints {seen : Bool} {offset o : Nat} {cs : List Char}
    (h : o ∈ extraPoints seen offset cs) :
    ∃ i, o = offset + i ∧ cs[i]? = some '.' ∧ (seen = false → '.' ∈ cs.take i) := by
  fun_induction extraPoints seen offset cs with
  | case1 => simp at h
  | case2 offset cs ih =>
    obtain rfl | h := List.mem_cons.1 h
    · exact ⟨0, rfl, rfl, by simp⟩
    · obtain ⟨i, rfl, hi, -⟩ := ih h
      exact ⟨i + 1, by omega, hi, by simp⟩
  | case3 seen offset cs _ ih =>
    obtain ⟨i, rfl, hi, -⟩ := ih h
    exact ⟨i + 1, by omega, hi, by simp⟩
  | case4 seen offset c cs _ ih =>
    obtain ⟨i, rfl, hi, hs⟩ := ih h
    exact ⟨i + 1, by omega, hi, fun h => List.mem_cons_of_mem c (hs h)⟩

theorem pairwise_extraPoints (seen : Bool) (offset : Nat) (cs : List Char) :
    (extraPoints seen offset cs).Pairwise (· < ·) := by
  fun_induction extraPoints seen offset cs with
  | case1 => exact .nil
  | case2 offset cs ih =>
    refine List.pairwise_cons.2 ⟨fun o ho => ?_, ih⟩
    obtain ⟨i, rfl, -⟩ := exists_of_mem_extraPoints ho
    omega
  | case3 seen offset cs _ ih => exact ih
  | case4 seen offset c cs _ ih => exact ih

theorem ofNumber_truthful {run after : List Char} (h : DigitRun run after) :
    (ofNumber run).Truthful after := by
  constructor
  · intro f hf
    obtain ⟨o, ho, rfl⟩ := List.mem_map.1 hf
    obtain ⟨i, rfl, hi, hs⟩ := exists_of_mem_extraPoints ho
    rw [Nat.zero_add]
    exact ⟨hi, hs rfl, String.toList_ofList, h⟩
  · exact List.pairwise_map.2 (pairwise_extraPoints false 0 run)

theorem ofWord_faults (run : List Char) : (ofWord run).faults = [] := by
  unfold ofWord
  dsimp only
  split <;> rfl

theorem cut_truthful (c : Char) (cs : List Char) : (cut c cs).1.Truthful (cut c cs).2 := by
  have hrun := cut_digitRun c cs
  fun_cases cut c cs with
  | case1 => exact truthful_of_nil rfl
  | case2 => exact truthful_of_nil rfl
  | case3 =>
    rw [cutComment]
    split
    · exact truthful_of_nil rfl
    · exact unterminated_truthful (truthful_of_nil rfl) (by simp)
  | case4 =>
    rw [cutString]
    split
    · exact truthful_of_nil rfl
    · exact unterminated_truthful (truthful_of_nil rfl) (by simp)
  | case5 => exact cutCharacter_truthful cs
  | case6 _ _ _ _ _ hd =>
    rw [cut_digit hd] at hrun
    exact ofNumber_truthful (hrun ⟨c, rfl, hd⟩)
  | case7 => exact truthful_of_nil (ofWord_faults _)
  | case8 =>
    rw [cutOperator]
    split
    · exact truthful_of_nil rfl
    · refine truthful_of_singleton rfl ?_
      by_cases hp : isPunctuation c <;> simp [Tells, ofStray, hp]

theorem segments_truthful {cs : List Char} {before after : List Segment} {s : Segment}
    (h : segments cs = before ++ s :: after) : s.Truthful (after.flatMap (·.text)) :=
  forall_segments cut_truthful h

/-- A number with too many points is a run that cannot be made longer. -/
theorem numberRun_of_segments {text : List Char} {before after : List Segment} {s : Segment}
    (h : segments text = before ++ s :: after) (hr : DigitRun s.text (after.flatMap (·.text))) :
    NumberRun (before.flatMap (·.text)) s.text (after.flatMap (·.text)) := by
  refine ⟨hr, fun front c more hb hc hm => endsInWord_of_segments hc hm h hb ?_⟩
  obtain ⟨d, hd, -⟩ := hr.digit
  refine ⟨d, ?_, hr.inside d (List.mem_of_head? hd)⟩
  rw [List.flatMap_cons, List.head?_append, Option.mem_def.1 hd]
  rfl

/-! ### From left to right -/

/-- The places of the chosen spots of segments, each behind so many characters of its segment. -/
def spotted (spots : Segment → List Nat) (start : Place) (segments : List Segment) : List Place :=
  (locate start segments).flatMap fun (p, s) => (spots s).map fun n => p.after (s.text.take n)

theorem spotted_cons (spots : Segment → List Nat) (start : Place) (s : Segment)
    (rest : List Segment) :
    spotted spots start (s :: rest) = (spots s).map (fun n => start.after (s.text.take n))
      ++ spotted spots (start.after s.text) rest := by
  simp [spotted, locate]

theorem le_offset_of_mem_spotted {spots : Segment → List Nat} {segments : List Segment} {p : Place}
    {before : List Char} (h : p ∈ spotted spots (.behind before) segments) :
    Text.bytes before ≤ p.offset (before ++ segments.flatMap (·.text)) := by
  induction segments generalizing before with
  | nil => simp [spotted, locate] at h
  | cons s rest ih =>
    rw [spotted_cons] at h
    simp only [← Place.behind_append] at h
    obtain h | h := List.mem_append.1 h
    · obtain ⟨n, -, rfl⟩ := List.mem_map.1 h
      rw [List.flatMap_cons, Place.offset_behind_take]
      exact Nat.le_add_right _ _
    · have hb := ih h
      rw [List.append_assoc, Text.bytes_append] at hb
      exact Nat.le_of_add_right_le hb

/-- The spots of each segment are increasing and inside of it; behind the last one there may be
one at its end. -/
structure Spaced (spots : Segment → List Nat) (segments : List Segment) : Prop where
  order : ∀ s ∈ segments, (spots s).Pairwise (· < ·)
  inside : ∀ before s after, segments = before ++ s :: after → ∀ n ∈ spots s,
    n ≤ s.text.length ∧ (after ≠ [] → n < s.text.length)

theorem Spaced.of_cons {spots : Segment → List Nat} {s : Segment} {rest : List Segment}
    (h : Spaced spots (s :: rest)) : Spaced spots rest where
  order t ht := h.order t (List.mem_cons_of_mem s ht)
  inside before t after ht := h.inside (s :: before) t after (by rw [ht, List.cons_append])

theorem Spaced.pairwise {spots : Segment → List Nat} {segments : List Segment}
    (h : Spaced spots segments) (before : List Char) :
    (spotted spots (.behind before) segments).Pairwise fun p q =>
      p.offset (before ++ segments.flatMap (·.text))
        < q.offset (before ++ segments.flatMap (·.text)) := by
  induction segments generalizing before with
  | nil => exact .nil
  | cons s rest ih =>
    have hrest := ih h.of_cons (before ++ s.text)
    have hin := h.inside [] s rest rfl
    rw [spotted_cons, List.flatMap_cons]
    simp only [← Place.behind_append]
    rw [List.append_assoc] at hrest
    refine List.pairwise_append.2 ⟨?_, hrest, ?_⟩
    · refine List.pairwise_map.2 ((h.order s List.mem_cons_self).imp_of_mem ?_)
      intro m n _ hn hlt
      rw [Place.offset_behind_take, Place.offset_behind_take]
      exact Nat.add_lt_add_left (Text.bytes_take_lt hlt (hin n hn).1) _
    · intro p hp q hq
      obtain ⟨n, hn, rfl⟩ := List.mem_map.1 hp
      have hne : rest ≠ [] := by
        rintro rfl
        simp [spotted, locate] at hq
      have hlt := Text.bytes_take_lt ((hin n hn).2 hne) (Nat.le_refl _)
      have hle := le_offset_of_mem_spotted hq
      rw [List.append_assoc, Text.bytes_append] at hle
      rw [List.take_length] at hlt
      rw [Place.offset_behind_take]
      omega

end Segment

namespace Scan

theorem places_diagnostics (source : Source) :
    (ofSource source).diagnostics.map (·.position.toPlace)
      = Segment.spotted (fun s => s.faults.map (·.offset)) (.behind [])
          (Segment.segments source.text.toList) := by
  simp only [diagnostics, Segment.spotted, List.map_flatMap, Segment.diagnostics, List.map_map]
  rfl

theorem exists_of_mem_diagnostics {source : Source} {d : Diagnostic}
    (h : d ∈ (ofSource source).diagnostics) :
    ∃ before s after, Segment.segments source.text.toList = before ++ s :: after ∧ ∃ f ∈ s.faults,
      d = ⟨f.cause,
        ⟨.behind (before.flatMap (·.text) ++ s.text.take f.offset), source.name⟩⟩ := by
  obtain ⟨p, hp, hd⟩ := List.mem_flatMap.1 h
  obtain ⟨before, after, hs, hstart⟩ := Segment.exists_of_mem_locate hp
  obtain ⟨f, hf, rfl⟩ := List.mem_map.1 hd
  refine ⟨before, p.2, after, hs, f, hf, ?_⟩
  rw [Place.behind_append, ← Place.start_after, ← hstart]
  rfl

theorem pairwise_diagnostics (source : Source) :
    ((ofSource source).diagnostics.map (·.position.offset source.text.toList)).Pairwise
      (· < ·) := by
  have hs : Segment.Spaced (fun s => s.faults.map (·.offset))
      (Segment.segments source.text.toList) := by
    constructor
    · intro s hs
      obtain ⟨before, after, h⟩ := List.append_of_mem hs
      exact List.pairwise_map.2 (Segment.segments_truthful h).order
    · intro before s after h n hn
      obtain ⟨f, hf, rfl⟩ := List.mem_map.1 hn
      obtain ⟨hle, hlt⟩ := ((Segment.segments_truthful h).tells f hf).offset_le
      refine ⟨hle, fun ha => hlt ?_⟩
      obtain ⟨t, ts, rfl⟩ := List.exists_cons_of_ne_nil ha
      have ht : t ∈ Segment.segments source.text.toList := by simp [h]
      simp [Segment.text_ne_nil_of_mem_segments ht]
  have hp := hs.pairwise []
  rw [← places_diagnostics, List.pairwise_map, Segment.flatMap_segments] at hp
  exact List.pairwise_map.2 hp

end Scan

end FrontEnd
