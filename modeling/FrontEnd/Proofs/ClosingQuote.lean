import FrontEnd.Proofs.Truncation
import Mathlib.Algebra.Group.Nat.Even

/-!
The quote that closes a string literal. A double quote is escaped when the number of backslashes
right in front of it is odd, and the first one that is not escaped closes the literal. The flag that
the scanner keeps while it reads the literal is the parity of the backslashes that it read last.
-/

set_option autoImplicit false

namespace FrontEnd

namespace Segment

/-- The number of backslashes at the end of a text. -/
def slashes (cs : List Char) : Nat := (cs.reverse.takeWhile (· = '\\')).length

theorem slashes_snoc_slash (cs : List Char) : slashes (cs ++ ['\\']) = slashes cs + 1 := by
  simp [slashes]

theorem slashes_snoc {c : Char} (hc : c ≠ '\\') (cs : List Char) : slashes (cs ++ [c]) = 0 := by
  simp [slashes, hc]

/-- Behind the text `front`, which has been read, `cs` has its first double quote with an even
number of backslashes in front of it behind `inside`. -/
structure FirstEven (front cs inside rest : List Char) : Prop where
  split : cs = inside ++ '"' :: rest
  even : Even (slashes (front ++ inside))
  first : ∀ before after, inside = before ++ '"' :: after → ¬ Even (slashes (front ++ before))

variable {front cs inside rest : List Char} {c : Char}

theorem firstEven_of_even (h : Even (slashes front)) :
    FirstEven front ('"' :: cs) inside rest ↔ inside = [] ∧ cs = rest := by
  constructor
  · intro hf
    cases inside with
    | nil => exact ⟨rfl, (List.cons.inj hf.split).2⟩
    | cons d ds =>
      obtain ⟨rfl, -⟩ := List.cons.inj hf.split
      exact absurd (by simpa using h) (hf.first [] ds rfl)
  · rintro ⟨rfl, rfl⟩
    exact ⟨rfl, by simpa using h, fun before after h => by simp at h⟩

theorem firstEven_cons (h : ¬ (c = '"' ∧ Even (slashes front))) :
    FirstEven front (c :: cs) inside rest ↔
      ∃ body, FirstEven (front ++ [c]) cs body rest ∧ c :: body = inside := by
  constructor
  · intro hf
    cases inside with
    | nil =>
      obtain ⟨rfl, -⟩ := List.cons.inj hf.split
      exact absurd ⟨rfl, by simpa using hf.even⟩ h
    | cons d body =>
      obtain ⟨rfl, rfl⟩ := List.cons.inj hf.split
      refine ⟨body, ⟨rfl, by simpa using hf.even, fun before after hb => ?_⟩, rfl⟩
      simpa using hf.first (c :: before) after (by rw [hb, List.cons_append])
  · rintro ⟨body, hf, rfl⟩
    refine ⟨by rw [hf.split, List.cons_append], by simpa using hf.even, fun before after hb => ?_⟩
    cases before with
    | nil =>
      obtain ⟨rfl, -⟩ := List.cons.inj hb
      simpa using h
    | cons d before =>
      obtain ⟨rfl, hbody⟩ := List.cons.inj hb
      simpa using hf.first before after hbody

/-- The flag of an escape is the parity of the backslashes that were read last. -/
theorem escapes_eq (c : Char) (front : List Char) :
    (c = '\\' && !!decide (Even (slashes front))) = !decide (Even (slashes (front ++ [c]))) := by
  by_cases hc : c = '\\'
  · rw [hc, slashes_snoc_slash]
    by_cases he : Even (slashes front)
    · have hn : ¬ Even (slashes front + 1) := fun h => Nat.even_add_one.1 h he
      rw [decide_eq_true he, decide_eq_false hn]
      rfl
    · rw [decide_eq_false he, decide_eq_true (Nat.even_add_one.2 he)]
      rfl
  · rw [slashes_snoc hc]
    simp [hc]

theorem closeString_iff :
    closeString (!decide (Even (slashes front))) cs = some (inside, rest) ↔
      FirstEven front cs inside rest := by
  induction cs generalizing front inside with
  | nil =>
    refine iff_of_false (by simp [closeString]) fun hf => ?_
    simpa using hf.split
  | cons c cs ih =>
    by_cases h : c = '"' ∧ Even (slashes front)
    · obtain ⟨rfl, he⟩ := h
      rw [firstEven_of_even he]
      simp [closeString, he, eq_comm]
    · have hn : ¬ (c = '"' && !!decide (Even (slashes front))) = true := by simpa using h
      rw [firstEven_cons h, closeString, if_neg hn, escapes_eq, Option.map_eq_some_iff]
      constructor
      · rintro ⟨⟨body, rest'⟩, hb, he⟩
        simp only [Prod.mk.injEq] at he
        obtain ⟨rfl, rfl⟩ := he
        exact ⟨body, ih.1 hb, rfl⟩
      · rintro ⟨body, hf, rfl⟩
        exact ⟨(body, rest), ih.2 hf, rfl⟩

theorem closeString_eq_some_iff :
    closeString false cs = some (inside, rest) ↔ FirstEven [] cs inside rest := by
  rw [← closeString_iff]
  simp [slashes]

end Segment

namespace Stage

variable {source : Source} {s : Stage} {cs : List Char}

/-- A step that meets a double quote reads up to the first quote that is not escaped. It pushes the
text in between, raw, as one token that stands at the first quote, and the scan goes on behind the
second one. When there is no such quote, the step pushes no token and the scan ends there, with a
diagnostic at the end of the source. -/
theorem next?_of_doubleQuote (hl : (start source).Leads s) (ha : s.ahead = '"' :: cs) :
    (∀ inside rest, Segment.FirstEven [] cs inside rest → ∃ t, s.next? = some t ∧
      t.tokens = s.tokens
        ++ [⟨.string, String.ofList inside, ⟨.behind s.behind, source.name⟩⟩] ∧
      t.tokens <+: (Scan.ofSource source).tokens ∧ t.diagnostics = s.diagnostics ∧
      t.behind = s.behind ++ ('"' :: inside ++ ['"']) ∧ t.ahead = rest) ∧
    ((¬ ∃ inside rest, Segment.FirstEven [] cs inside rest) → ∃ t, s.next? = some t ∧
      t.next? = none ∧ t.behind = source.text.toList ∧ t.ahead = [] ∧ t.tokens = s.tokens ∧
      (Scan.ofSource source).tokens = s.tokens ++ [(Scan.ofSource source).endToken] ∧
      (Scan.ofSource source).diagnostics = s.diagnostics
        ++ [⟨.unexpectedEndOfFile, ⟨.behind source.text.toList, source.name⟩⟩]) := by
  have hs := halfway_of_leads hl
  obtain ⟨t, ht, hc⟩ := hs.exists_next? ha
  have hnext := hs.next ht
  obtain ⟨-, hbehind, hahead, hdiagnostics, htokens⟩ := hc
  rw [Segment.cut_string, Segment.cutString] at hbehind hahead hdiagnostics htokens
  constructor
  · intro inside rest hf
    rw [Segment.closeString_eq_some_iff.2 hf] at hbehind hahead hdiagnostics htokens
    refine ⟨t, ht, ?_, ?_, ?_, hbehind, hahead⟩
    · rw [htokens, ← hs.position]
      rfl
    · rw [hnext.tokens, List.append_assoc]
      exact List.prefix_append _ _
    · rw [hdiagnostics]
      exact List.append_nil _
  · intro hn
    have hnone : Segment.closeString false cs = none :=
      Option.eq_none_iff_forall_not_mem.2 fun closed h =>
        hn ⟨closed.1, closed.2, Segment.closeString_eq_some_iff.1 h⟩
    rw [hnone] at hbehind hahead hdiagnostics htokens
    have hnil : t.ahead = [] := hahead
    have hkeep : t.tokens = s.tokens := htokens.trans (List.append_nil _)
    refine ⟨t, ht, next?_of_nil hnil, hnext.behind_of_nil hnil, hnil, hkeep, ?_, ?_⟩
    · rw [hnext.tokens_of_nil hnil, hkeep]
    · have hplace : s.place.after ('"' :: cs) = .behind source.text.toList := by
        rw [Scanner.place, ← Place.after_append, Place.start_after, ← ha, s.split, hs.origin]
      rw [hnext.diagnostics_of_nil hnil, hdiagnostics, Segment.diagnostics_unterminated, hplace,
        hs.origin]
      rfl

/-- An escaped backslash in front of a quote, and an escaped quote at the end. -/
theorem next?_of_doubleQuote_slashes :
    (∃ t, (start ⟨"t", "\"\\\\\"\""⟩).next? = some t ∧
      t.tokens = [⟨.string, "\\\\", ⟨⟨1, 1⟩, "t"⟩⟩] ∧ t.ahead = ['"']) ∧
    ∃ t, (start ⟨"t", "\"\\\""⟩).next? = some t ∧ t.next? = none ∧ t.tokens = [] ∧
      (Scan.ofSource ⟨"t", "\"\\\""⟩).diagnostics
        = [⟨.unexpectedEndOfFile, ⟨⟨1, 4⟩, "t"⟩⟩] := by
  have hf : Segment.FirstEven [] ['\\', '\\', '"', '"'] ['\\', '\\'] ['"'] :=
    Segment.closeString_eq_some_iff.1 rfl
  have hn : ¬ ∃ inside rest, Segment.FirstEven [] ['\\', '"'] inside rest := by
    rintro ⟨inside, rest, h⟩
    cases Segment.closeString_eq_some_iff.2 h
  have hstay (source : Source) : (start source).Leads (start source) := .refl
  obtain ⟨hclosed, -⟩ := next?_of_doubleQuote (hstay ⟨"t", "\"\\\\\"\""⟩) rfl
  obtain ⟨-, hopen⟩ := next?_of_doubleQuote (hstay ⟨"t", "\"\\\""⟩) rfl
  obtain ⟨t, ht, htokens, -, -, -, hahead⟩ := hclosed _ _ hf
  obtain ⟨u, hu, hnone, -, -, htokens', -, hdiagnostics⟩ := hopen hn
  exact ⟨⟨t, ht, htokens, hahead⟩, u, hu, hnone, htokens', hdiagnostics⟩

end Stage

end FrontEnd
