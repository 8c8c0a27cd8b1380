import FrontEnd.Scan
import FrontEnd.Proofs.Lexical
import FrontEnd.Proofs.Place

/-!
A scan loses nothing and locates everything exactly. The texts of its segments, joined, are the
source; its tokens are those of the lexemes among the segments, one each, at the place behind all
the text before; and a lexeme has the text of its token unless an error is reported inside it.
-/

set_option autoImplicit false

namespace FrontEnd

namespace Segment

/-- The tokens of segments that follow the text `before`, one for each lexeme. -/
def borne (file : String) (before : List Char) : List Segment → List Token
  | [] => []
  | s :: rest =>
    match s.role with
    | .lexeme kind value =>
      ⟨kind, value, ⟨.behind before, file⟩⟩ :: borne file (before ++ s.text) rest
    | _ => borne file (before ++ s.text) rest

theorem borne_cons (file : String) (before : List Char) (s : Segment) (rest : List Segment) :
    borne file before (s :: rest)
      = (s.token? file (.behind before)).toList ++ borne file (before ++ s.text) rest := by
  obtain ⟨text, role, faults⟩ := s
  cases role <;> rfl

theorem filterMap_locate (file : String) (before : List Char) (segments : List Segment) :
    (locate (.behind before) segments).filterMap (fun (start, s) => s.token? file start)
      = borne file before segments := by
  induction segments generalizing before with
  | nil => rfl
  | cons s rest ih =>
    have h := ih (before ++ s.text)
    rw [Place.behind_append] at h
    rw [locate, borne_cons, ← h, List.filterMap_cons]
    dsimp only
    cases s.token? file (.behind before) <;> rfl

theorem locate_append (start : Place) (before after : List Segment) :
    locate start (before ++ after)
      = locate start before ++ locate (start.after (before.flatMap (·.text))) after := by
  induction before generalizing start with
  | nil => rfl
  | cons s before ih => simp [locate, ih]

theorem exists_of_mem_locate {start : Place} {segments : List Segment} {p : Place × Segment}
    (h : p ∈ locate start segments) :
    ∃ before after, segments = before ++ p.2 :: after ∧
      p.1 = start.after (before.flatMap (·.text)) := by
  induction segments generalizing start with
  | nil => simp [locate] at h
  | cons s rest ih =>
    obtain rfl | h := List.mem_cons.1 h
    · exact ⟨[], rest, rfl, rfl⟩
    · obtain ⟨before, after, he, hp⟩ := ih h
      exact ⟨s :: before, after, by rw [he, List.cons_append], by simp [hp]⟩

/-- Every token is that of a lexeme, and stands where the lexeme starts. -/
theorem exists_of_mem_borne {file : String} {text : List Char} {segments : List Segment}
    {t : Token} (ht : t ∈ borne file text segments) :
    ∃ before s after, segments = before ++ s :: after ∧ s.role = .lexeme t.kind t.value ∧
      t.position = ⟨.behind (text ++ before.flatMap (·.text)), file⟩ := by
  induction segments generalizing text with
  | nil => simp [borne] at ht
  | cons s rest ih =>
    have hb (ht : t ∈ borne file (text ++ s.text) rest) :
        ∃ before s' after, s :: rest = before ++ s' :: after ∧ s'.role = .lexeme t.kind t.value ∧
          t.position = ⟨.behind (text ++ before.flatMap (·.text)), file⟩ := by
      obtain ⟨before, s', after, rfl, hr, hp⟩ := ih ht
      exact ⟨s :: before, s', after, rfl, hr, by simpa using hp⟩
    rw [borne] at ht
    split at ht
    · rename_i hr
      obtain rfl | ht := List.mem_cons.1 ht
      · exact ⟨[], s, rest, rfl, hr, by simp⟩
      · exact hb ht
    · exact hb ht

end Segment

/-- What it is for a source to be cut into segments that bear the tokens. -/
structure Tokenizes (source : Source) (errors : List Diagnostic) (segments : List Segment)
    (tokens : List Token) : Prop where
  /-- No part of the source is dropped or read twice. -/
  joined : segments.flatMap (·.text) = source.text.toList
  nonempty : ∀ s ∈ segments, s.text ≠ []
  formed : ∀ before s after, segments = before ++ s :: after → s.Formed (after.flatMap (·.text))
  /-- The tokens are those of the lexemes, in order, at the places where the lexemes start. -/
  borne : tokens = Segment.borne source.name [] segments
  kinds : ∀ t ∈ tokens, t.kind ≠ .eof
  /-- A lexeme has the text of its token, or an error is located inside it. -/
  written : ∀ before s after kind value, segments = before ++ s :: after →
    s.role = .lexeme kind value →
    s.text = kind.written value ∨
      ∃ d ∈ errors, ∃ front back, s.text = front ++ back ∧ back ≠ [] ∧
        d.position = ⟨.behind (before.flatMap (·.text) ++ front), source.name⟩
  /-- Lines and columns of tokens fit where the number of bytes of the source does. -/
  fits : ∀ t ∈ tokens, t.position.line ≤ source.text.utf8ByteSize ∧
    t.position.column ≤ source.text.utf8ByteSize

namespace Scan

/-- A fault of a segment is reported at the place behind all the text before it. -/
theorem mem_diagnostics_ofSource {source : Source} {before after : List Segment} {s : Segment}
    {f : Fault} (h : Segment.segments source.text.toList = before ++ s :: after)
    (hf : f ∈ s.faults) :
    ⟨f.cause, ⟨.behind (before.flatMap (·.text) ++ s.text.take f.offset), source.name⟩⟩
      ∈ (ofSource source).diagnostics := by
  have hl : (Place.behind (before.flatMap (·.text)), s) ∈ (ofSource source).located := by
    simp [ofSource, h, Segment.locate_append, Segment.locate, Place.start_after]
  refine List.mem_flatMap.2 ⟨_, hl, List.mem_map.2 ⟨f, hf, ?_⟩⟩
  rw [Place.behind_append]
  rfl

/-- The tokens of every source end with the end token, and the source is cut into segments that
bear the others. -/
theorem tokens_ofSource (source : Source) :
    ∃ segments tokens,
      (ofSource source).tokens
        = tokens ++ [⟨.eof, "", ⟨.behind source.text.toList, source.name⟩⟩] ∧
      Tokenizes source (ofSource source).diagnostics segments tokens := by
  have hj := Segment.flatMap_segments source.text.toList
  have hn : ∀ s ∈ Segment.segments source.text.toList, s.text ≠ [] :=
    fun _ => Segment.text_ne_nil_of_mem_segments
  refine ⟨Segment.segments source.text.toList, _, ?_, hj, hn, ?_, rfl, ?_, ?_, ?_⟩
  · have hb := Segment.filterMap_locate source.name [] (Segment.segments source.text.toList)
    rw [← hb, ← Place.start_after source.text.toList]
    rfl
  · intro before s after h
    exact Segment.segments_formed h
  · intro t ht
    obtain ⟨before, s, after, h, hr, -⟩ := Segment.exists_of_mem_borne ht
    exact (Segment.segments_formed h).kind_ne_eof hr
  · intro before s after kind value h hr
    obtain hw | ⟨f, hf, hlt⟩ := (Segment.segments_formed h).written hr
    · exact .inl hw
    · refine .inr ⟨_, mem_diagnostics_ofSource h hf, s.text.take f.offset, s.text.drop f.offset,
        (List.take_append_drop _ _).symm, ?_, rfl⟩
      simpa using hlt
  · intro t ht
    obtain ⟨before, s, after, h, -, hp⟩ := Segment.exists_of_mem_borne ht
    have hs : s.text ++ after.flatMap (·.text) ≠ [] := by simp [hn s (by simp [h])]
    have hle := Place.behind_le (before.flatMap (·.text)) hs
    rw [h, List.flatMap_append, List.flatMap_cons] at hj
    rw [hj, Text.bytes_toList] at hle
    simpa [hp] using hle

end Scan

end FrontEnd
