import FrontEnd.Scanner
import FrontEnd.Proofs.Faults
import FrontEnd.Proofs.Lines
import Mathlib.Logic.Relation

/-!
The stages of a scan. A scanner on its way through a source has a cursor, and the tokens and the
diagnostics so far. A step takes the next segment; the steps end where nothing is ahead, and behind
a fatal diagnostic. Nothing is ever ahead of a fatal diagnostic, so they end with the whole scan.
-/

set_option autoImplicit false

namespace FrontEnd

/-- A scanner on its way through a source, with the tokens so far. -/
structure Stage extends Scanner where
  tokens : List Token

theorem Segment.token?_eq_some {s : Segment} {file : String} {start : Place} {t : Token}
    (h : s.token? file start = some t) :
    s.role = .lexeme t.kind t.value ∧ t.position = ⟨start, file⟩ := by
  unfold Segment.token? at h
  split at h
  · rename_i hr
    cases h
    exact ⟨hr, rfl⟩
  · cases h

namespace Stage

def start (source : Source) : Stage := { Scanner.ofSource source with tokens := [] }

/-- Whether a diagnostic so far is fatal. -/
def isOver (s : Stage) : Bool := s.diagnostics.any (·.cause.isFatal)

/-- The stage behind the next segment. -/
def next? (s : Stage) : Option Stage :=
  match h : s.ahead with
  | [] => none
  | c :: cs =>
    if s.isOver then none
    else some {
      source := s.source
      behind := s.behind ++ (Segment.cut c cs).1.text
      ahead := (Segment.cut c cs).2
      diagnostics := s.diagnostics ++ (Segment.cut c cs).1.diagnostics s.source.name s.place
      tokens := s.tokens ++ ((Segment.cut c cs).1.token? s.source.name s.place).toList
      split := by rw [List.append_assoc, Segment.cut_append, ← h, s.split] }

/-- Steps lead from one stage to another. -/
abbrev Leads : Stage → Stage → Prop := Relation.ReflTransGen fun s t => s.next? = some t

/-! ### One step -/

/-- The stage `t` is behind the segment that is cut off the text `c :: cs` ahead of `s`. -/
structure Cuts (s : Stage) (c : Char) (cs : List Char) (t : Stage) : Prop where
  source : t.source = s.source
  behind : t.behind = s.behind ++ (Segment.cut c cs).1.text
  ahead : t.ahead = (Segment.cut c cs).2
  diagnostics : t.diagnostics
    = s.diagnostics ++ (Segment.cut c cs).1.diagnostics s.source.name s.place
  tokens : t.tokens = s.tokens ++ ((Segment.cut c cs).1.token? s.source.name s.place).toList

variable {source : Source} {s t : Stage} {c : Char} {cs : List Char}

theorem next?_of_nil (h : s.ahead = []) : s.next? = none := by
  unfold next?
  split
  · rfl
  · simp_all

theorem exists_next? (ha : s.ahead = c :: cs) (ho : s.isOver = false) :
    ∃ t, s.next? = some t ∧ s.Cuts c cs t := by
  unfold next?
  split
  · simp_all
  · rename_i d ds h
    obtain ⟨rfl, rfl⟩ := List.cons.inj (ha.symm.trans h)
    rw [if_neg (by simp [ho])]
    exact ⟨_, rfl, rfl, rfl, rfl, rfl, rfl⟩

theorem exists_cuts (h : s.next? = some t) :
    ∃ c cs, s.ahead = c :: cs ∧ s.isOver = false ∧ s.Cuts c cs t := by
  cases ha : s.ahead with
  | nil =>
    rw [next?_of_nil ha] at h
    cases h
  | cons c cs =>
    have ho : s.isOver = false := by
      rw [Bool.eq_false_iff]
      intro ho
      unfold next? at h
      split at h
      · cases h
      · rw [if_pos ho] at h
        cases h
    obtain ⟨u, hu, hc⟩ := exists_next? ha ho
    obtain rfl : t = u := Option.some.inj (h.symm.trans hu)
    exact ⟨c, cs, rfl, ho, hc⟩

theorem Cuts.place (h : s.Cuts c cs t) : t.place = s.place.after (Segment.cut c cs).1.text := by
  rw [Scanner.place, h.behind, Place.after_append]
  rfl

/-! ### What every stage keeps -/

/-- Nothing follows a segment with a fatal fault. -/
theorem rest_of_isFatal {f : Fault} (hf : f ∈ (Segment.cut c cs).1.faults)
    (h : f.cause.isFatal = true) : (Segment.cut c cs).2 = [] := by
  have htells := (Segment.cut_truthful c cs).tells f hf
  obtain ⟨offset, cause⟩ := f
  cases cause with
  | unexpectedEndOfFile => exact htells.2
  | fileRead => exact htells.elim
  | _ => cases h

/-- What was found so far and what is found ahead are the whole scan, and a fatal diagnostic is
reported with nothing ahead. -/
structure Halfway (source : Source) (s : Stage) : Prop where
  origin : s.source = source
  stopped : s.isOver = true → s.ahead = []
  tokens : (Scan.ofSource source).tokens
    = s.tokens ++ (Segment.found source.name s.place s.ahead).1 ++ [(Scan.ofSource source).endToken]
  diagnostics : (Scan.ofSource source).diagnostics
    = s.diagnostics ++ (Segment.found source.name s.place s.ahead).2
  kinds : ∀ t ∈ s.tokens, t.kind ≠ .eof

theorem halfway_start (source : Source) : (start source).Halfway source where
  origin := rfl
  stopped h := by cases h
  tokens := rfl
  diagnostics := rfl
  kinds _ ht := by cases ht

theorem Halfway.next (hs : s.Halfway source) (h : s.next? = some t) : t.Halfway source := by
  obtain ⟨c, cs, ha, ho, hc⟩ := exists_cuts h
  have hfound := Segment.found_cons source.name s.place c cs
  dsimp only at hfound
  rw [← ha, ← hc.place, ← hc.ahead] at hfound
  have htokens := hs.tokens
  have hdiagnostics := hs.diagnostics
  rw [hfound] at htokens hdiagnostics
  constructor
  · rw [hc.source, hs.origin]
  · intro hover
    rw [isOver, hc.diagnostics, List.any_append, ← isOver, ho, Bool.false_or] at hover
    obtain ⟨d, hd, hfatal⟩ := List.any_eq_true.1 hover
    obtain ⟨f, hf, rfl⟩ := List.mem_map.1 hd
    rw [hc.ahead, rest_of_isFatal hf hfatal]
  · rw [htokens, hc.tokens, hs.origin]
    simp only [List.append_assoc]
  · rw [hdiagnostics, hc.diagnostics, hs.origin, List.append_assoc]
  · rw [hc.tokens]
    refine List.forall_mem_append.2 ⟨hs.kinds, fun t ht => ?_⟩
    exact (Segment.cut_formed c cs).kind_ne_eof (Segment.token?_eq_some (Option.mem_toList.1 ht)).1

theorem halfway_of_leads (h : (start source).Leads s) : s.Halfway source := by
  induction h with
  | refl => exact halfway_start source
  | tail _ hn ih => exact ih.next hn

/-! ### Where a stage has its tokens and diagnostics from -/

/-- Every token so far is that of a segment that a step took. -/
theorem exists_of_mem_tokens (h : (start source).Leads s) {token : Token} (ht : token ∈ s.tokens) :
    ∃ u v c cs, (start source).Leads u ∧ u.next? = some v ∧ u.ahead = c :: cs ∧ u.Cuts c cs v ∧
      (Segment.cut c cs).1.token? u.source.name u.place = some token := by
  induction h with
  | refl => cases ht
  | @tail u v hu hn ih =>
    obtain ⟨c, cs, ha, -, hc⟩ := exists_cuts hn
    rw [hc.tokens] at ht
    obtain ht | ht := List.mem_append.1 ht
    · exact ih ht
    · exact ⟨u, v, c, cs, hu, hn, ha, hc, Option.mem_toList.1 ht⟩

/-- Every diagnostic so far is a fault of a segment that a step took. -/
theorem exists_of_mem_diagnostics (h : (start source).Leads s) {d : Diagnostic}
    (hd : d ∈ s.diagnostics) :
    ∃ u v c cs, (start source).Leads u ∧ u.next? = some v ∧ u.ahead = c :: cs ∧ u.Cuts c cs v ∧
      ∃ f ∈ (Segment.cut c cs).1.faults, d = ⟨f.cause,
        ⟨u.place.after ((Segment.cut c cs).1.text.take f.offset), u.source.name⟩⟩ := by
  induction h with
  | refl => cases hd
  | @tail u v hu hn ih =>
    obtain ⟨c, cs, ha, -, hc⟩ := exists_cuts hn
    rw [hc.diagnostics] at hd
    obtain hd | hd := List.mem_append.1 hd
    · exact ih hd
    · obtain ⟨f, hf, rfl⟩ := List.mem_map.1 hd
      exact ⟨u, v, c, cs, hu, hn, ha, hc, f, hf, rfl⟩

/-! ### The last stage -/

theorem Halfway.exists_next? (hs : s.Halfway source) (ha : s.ahead = c :: cs) :
    ∃ t, s.next? = some t ∧ s.Cuts c cs t := by
  refine Stage.exists_next? ha (Bool.eq_false_iff.2 fun ho => ?_)
  rw [hs.stopped ho] at ha
  cases ha

/-- Every segment of the text ahead starts where some stage stands. -/
theorem Halfway.leads_of_segments (hs : s.Halfway source) {front back : List Segment}
    (h : Segment.segments s.ahead = front ++ back) :
    ∃ t, s.Leads t ∧ t.behind = s.behind ++ front.flatMap (·.text) := by
  induction front generalizing s with
  | nil => exact ⟨s, .refl, by simp⟩
  | cons x front ih =>
    cases ha : s.ahead with
    | nil =>
      rw [ha] at h
      simp [Segment.segments] at h
    | cons c cs =>
      obtain ⟨t, ht, hc⟩ := hs.exists_next? ha
      rw [ha, Segment.segments_cons, List.cons_append] at h
      obtain ⟨rfl, hrest⟩ := List.cons.inj h
      rw [← hc.ahead] at hrest
      obtain ⟨u, hu, hb⟩ := ih (hs.next ht) hrest
      exact ⟨u, .head ht hu, by rw [hb, hc.behind, List.flatMap_cons, List.append_assoc]⟩

/-- The text behind a stage is that of the segments in front of those ahead of it. -/
theorem exists_segments (h : (start source).Leads s) :
    ∃ front, Segment.segments source.text.toList = front ++ Segment.segments s.ahead ∧
      front.flatMap (·.text) = s.behind := by
  induction h with
  | refl => exact ⟨[], rfl, rfl⟩
  | @tail u v _ hn ih =>
    obtain ⟨front, hs, hb⟩ := ih
    obtain ⟨c, cs, ha, -, hc⟩ := exists_cuts hn
    refine ⟨front ++ [(Segment.cut c cs).1], ?_, ?_⟩
    · rw [hs, ha, Segment.segments_cons, ← hc.ahead, List.append_assoc, List.singleton_append]
    · rw [List.flatMap_append, List.flatMap_singleton, hb, hc.behind]

/-- Where the steps end, nothing is ahead. -/
theorem Halfway.ahead_of_none (hs : s.Halfway source) (hn : s.next? = none) : s.ahead = [] := by
  cases ha : s.ahead with
  | nil => rfl
  | cons c cs =>
    obtain ⟨t, ht, -⟩ := hs.exists_next? ha
    rw [hn] at ht
    cases ht

/-- A step takes at least one character, so the steps end. -/
theorem exists_last (s : Stage) : ∃ last, s.Leads last ∧ last.next? = none := by
  induction hn : s.ahead.length using Nat.strong_induction_on generalizing s with
  | _ n ih =>
    cases h : s.next? with
    | none => exact ⟨s, .refl, h⟩
    | some t =>
      obtain ⟨c, cs, ha, -, hc⟩ := exists_cuts h
      have hle : t.ahead.length ≤ cs.length := by
        rw [hc.ahead]
        exact Segment.cut_length_le c cs
      rw [ha, List.length_cons] at hn
      obtain ⟨last, hl, he⟩ := ih t.ahead.length (by omega) t rfl
      exact ⟨last, .head h hl, he⟩

theorem Halfway.behind_of_nil (hs : s.Halfway source) (ha : s.ahead = []) :
    s.behind = source.text.toList := by
  rw [← hs.origin, ← s.split, ha, List.append_nil]

theorem Halfway.position (hs : s.Halfway source) :
    s.position = ⟨.behind s.behind, source.name⟩ := by
  rw [Scanner.position, Scanner.place, hs.origin, Place.start_after]

theorem Halfway.position_of_nil (hs : s.Halfway source) (ha : s.ahead = []) :
    s.position = ⟨.behind source.text.toList, source.name⟩ := by
  rw [hs.position, hs.behind_of_nil ha]

theorem Halfway.endToken_of_nil (hs : s.Halfway source) (ha : s.ahead = []) :
    (Scan.ofSource source).endToken = ⟨.eof, "", s.position⟩ := by
  rw [hs.position_of_nil ha, ← Place.start_after]
  rfl

theorem Halfway.tokens_of_nil (hs : s.Halfway source) (ha : s.ahead = []) :
    (Scan.ofSource source).tokens = s.tokens ++ [(Scan.ofSource source).endToken] := by
  rw [hs.tokens, ha]
  simp [Segment.found, Segment.segments, Segment.locate]

theorem Halfway.diagnostics_of_nil (hs : s.Halfway source) (ha : s.ahead = []) :
    (Scan.ofSource source).diagnostics = s.diagnostics := by
  rw [hs.diagnostics, ha]
  simp [Segment.found, Segment.segments, Segment.locate]

/-- A scanner stands at the last stage when it has scanned its source, whatever it has done
before. -/
theorem Halfway.scan (hs : s.Halfway source) (ha : s.ahead = []) {scanner : Scanner}
    (h : scanner.source = source) : scanner.scan.2 = s.toScanner := by
  have hb := hs.behind_of_nil ha
  have hd := hs.diagnostics_of_nil ha
  have hsource := hs.origin
  obtain ⟨⟨_, behind, ahead, diagnostics, split⟩, tokens⟩ := s
  simp only at hb hd hsource ha
  subst hb hd hsource ha h
  rfl

end Stage

end FrontEnd
