import FrontEnd.Proofs.Lexical
import FrontEnd.Tree.Outline

/-!
The text of outlines tells which outlines they are. Where a label ends can be seen from the label:
at the end of its line, or at the quote that closes the literal in it, even if the literal goes on
over several lines. Where the children of a node end can be seen from the indentation.
-/

set_option autoImplicit false

namespace FrontEnd.Outline

/-! ### Labels -/

/-- A character that neither ends a line nor opens a literal. -/
def isOrdinary (c : Char) : Bool := c ∉ ['\n', '"', '\'']

/-- What may stand in a label before its literal, or all of a label without one. -/
structure Lead (cs : List Char) : Prop where
  ordinary : ∀ c ∈ cs, isOrdinary c
  flush : cs.head? ≠ some ' '

-- decided along the text; there is also a way to decide it over all characters
instance (cs : List Char) : Decidable (Lead cs) :=
  decidable_of_iff (cs.all isOrdinary ∧ cs.head? ≠ some ' ')
    ⟨fun h => ⟨List.all_eq_true.1 h.1, h.2⟩, fun h => ⟨List.all_eq_true.2 h.1, h.2⟩⟩

theorem Lead.append {cs ds : List Char} (h : Lead cs) (hn : cs ≠ [])
    (hd : ∀ d ∈ ds, isOrdinary d) : Lead (cs ++ ds) := by
  cases cs with
  | nil => exact absurd rfl hn
  | cons c cs => exact ⟨List.forall_mem_append.2 ⟨h.ordinary, hd⟩, by simpa using h.flush⟩

/-- Labels whose end can be found. -/
inductive Label : List Char → Prop where
  | plain {cs : List Char} : Lead cs → Label cs
  | string {lead body : List Char} :
    Lead lead → Segment.StringBody body → Label (lead ++ '"' :: (body ++ ['"']))
  | character {lead body : List Char} :
    Lead lead → Segment.CharacterBody body → Label (lead ++ '\'' :: (body ++ ['\'']))

/-- The label that a text starts with, and the text behind the end of its line. -/
def readLabel? (cs : List Char) : Option (List Char × List Char) :=
  let lead := cs.takeWhile isOrdinary
  match cs.dropWhile isOrdinary with
  | '\n' :: rest => some (lead, rest)
  | '"' :: rest => (Segment.closeString false rest).map fun (body, rest) =>
      (lead ++ '"' :: (body ++ ['"']), rest.drop 1)
  | '\'' :: rest => (Segment.characterBody rest).map fun (body, rest) =>
      (lead ++ '\'' :: (body ++ ['\'']), rest.drop 2)
  | _ => none

theorem Lead.run {lead : List Char} (h : Lead lead) {c : Char} (hc : isOrdinary c = false)
    (rest : List Char) :
    (lead ++ c :: rest).takeWhile isOrdinary = lead ∧
      (lead ++ c :: rest).dropWhile isOrdinary = c :: rest :=
  Segment.run_append h.ordinary (by simpa using hc)

theorem Label.readLabel? {label : List Char} (h : Label label) (rest : List Char) :
    readLabel? (label ++ '\n' :: rest) = some (label, rest) := by
  unfold Outline.readLabel?
  cases h with
  | plain hf =>
    obtain ⟨ht, hd⟩ := hf.run (c := '\n') rfl rest
    simp only [ht, hd]
  | @string lead body hf hb =>
    obtain ⟨ht, hd⟩ := hf.run (c := '"') rfl (body ++ '"' :: '\n' :: rest)
    simp only [List.append_assoc, List.cons_append, List.nil_append, ht, hd]
    simp [hb.closeString]
  | @character lead body hf hb =>
    obtain ⟨ht, hd⟩ := hf.run (c := '\'') rfl (body ++ '\'' :: '\n' :: rest)
    simp only [List.append_assoc, List.cons_append, List.nil_append, ht, hd]
    simp [hb.characterBody]

/-- No label with the end of its line is the start of another. -/
theorem Label.unique {l m r s : List Char} (hl : Label l) (hm : Label m)
    (h : l ++ '\n' :: r = m ++ '\n' :: s) : l = m ∧ r = s := by
  have hr := hl.readLabel? r
  rw [h, hm.readLabel? s] at hr
  simpa [eq_comm] using hr

theorem Label.flush {label : List Char} (h : Label label) (rest : List Char) :
    (label ++ '\n' :: rest).head? ≠ some ' ' := by
  have hfront {lead : List Char} (hf : Lead lead) {c : Char} (hc : c ≠ ' ')
      (cs : List Char) : (lead ++ c :: cs).head? ≠ some ' ' := by
    have hs := hf.flush
    cases lead with
    | nil => simpa using hc
    | cons d lead => simpa using hs
  cases h with
  | plain hf => exact hfront hf (by decide) rest
  | string hf | character hf =>
    rw [List.append_assoc, List.cons_append]
    exact hfront hf (by decide) _

/-! ### Indentation -/

/-- The number of spaces that a text starts with. -/
def indentation (cs : List Char) : Nat := (cs.takeWhile (· = ' ')).length

theorem indentation_spaces (count : Nat) {rest : List Char} (h : rest.head? ≠ some ' ') :
    indentation (List.replicate count ' ' ++ rest) = count := by
  have hr : ∀ c ∈ rest.head?, decide (c = ' ') = false := by
    intro c hc
    rw [decide_eq_false_iff_not]
    rintro rfl
    exact h hc
  have hs : ∀ c ∈ List.replicate count ' ', decide (c = ' ') = true := by simp
  rw [indentation, (Segment.run_append hs hr).1, List.length_replicate]

/-- What stands behind the children of a node `depth - 1` steps in. -/
def Outdented (depth : Nat) (cs : List Char) : Prop := cs = [] ∨ indentation cs < 2 * depth

/-! ### Outlines -/

/-- Every label of the outline has an end that can be found. -/
inductive Readable : Outline → Prop where
  | node {label : String} {children : List Outline} :
    Label label.toList → (∀ o ∈ children, Readable o) → Readable (.node label children)

/-- The characters of outlines one below the other, `depth` steps in. -/
def chars (depth : Nat) (outlines : List Outline) : List Char :=
  (linesAll depth outlines).flatMap String.toList

theorem toList_text (outlines : List Outline) : (text outlines).toList = chars 0 outlines :=
  String.toList_join

theorem chars_nil (depth : Nat) : chars depth [] = [] := rfl

theorem chars_cons (depth : Nat) (label : String) (children rest : List Outline) :
    chars depth (.node label children :: rest)
      = List.replicate (2 * depth) ' '
        ++ (label.toList ++ '\n' :: (chars (depth + 1) children ++ chars depth rest)) := by
  simp [chars, linesAll, lines, line]

theorem indentation_chars {depth : Nat} {label : String} {children rest : List Outline}
    {cs : List Char} (hl : Label label.toList) :
    indentation (chars depth (.node label children :: rest) ++ cs) = 2 * depth := by
  rw [chars_cons, List.append_assoc, List.append_assoc, List.cons_append]
  exact indentation_spaces _ (hl.flush _)

/-- Behind the children of a node the text goes back by a step. -/
theorem outdented_chars {depth : Nat} {outlines : List Outline} {cs : List Char}
    (ho : ∀ o ∈ outlines, Readable o) (hc : Outdented depth cs) :
    Outdented (depth + 1) (chars depth outlines ++ cs) := by
  cases outlines with
  | nil =>
    rw [chars_nil, List.nil_append]
    exact hc.imp_right fun h => by omega
  | cons o rest =>
    obtain ⟨hl, -⟩ := (List.forall_mem_cons.1 ho).1
    exact .inr (by rw [indentation_chars hl]; omega)

theorem not_outdented_chars {depth : Nat} {label : String} {children rest : List Outline}
    {cs : List Char} (hl : Label label.toList) :
    ¬ Outdented depth (chars depth (.node label children :: rest) ++ cs) := by
  rintro (h | h)
  · simp [chars_cons] at h
  · rw [indentation_chars hl] at h
    omega

/-- Outlines are told by their text, whatever outdented text stands behind them. -/
theorem eq_of_chars : ∀ {depth : Nat} {os ps : List Outline} {r s : List Char},
    (∀ o ∈ os, Readable o) → (∀ p ∈ ps, Readable p) → Outdented depth r → Outdented depth s →
    chars depth os ++ r = chars depth ps ++ s → os = ps ∧ r = s
  | _, [], [], _, _, _, _, _, _, h => ⟨rfl, h⟩
  | depth, [], .node m ds :: ps, r, s, _, hp, hr, _, h => by
    obtain ⟨hm, -⟩ := (List.forall_mem_cons.1 hp).1
    rw [chars_nil, List.nil_append] at h
    exact absurd (h ▸ hr) (not_outdented_chars hm)
  | depth, .node l cs :: os, [], r, s, ho, _, _, hs, h => by
    obtain ⟨hl, -⟩ := (List.forall_mem_cons.1 ho).1
    rw [chars_nil, List.nil_append] at h
    exact absurd (h ▸ hs) (not_outdented_chars hl)
  | depth, .node l cs :: os, .node m ds :: ps, r, s, ho, hp, hr, hs, h => by
    obtain ⟨⟨hl, hcs⟩, hos⟩ := List.forall_mem_cons.1 ho
    obtain ⟨⟨hm, hds⟩, hps⟩ := List.forall_mem_cons.1 hp
    rw [chars_cons, chars_cons] at h
    simp only [List.append_assoc, List.cons_append, List.append_cancel_left_eq] at h
    obtain ⟨hlabel, hbelow⟩ := hl.unique hm h
    obtain ⟨rfl, hbehind⟩ :=
      eq_of_chars hcs hds (outdented_chars hos hr) (outdented_chars hps hs) hbelow
    obtain ⟨rfl, rfl⟩ := eq_of_chars hos hps hr hs hbehind
    exact ⟨by rw [String.toList_inj.1 hlabel], rfl⟩

theorem eq_of_text {os ps : List Outline} (ho : ∀ o ∈ os, Readable o)
    (hp : ∀ p ∈ ps, Readable p) (h : text os = text ps) : os = ps := by
  have hc := congrArg String.toList h
  rw [toList_text, toList_text] at hc
  exact (eq_of_chars ho hp (.inl rfl) (.inl rfl) (by simpa using hc)).1

end FrontEnd.Outline
