import FrontEnd.Proofs.Place
import FrontEnd.Source

/-!
From places back to bytes. A place denotes a byte of a text: the bytes of the lines in front of it,
with their newlines, and the bytes before it in its own line. The place behind a text denotes the
byte behind that text, whatever follows, and the line it names exists.
-/

set_option autoImplicit false

namespace FrontEnd

namespace Text

/-- A text is a last line, or a line and its newline in front of a text. -/
@[elab_as_elim]
theorem lines_induction {motive : List Char → Prop} (last : ∀ cs, '\n' ∉ cs → motive cs)
    (line : ∀ cs ds, '\n' ∉ cs → motive ds → motive (cs ++ '\n' :: ds)) (cs : List Char) :
    motive cs := by
  by_cases h : '\n' ∈ cs
  · obtain ⟨as, bs, rfl, ha⟩ := List.eq_append_cons_of_mem h
    exact line as bs ha (lines_induction last line bs)
  · exact last cs h
termination_by cs.length

theorem takeWhile_line {cs : List Char} (h : '\n' ∉ cs) (ds : List Char) :
    (cs ++ ds).takeWhile (· ≠ '\n') = cs ++ ds.takeWhile (· ≠ '\n') :=
  List.takeWhile_append_of_pos fun c hc => by simpa using ne_of_mem_of_not_mem hc h

theorem dropWhile_line {cs : List Char} (h : '\n' ∉ cs) (ds : List Char) :
    (cs ++ ds).dropWhile (· ≠ '\n') = ds.dropWhile (· ≠ '\n') :=
  List.dropWhile_append_of_pos fun c hc => by simpa using ne_of_mem_of_not_mem hc h

theorem lastLine_line {cs : List Char} (h : '\n' ∉ cs) : lastLine cs = cs := by
  have hr : '\n' ∉ cs.reverse := by simpa using h
  have hw := takeWhile_line hr []
  simp only [List.append_nil, List.takeWhile_nil] at hw
  rw [lastLine, hw, List.reverse_reverse]

/-- Only the text behind the last newline counts. -/
theorem lastLine_append_newline (cs ds : List Char) :
    lastLine (cs ++ '\n' :: ds) = lastLine ds := by
  simp only [lastLine, List.reverse_append, List.reverse_cons, List.append_assoc,
    List.takeWhile_append]
  split
  · rename_i hl
    have hd := (List.takeWhile_prefix (l := ds.reverse) _).eq_of_length hl
    rw [hd]
    simp
  · rfl

theorem bytes_take_lt {cs : List Char} {m n : Nat} (h : m < n) (hn : n ≤ cs.length) :
    bytes (cs.take m) < bytes (cs.take n) := by
  have hd : 0 < ((cs.take n).drop m).length := by
    rw [List.length_drop, List.length_take]
    omega
  have hl := length_le_bytes ((cs.take n).drop m)
  have hb := congrArg bytes (List.take_append_drop m (cs.take n))
  rw [List.take_take, Nat.min_eq_left (Nat.le_of_lt h), bytes_append] at hb
  omega

end Text

namespace Place

open Text (bytes lastLine)

/-- The byte with which the line behind `n` newlines starts. -/
def lineStart : Nat → List Char → Nat
  | 0, _ => 0
  | n + 1, cs =>
    bytes (cs.takeWhile (· ≠ '\n')) + 1 + lineStart n (cs.dropWhile (· ≠ '\n')).tail

/-- The byte of a text that a place denotes, counted from zero. -/
def offset (text : List Char) (p : Place) : Nat := lineStart (p.line - 1) text + (p.column - 1)

theorem lineStart_count (before after : List Char) :
    lineStart (before.count '\n') (before ++ after) + bytes (lastLine before) = bytes before := by
  induction before using Text.lines_induction with
  | last cs h => simp [List.count_eq_zero.2 h, lineStart, Text.lastLine_line h]
  | line cs ds h ih =>
    have hn : (cs ++ '\n' :: ds).count '\n' = ds.count '\n' + 1 := by
      simp [List.count_eq_zero.2 h]
    have hb : bytes (cs ++ '\n' :: ds) = bytes cs + 1 + bytes ds := by
      simp only [Text.bytes_append, Text.bytes_cons, Nat.add_assoc]
      rfl
    rw [hn, hb, Text.lastLine_append_newline, lineStart, List.append_assoc, List.cons_append,
      Text.takeWhile_line h, Text.dropWhile_line h, ← ih]
    simp [Nat.add_assoc]

@[simp] theorem offset_behind (before after : List Char) :
    (behind before).offset (before ++ after) = bytes before := by
  simpa [offset, behind] using lineStart_count before after

theorem offset_behind_take (before text after : List Char) (n : Nat) :
    (behind (before ++ text.take n)).offset (before ++ (text ++ after)) =
      bytes before + bytes (text.take n) := by
  have hs : before ++ (text ++ after) = before ++ text.take n ++ (text.drop n ++ after) := by
    rw [← List.append_assoc _ (text.drop n), List.append_assoc before, List.take_append_drop,
      List.append_assoc]
  rw [hs, offset_behind, Text.bytes_append]

/-- Lines and columns count from one, so they are at most one above the byte of their place. -/
theorem behind_le_succ (before : List Char) :
    (behind before).line ≤ bytes before + 1 ∧ (behind before).column ≤ bytes before + 1 := by
  have hn : before.count '\n' ≤ bytes before :=
    Nat.le_trans List.count_le_length (Text.length_le_bytes before)
  have hc : bytes (lastLine before) ≤ bytes before := Text.bytes_lastLine_le before
  simp only [behind]
  omega

end Place

namespace Source

open Text (lastLine)

/-- The line behind the newlines of a text is its last line and what completes it. -/
theorem lineAfter_count (before after : List Char) :
    lineAfter (before.count '\n') (before ++ after)
      = some (lastLine before ++ after.takeWhile (· ≠ '\n')) := by
  induction before using Text.lines_induction with
  | last cs h =>
    rw [List.count_eq_zero.2 h, lineAfter, Text.lastLine_line h, Text.takeWhile_line h]
  | line cs ds h ih =>
    have hn : (cs ++ '\n' :: ds).count '\n' = ds.count '\n' + 1 := by
      simp [List.count_eq_zero.2 h]
    rw [hn, Text.lastLine_append_newline, lineAfter, List.append_assoc, List.cons_append,
      Text.dropWhile_line h, ← ih]
    simp

theorem line?_behind {text : String} {before after : List Char}
    (h : text.toList = before ++ after) :
    (line? text (Place.behind before).line).isSome := by
  simp [Place.behind, Nat.add_comm 1, line?, h, lineAfter_count]

end Source

end FrontEnd
