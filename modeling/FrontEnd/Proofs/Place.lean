import FrontEnd.Position

/-!
The place behind a text, said by counting: newlines for the line, bytes behind the last newline
for the column. Stepping through the text character by character ends there.
-/

set_option autoImplicit false

namespace FrontEnd

/-! ### Bytes -/

/-- The number of bytes of the UTF-8 form of a text. -/
def Text.bytes (cs : List Char) : Nat := (String.ofList cs).utf8ByteSize

namespace Text

@[simp] theorem bytes_nil : bytes [] = 0 := rfl

@[simp] theorem bytes_append (cs ds : List Char) : bytes (cs ++ ds) = bytes cs + bytes ds := by
  simp [bytes]

@[simp] theorem bytes_cons (c : Char) (cs : List Char) :
    bytes (c :: cs) = c.utf8Size + bytes cs := by
  simp [bytes, String.ofList_cons]

@[simp] theorem bytes_reverse (cs : List Char) : bytes cs.reverse = bytes cs := by
  induction cs with
  | nil => rfl
  | cons c cs ih => simp [ih, Nat.add_comm]

@[simp] theorem bytes_toList (s : String) : bytes s.toList = s.utf8ByteSize := by
  simp [bytes]

theorem length_le_bytes (cs : List Char) : cs.length ≤ bytes cs := by
  induction cs with
  | nil => simp
  | cons c cs ih =>
    have hc := c.utf8Size_pos
    simp only [List.length_cons, bytes_cons]
    omega

/-- The text behind the last newline. -/
def lastLine (cs : List Char) : List Char := (cs.reverse.takeWhile (· ≠ '\n')).reverse

@[simp] theorem lastLine_newline (cs : List Char) : lastLine (cs ++ ['\n']) = [] := by
  simp [lastLine]

theorem lastLine_snoc {c : Char} (hc : c ≠ '\n') (cs : List Char) :
    lastLine (cs ++ [c]) = lastLine cs ++ [c] := by
  simp [lastLine, hc]

theorem bytes_lastLine_le (cs : List Char) : bytes (lastLine cs) ≤ bytes cs := by
  obtain ⟨ds, hd⟩ := List.takeWhile_prefix (l := cs.reverse) (fun c => decide (c ≠ '\n'))
  have hb := congrArg bytes hd
  rw [bytes_append, bytes_reverse] at hb
  rw [lastLine, bytes_reverse]
  omega

end Text

/-! ### The place behind a text -/

namespace Place

open Text (bytes lastLine)

/-- One line more than there are newlines, and one column more than there are bytes behind the
last of them. -/
def behind (cs : List Char) : Place := ⟨1 + cs.count '\n', 1 + bytes (lastLine cs)⟩

theorem behind_snoc (cs : List Char) (c : Char) : behind (cs ++ [c]) = (behind cs).step c := by
  by_cases hc : c = '\n'
  · subst hc
    simp [behind, step, Nat.add_assoc]
  · simp [behind, step, hc, Text.lastLine_snoc hc, Nat.add_assoc]

theorem behind_append (cs ds : List Char) : behind (cs ++ ds) = (behind cs).after ds := by
  induction ds generalizing cs with
  | nil => simp
  | cons d ds ih =>
    have h := ih (cs ++ [d])
    rw [behind_snoc, List.append_assoc] at h
    exact h

theorem start_after (cs : List Char) : start.after cs = behind cs := by
  exact (behind_append [] cs).symm

/-- A place inside a text is within the number of its bytes. -/
theorem behind_le (cs : List Char) {ds : List Char} (hd : ds ≠ []) :
    (behind cs).line ≤ bytes (cs ++ ds) ∧ (behind cs).column ≤ bytes (cs ++ ds) := by
  have hp : 0 < ds.length := List.length_pos_iff.2 hd
  have hl : ds.length ≤ bytes ds := Text.length_le_bytes ds
  have hn : cs.count '\n' ≤ bytes cs := Nat.le_trans List.count_le_length (Text.length_le_bytes cs)
  have hc : bytes (lastLine cs) ≤ bytes cs := Text.bytes_lastLine_le cs
  simp only [behind, Text.bytes_append]
  omega

end Place

end FrontEnd
