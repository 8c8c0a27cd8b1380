/-!
Plain text: what is left of a text when its reader is no terminal. Control characters other than
white space are taken out, and so are terminal sequences, which begin with an escape character and
run to an end of their own. Nothing is added and nothing is moved.
-/

set_option autoImplicit false

namespace FrontEnd.Text

/-- The white space among the control characters. -/
def isSpacing (c : Char) : Bool := c = '\t' || c = '\n' || c = '\x0c' || c = '\r'

/-- A character of plain text: white space, or no control character of ASCII. -/
def isPlain (c : Char) : Bool := isSpacing c || (' ' ≤ c && c ≠ '\x7f')

/-- How far a terminal sequence has come: the escape character alone or with intermediate
characters behind it, a control sequence, the header of a device control string, a string, or an
operating system command. -/
inductive Sequence where
  | escape | intermediate | control | device | deviceParameter | deviceIntermediate | string
  | command
deriving DecidableEq, Repr

namespace Sequence

/-- The byte that ends a string. -/
def terminator : UInt8 := 0x9c

/-- The sequence behind one more character; none has come to its end. A character that has no
place in the sequence is passed over. -/
def next? (s : Sequence) (c : Char) : Option Sequence :=
  let upTo (first last : Char) : Bool := first ≤ c && c ≤ last
  match s with
  | .escape =>
    if upTo ' ' '/' then some .intermediate
    else if c = '[' then some .control
    else if c = ']' then some .command
    else if c = 'P' then some .device
    else if c = 'X' || c = '^' || c = '_' then some .string
    else if upTo '0' '~' then none
    else some .escape
  | .intermediate => if upTo '0' '~' then none else some .intermediate
  | .control => if upTo '@' '~' then none else some .control
  | .device =>
    if upTo ' ' '/' then some .deviceIntermediate
    else if upTo '0' '?' then some .deviceParameter
    else if upTo '@' '~' then some .string
    else some .device
  | .deviceParameter =>
    if upTo ' ' '/' then some .deviceIntermediate
    else if upTo '<' '~' then some .string
    else some .deviceParameter
  | .deviceIntermediate => if upTo '0' '~' then some .string else some .deviceIntermediate
  | .string => if terminator ∈ String.utf8EncodeChar c then none else some .string
  | .command => if c = '\x07' then none else some .command

/-- Whether white space inside the sequence belongs to the text. -/
def yieldsSpacing : Sequence → Bool
  | .escape | .intermediate | .control => true
  | _ => false

end Sequence

/-- Where the reading of a text stands. White space suspends a sequence: what follows is text up to
a control character, which takes the sequence up again, or up to a character beyond ASCII, which
leaves it for good. -/
inductive Mode where
  | text
  | inside (s : Sequence)
  | suspended (s : Sequence)
deriving DecidableEq, Repr

/-- Whether a character is kept, and the mode behind it. An escape character begins a sequence
anywhere, and a cancel or substitute character ends one. -/
def Mode.step (mode : Mode) (c : Char) : Bool × Mode :=
  if c = '\x1b' then (false, .inside .escape)
  else if c = '\x18' || c = '\x1a' then (false, .text)
  else
    match mode with
    | .text => (isPlain c, .text)
    | .inside s =>
      if isSpacing c && s.yieldsSpacing then (true, .suspended s)
      else (false, ((s.next? c).map Mode.inside).getD .text)
    | .suspended s =>
      if !isPlain c then (false, .inside s)
      else (true, if c ≤ '~' then .suspended s else .text)

/-- The characters that are kept from a mode on. -/
def Mode.plain (mode : Mode) : List Char → List Char
  | [] => []
  | c :: rest =>
    match mode.step c with
    | (true, mode) => c :: mode.plain rest
    | (false, mode) => mode.plain rest

/-- A text without terminal sequences and control characters. -/
def plain (cs : List Char) : List Char := Mode.text.plain cs

theorem Mode.plain_sublist (mode : Mode) (cs : List Char) : (mode.plain cs).Sublist cs := by
  induction cs generalizing mode with
  | nil => simp [Mode.plain]
  | cons c rest ih =>
    rw [Mode.plain]
    split
    · exact (ih _).cons_cons c
    · exact (ih _).cons c

theorem plain_sublist (cs : List Char) : (plain cs).Sublist cs := Mode.plain_sublist .text cs

theorem Mode.step_text {c : Char} (h : isPlain c = true) : Mode.text.step c = (true, .text) := by
  have hc : c ≠ '\x1b' ∧ c ≠ '\x18' ∧ c ≠ '\x1a' := by
    refine ⟨?_, ?_, ?_⟩ <;> (intro e; subst e; exact absurd h (by decide))
  simp [Mode.step, hc, h]

/-- A text that is plain stays as it is. -/
theorem plain_eq_self {cs : List Char} (h : ∀ c ∈ cs, isPlain c = true) : plain cs = cs := by
  induction cs with
  | nil => rfl
  | cons c rest ih =>
    have hc := Mode.step_text (h c (by simp))
    have hr := ih fun d hd => h d (by simp [hd])
    simpa [plain, Mode.plain, hc] using hr

end FrontEnd.Text
