import FrontEnd.Proofs.Clause.Soundness
import FrontEnd.Proofs.FirstMismatch

/-!
The values of enum members. A member with a literal has the value of the literal. One without has
the value that comes behind that of the member before it, or zero if it is the first. Values have 64
bits: behind the greatest comes the least one, and only there do members not count upwards.
-/

set_option autoImplicit false

namespace FrontEnd

/-! ### The integer that comes next -/

namespace Number

theorem toInt_succ (n : Int64) :
    (n + 1).toInt = if n = Int64.maxValue then Int64.minValue.toInt else n.toInt + 1 := by
  split
  · rename_i h
    rw [h]
    rfl
  · rename_i h
    have hne : n.toInt ≠ Int64.maxValue.toInt := fun he => h (Int64.toInt_inj.1 he)
    have hle := n.le_toInt
    have hlt := n.toInt_le
    rw [Int64.toInt_maxValue] at hne hlt
    rw [Int64.toInt_add, Int64.toInt_one, Int.bmod_eq_of_le (by omega) (by omega)]

/-- Counting goes up by one, except from the greatest integer. -/
theorem toInt_succ_eq_iff {n : Int64} : (n + 1).toInt = n.toInt + 1 ↔ n ≠ Int64.maxValue := by
  rw [toInt_succ]
  split
  · rename_i h
    rw [h]
    decide
  · rename_i h
    exact iff_of_true rfl h

/-- A number of 64 bits is the number that is written. -/
theorem integer?_of_int64? {text : String} {n : Int64} (h : int64? text = some n) :
    integer? text.toList = some n.toInt := by
  obtain ⟨m, hm, hn⟩ := Option.bind_eq_some_iff.1 h
  split at hn
  · rename_i hb
    rw [Int64.toInt_minValue, Int64.toInt_maxValue] at hb
    obtain rfl := Option.some.inj hn
    rw [hm, Int64.toInt_ofInt_of_le hb.1 (by omega)]
  · cases hn

end Number

namespace Grammar

/-! ### Declarations -/

/-- An enum member as it is written: its name, and the literal behind an equals sign, if any. -/
structure Declaration where
  name : Token
  literal? : Option Token
deriving DecidableEq, Repr

/-- The literal behind an equals sign at the front. -/
def literal? : List Token → Option Token
  | o :: i :: _ => if o.kind = .equals then some i else none
  | _ => none

/-- The declarations of enum members among tokens, each from its name on. -/
def declarations : List Token → List Declaration
  | [] => []
  | t :: ts =>
    if t.kind = .identifier then ⟨t, literal? ts⟩ :: declarations ts else declarations ts

theorem declarations_of_name {n : Token} (hn : n.kind = .identifier) (ts : List Token) :
    declarations (n :: ts) = ⟨n, literal? ts⟩ :: declarations ts := by
  rw [declarations, if_pos hn]

theorem declarations_of_ne {t : Token} (ht : t.kind ≠ .identifier) (ts : List Token) :
    declarations (t :: ts) = declarations ts := by
  rw [declarations, if_neg ht]

theorem literal?_of_ne {t : Token} (ht : t.kind ≠ .equals) (ts : List Token) :
    literal? (t :: ts) = none := by
  cases ts with
  | nil => rfl
  | cons u us => rw [literal?, if_neg ht]

theorem literal?_of_equals {o : Token} (ho : o.kind = .equals) (i : Token) (ts : List Token) :
    literal? (o :: i :: ts) = some i := by
  rw [literal?, if_pos ho]

/-! ### Counting -/

/-- The members of the declarations, with the value `next` for one without a literal at the front,
and each later one counted on from the member before it. -/
inductive Counts : Int64 → List Declaration → List EnumMember → Prop where
  | nil {next : Int64} : Counts next [] []
  | cons {next : Int64} {d : Declaration} {m : EnumMember} {ds : List Declaration}
      {ms : List EnumMember} :
    m.name = d.name.value →
    (∀ literal, d.literal? = some literal → Number.int64? literal.value = some m.value) →
    (d.literal? = none → m.value = next) →
    Counts (m.value + 1) ds ms → Counts next (d :: ds) (m :: ms)

/-- The declaration at the front of a member's tokens is the member's. -/
theorem Member.counts {next : Int64} {w v : List Token} {m : EnumMember} (h : Member next w m)
    (hv : literal? v = none) {ms : List EnumMember}
    (hms : Counts (m.value + 1) (declarations v) ms) :
    Counts next (declarations (w ++ v)) (m :: ms) := by
  cases h with
  | counted hn =>
    rw [List.singleton_append, declarations_of_name hn, hv]
    exact .cons rfl (fun _ h => by cases h) (fun _ => rfl) hms
  | valued hn ho hi hvalue =>
    rename_i n o i value
    have hw : declarations ([n, o, i] ++ v) = ⟨n, some i⟩ :: declarations v := by
      rw [List.cons_append, declarations_of_name hn, List.cons_append,
        declarations_of_ne (by simp [ho]), List.cons_append, declarations_of_ne (by simp [hi]),
        List.nil_append, literal?_of_equals ho]
    rw [hw]
    exact .cons rfl (fun _ h => Option.some.inj h ▸ hvalue) (fun h => by cases h) hms

theorem Members.counts {next : Int64} {w : List Token} {ms : List EnumMember}
    (h : Members next w ms) : Counts next (declarations w) ms := by
  induction h with
  | nil => exact .nil
  | last hm => simpa using hm.counts (v := []) rfl .nil
  | more hm ho _ ih =>
    refine hm.counts (literal?_of_ne (by simp [ho]) _) ?_
    rwa [declarations_of_ne (by simp [ho])]

theorem Counts.names {next : Int64} {ds : List Declaration} {ms : List EnumMember}
    (h : Counts next ds ms) : ms.map (·.name) = ds.map (·.name.value) := by
  induction h with
  | nil => rfl
  | cons hn _ _ _ ih => rw [List.map_cons, List.map_cons, hn, ih]

/-- Wherever the declarations are split, the next member counts on from the one before it. -/
theorem Counts.split {next : Int64} {ds : List Declaration} {ms : List EnumMember}
    (h : Counts next ds ms) {before after : List (Declaration × EnumMember)} {d : Declaration}
    {m : EnumMember} (hs : ds.zip ms = before ++ (d, m) :: after) :
    (∀ literal, d.literal? = some literal → Number.int64? literal.value = some m.value) ∧
      (d.literal? = none → m.value = (before.getLast?.map (·.2.value + 1)).getD next) := by
  induction h generalizing before with
  | nil => simp at hs
  | cons _ hl hu _ ih =>
    rw [List.zip_cons_cons] at hs
    cases before with
    | nil =>
      obtain ⟨⟨rfl, rfl⟩, -⟩ := List.cons.inj hs
      exact ⟨hl, hu⟩
    | cons p before =>
      obtain ⟨rfl, hrest⟩ := List.cons.inj hs
      obtain ⟨hliteral, hcount⟩ := ih hrest
      refine ⟨hliteral, fun hd => (hcount hd).trans ?_⟩
      rw [List.getLast?_cons]
      cases before.getLast? <;> rfl

/-! ### The values of a declaration -/

theorem members_of_enumDecl {ts rest : List Token} {name : String} {ms : List EnumMember}
    (h : (enumDecl ts).Gives (.enumDecl name ms) rest) :
    ∃ n o w c, ts = n :: o :: (w ++ c :: rest) ∧ n.kind = .identifier ∧ n.value = name ∧
      o.kind = .lBrace ∧ Members 0 w ms ∧ c.kind = .rBrace := by
  obtain ⟨v, rfl, hv⟩ := (enumDecl_meets (k := bareToken .kwEnum) rfl ts).of_gives h
  generalize hs : Stmt.enumDecl name ms = s at hv
  generalize hv' : bareToken .kwEnum :: v = v' at hv
  cases hv with
  | enumDecl hk hn ho hw hc =>
    rename_i k n o c w ms'
    cases hs
    obtain ⟨-, rfl⟩ := List.cons.inj hv'
    exact ⟨n, o, w, c, by simp, hn, rfl, ho, hw, hc⟩
  | namespaceDecl =>
    rename_i inner body _ _ _
    cases inner <;> cases hs
  | _ => cases hs

/-- The values as they are documented, in unbounded integers: a literal gives its value, and where
there is none the values go up by one, from zero on. -/
def CountsUp (ds : List Declaration) (ms : List EnumMember) : Prop :=
  ∀ before d m after, ds.zip ms = before ++ (d, m) :: after →
    (∀ literal, d.literal? = some literal →
      Number.integer? literal.value.toList = some m.value.toInt) ∧
    (d.literal? = none →
      m.value.toInt = (before.getLast?.map (·.2.value.toInt + 1)).getD 0 ∧
      ∀ p ∈ before.getLast?, p.2.value < m.value)

theorem Counts.countsUp_iff {ds : List Declaration} {ms : List EnumMember} (h : Counts 0 ds ms) :
    CountsUp ds ms ↔ ∀ before p d m after, ds.zip ms = before ++ p :: (d, m) :: after →
      d.literal? = none → p.2.value ≠ Int64.maxValue := by
  constructor
  · intro hup before p d m after hs hd
    have hs' : ds.zip ms = (before ++ [p]) ++ (d, m) :: after := by simpa using hs
    obtain ⟨hup, -⟩ := (hup _ d m after hs').2 hd
    have hvalue := (h.split hs').2 hd
    rw [List.getLast?_concat, Option.map_some, Option.getD_some] at hup hvalue
    rwa [hvalue, Number.toInt_succ_eq_iff] at hup
  · intro hmax before d m after hs
    obtain ⟨hliteral, hcount⟩ := h.split hs
    refine ⟨fun literal hl => Number.integer?_of_int64? (hliteral literal hl), fun hd => ?_⟩
    have hvalue := hcount hd
    cases hlast : before.getLast? with
    | none =>
      rw [hlast] at hvalue
      exact ⟨by rw [hvalue]; rfl, fun p hp => by cases hp⟩
    | some p =>
      obtain ⟨front, rfl⟩ := List.getLast?_eq_some_iff.1 hlast
      have hup := Number.toInt_succ_eq_iff.2 (hmax front p d m after (by rw [hs]; simp) hd)
      rw [hlast, Option.map_some, Option.getD_some] at hvalue
      rw [hvalue]
      refine ⟨hup, ?_⟩
      rintro _ ⟨⟩
      rw [Int64.lt_iff_toInt_lt, hup]
      omega

namespace Session

theorem gives_of_take {α : Type} {s s' : Session} {r : Run α s.ahead.length} {value : α}
    (h : s.take r = (.ok value, s')) : r.outcome.Gives value s'.ahead := by
  unfold take at h
  split at h
  · rename_i he
    cases h
    rw [he]
    rfl
  · cases h

theorem gives_of_enumDecl {s s' : Session} {statement : Stmt}
    (h : s.byRule .enumDecl = (.ok statement, s')) :
    (enumDecl s.ahead.tail).Gives statement s'.ahead := by
  have hg : (Grammar.byRule s.rules .enumDecl s.ahead).outcome.Gives statement s'.ahead :=
    gives_of_take h
  rw [Grammar.byRule] at hg
  revert hg
  cases s.ahead with
  | nil => exact id
  | cons k ts => exact fun hg => (Parsed.result_loose _).symm.trans hg

/-- The members of an enum that is read have the names and the literals that are declared between
its braces. Where a member has no literal, its value is zero if it is the first, and one more than
the value before it unless that is the greatest of all, behind which comes the least. So the values
count upwards as long as no member without a literal follows one with the greatest value. -/
theorem byRule_enumDecl {s s' : Session} {name : String} {ms : List EnumMember}
    (h : s.byRule .enumDecl = (.ok (.enumDecl name ms), s')) :
    ∃ k n o w c, s.ahead = k :: n :: o :: (w ++ c :: s'.ahead) ∧ n.kind = .identifier ∧
      n.value = name ∧ o.kind = .lBrace ∧ Members 0 w ms ∧ c.kind = .rBrace ∧
      ms.map (·.name) = (declarations w).map (·.name.value) ∧
      (∀ before d m after, (declarations w).zip ms = before ++ (d, m) :: after →
        (∀ literal, d.literal? = some literal →
          Number.integer? literal.value.toList = some m.value.toInt) ∧
        (d.literal? = none → m.value.toInt =
          match before.getLast? with
          | none => 0
          | some p =>
            if p.2.value = Int64.maxValue then Int64.minValue.toInt else p.2.value.toInt + 1)) ∧
      (CountsUp (declarations w) ms ↔ ∀ before p d m after,
        (declarations w).zip ms = before ++ p :: (d, m) :: after → d.literal? = none →
          p.2.value ≠ Int64.maxValue) := by
  obtain ⟨n, o, w, c, hts, hn, hname, ho, hw, hc⟩ := members_of_enumDecl (gives_of_enumDecl h)
  have hcounts := hw.counts
  obtain ⟨k, ts, ha⟩ : ∃ k ts, s.ahead = k :: ts := by
    refine List.exists_cons_of_ne_nil fun hnil => ?_
    rw [hnil] at hts
    cases hts
  rw [ha, List.tail_cons] at hts
  refine ⟨k, n, o, w, c, by rw [ha, hts], hn, hname, ho, hw, hc, hcounts.names, ?_,
    hcounts.countsUp_iff⟩
  intro before d m after hs
  obtain ⟨hliteral, hcount⟩ := hcounts.split hs
  refine ⟨fun literal hl => Number.integer?_of_int64? (hliteral literal hl), fun hd => ?_⟩
  rw [hcount hd]
  cases before.getLast? with
  | none => rfl
  | some p => exact Number.toInt_succ p.2.value

/-- `enum E { A, B = 7, C }`. -/
def countedTokens : List Token :=
  [bareToken .kwEnum, ⟨.identifier, "E", .null⟩, bareToken .lBrace, ⟨.identifier, "A", .null⟩,
    bareToken .comma, ⟨.identifier, "B", .null⟩, bareToken .equals, ⟨.integer, "7", .null⟩,
    bareToken .comma, ⟨.identifier, "C", .null⟩, bareToken .rBrace]

theorem byRule_enumDecl_countedTokens :
    (ofTokens countedTokens).byRule .enumDecl =
        (.ok (.enumDecl "E" [⟨"A", 0⟩, ⟨"B", 7⟩, ⟨"C", 8⟩]),
          { ofTokens countedTokens with ahead := [] }) ∧
      ∃ w, Members 0 w [⟨"A", 0⟩, ⟨"B", 7⟩, ⟨"C", 8⟩] ∧
        CountsUp (declarations w) [⟨"A", 0⟩, ⟨"B", 7⟩, ⟨"C", 8⟩] := by
  have h : (ofTokens countedTokens).byRule .enumDecl =
      (.ok (.enumDecl "E" [⟨"A", 0⟩, ⟨"B", 7⟩, ⟨"C", 8⟩]),
        { ofTokens countedTokens with ahead := [] }) := by
    with_unfolding_all rfl
  obtain ⟨k, n, o, w, c, -, -, -, -, hw, -, -, -, hup⟩ := byRule_enumDecl h
  refine ⟨h, w, hw, hup.2 fun before p d m after hs _ => ?_⟩
  have hmax : ∀ m ∈ [(⟨"A", 0⟩ : EnumMember), ⟨"B", 7⟩, ⟨"C", 8⟩], m.value ≠ Int64.maxValue := by
    decide
  have hp : p ∈ (declarations w).zip [(⟨"A", 0⟩ : EnumMember), ⟨"B", 7⟩, ⟨"C", 8⟩] := by
    rw [hs]
    simp
  exact hmax p.2 (List.of_mem_zip hp).2

/-- `enum E { A = 9223372036854775807, B }`. -/
def limitTokens : List Token :=
  [bareToken .kwEnum, ⟨.identifier, "E", .null⟩, bareToken .lBrace, ⟨.identifier, "A", .null⟩,
    bareToken .equals, ⟨.integer, "9223372036854775807", .null⟩, bareToken .comma,
    ⟨.identifier, "B", .null⟩, bareToken .rBrace]

/-- Behind the greatest value, the values start again from the least one. -/
theorem limitTokens_not_countsUp :
    (ofTokens limitTokens).byRule .enumDecl =
        (.ok (.enumDecl "E" [⟨"A", Int64.maxValue⟩, ⟨"B", Int64.minValue⟩]),
          { ofTokens limitTokens with ahead := [] }) ∧
      ¬ CountsUp (declarations ((limitTokens.drop 3).take 5))
        [⟨"A", Int64.maxValue⟩, ⟨"B", Int64.minValue⟩] := by
  refine ⟨by with_unfolding_all rfl, fun h => ?_⟩
  have hup := ((h [_] _ _ [] rfl).2 rfl).1
  revert hup
  decide

end Session

end Grammar

end FrontEnd
