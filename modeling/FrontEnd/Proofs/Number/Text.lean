import FrontEnd.Proofs.Lexical
import FrontEnd.Proofs.Number.Basin
import FrontEnd.Proofs.Writing
import FrontEnd.Tree.Outline

/-!
The text of a real number tells which one it is. A text is read as a sign and the decimal that the
digits write; the digits of a number write a decimal in its basin, and basins do not overlap.
-/

set_option autoImplicit false

namespace FrontEnd.Number

/-! ### Digits -/

theorem ofDigits_append (cs ds : List Char) :
    ofDigits (cs ++ ds) = ofDigits cs * 10 ^ ds.length + ofDigits ds := by
  have hfold (n : Nat) (ds : List Char) :
      ds.foldl (fun n c => 10 * n + (c.toNat - '0'.toNat)) n
        = n * 10 ^ ds.length + ofDigits ds := by
    induction ds generalizing n with
    | nil => simp [ofDigits]
    | cons d ds ih =>
      rw [ofDigits, List.foldl_cons, List.foldl_cons, ih, ih, List.length_cons, Nat.pow_succ]
      ring
  rw [ofDigits, List.foldl_append, hfold]
  rfl

namespace Binary64

theorem ofDigits_zeros (count : Nat) : ofDigits (zeros count) = 0 := by
  induction count with
  | zero => rfl
  | succ count ih =>
    rw [zeros, List.replicate_succ', ofDigits_append]
    change ofDigits (zeros count) * 10 ^ 1 + 0 = 0
    omega

theorem isDigit_of_mem_zeros {count : Nat} {c : Char} (h : c ∈ zeros count) : isDigit c := by
  rw [(List.mem_replicate.1 h).2]
  decide

/-- The zeros at the end of a decimal are left out. -/
theorem exists_zeros (d : Decimal) :
    ∃ count, Nat.toDigits 10 d.digits = significantDigits d ++ zeros count := by
  refine ⟨((Nat.toDigits 10 d.digits).reverse.takeWhile (· = '0')).length, ?_⟩
  have hall : ∀ c ∈ (Nat.toDigits 10 d.digits).reverse.takeWhile (· = '0'), c = '0' :=
    fun c hc => of_decide_eq_true (List.all_eq_true.1 List.all_takeWhile c hc)
  have hz : (Nat.toDigits 10 d.digits).reverse.takeWhile (· = '0') =
      zeros ((Nat.toDigits 10 d.digits).reverse.takeWhile (· = '0')).length := by
    rw [zeros, List.eq_replicate_iff]
    exact ⟨rfl, hall⟩
  calc
    Nat.toDigits 10 d.digits
      = ((Nat.toDigits 10 d.digits).reverse.takeWhile (· = '0') ++
          (Nat.toDigits 10 d.digits).reverse.dropWhile (· = '0')).reverse := by
        rw [List.takeWhile_append_dropWhile, List.reverse_reverse]
    _ = significantDigits d
        ++ ((Nat.toDigits 10 d.digits).reverse.takeWhile (· = '0')).reverse := by
        rw [List.reverse_append]
        rfl
    _ = _ := by
        conv_lhs => rw [hz, zeros, List.reverse_replicate]
        rfl

theorem isDigit_of_mem_significantDigits {d : Decimal} {c : Char} (h : c ∈ significantDigits d) :
    isDigit c := by
  obtain ⟨count, hd⟩ := exists_zeros d
  have hn := natural?_toDigits d.digits
  rw [hd] at hn
  simp only [natural?] at hn
  split at hn
  · rename_i ha
    simp only [Bool.and_eq_true, List.all_append, List.all_eq_true] at ha
    exact ha.2.1 c h
  · cases hn

theorem value_append_zeros (cs : List Char) (count : Nat) (exponent : Int) :
    (⟨ofDigits (cs ++ zeros count), exponent⟩ : Decimal).value =
      (⟨ofDigits cs, count + exponent⟩ : Decimal).value := by
  rw [ofDigits_append, ofDigits_zeros, zeros, List.length_replicate, Nat.add_zero]
  unfold Decimal.value
  rw [zpow_add₀ (by norm_num), zpow_natCast, ← mul_assoc]
  push_cast
  rfl

/-- The digits that are left write the same number on a coarser grid. -/
theorem value_significantDigits (d : Decimal) :
    (⟨ofDigits (significantDigits d), d.exponent + (Nat.toDigits 10 d.digits).length
        - (significantDigits d).length⟩ : Decimal).value = d.value := by
  obtain ⟨count, hd⟩ := exists_zeros d
  have hn : ofDigits (Nat.toDigits 10 d.digits) = d.digits := Nat.ofDigitChars_ten_toDigits
  have hlen := congrArg List.length hd
  simp only [zeros, List.length_append, List.length_replicate] at hlen
  have he : d.exponent + ((Nat.toDigits 10 d.digits).length : Int) - (significantDigits d).length
      = count + d.exponent := by omega
  rw [he, ← value_append_zeros, ← hd, hn]

/-! ### Reading a decimal -/

/-- Reads digits with at most one point among them, then an exponent. -/
def scientific? (cs : List Char) : Option Decimal :=
  match cs.dropWhile isDigit with
  | '.' :: rest =>
    (exponent? (rest.dropWhile isDigit)).map fun exponent =>
      ⟨ofDigits (cs.takeWhile isDigit ++ rest.takeWhile isDigit),
        exponent - (rest.takeWhile isDigit).length⟩
  | rest => (exponent? rest).map fun exponent => ⟨ofDigits (cs.takeWhile isDigit), exponent⟩

theorem head_of_exponent? {cs : List Char} {exponent : Int} (h : exponent? cs = some exponent) :
    ∀ c ∈ cs.head?, c = 'e' ∨ c = 'E' := by
  intro c hc
  cases cs with
  | nil => simp at hc
  | cons d cs =>
    obtain rfl : d = c := by simpa using hc
    unfold exponent? at h
    dsimp only at h
    by_cases hm : (decide (d = 'e') || decide (d = 'E')) = true
    · simpa using hm
    · rw [if_neg hm] at h
      cases h

/-- A run of digits ends where an exponent may start. -/
theorem digits_before {cs tail : List Char} {exponent : Int} (hcs : ∀ c ∈ cs, isDigit c)
    (ht : exponent? tail = some exponent) :
    (cs ++ tail).takeWhile isDigit = cs ∧ (cs ++ tail).dropWhile isDigit = tail := by
  apply Segment.run_append hcs
  intro c hc
  rcases head_of_exponent? ht c hc with rfl | rfl <;> decide

theorem scientific?_whole {cs tail : List Char} {exponent : Int} (hcs : ∀ c ∈ cs, isDigit c)
    (ht : exponent? tail = some exponent) :
    scientific? (cs ++ tail) = some ⟨ofDigits cs, exponent⟩ := by
  obtain ⟨htake, hdrop⟩ := digits_before hcs ht
  have hh := head_of_exponent? ht
  unfold scientific?
  rw [htake, hdrop]
  split
  · simp at hh
  · simp [ht]

theorem scientific?_point {cs ds tail : List Char} {exponent : Int} (hcs : ∀ c ∈ cs, isDigit c)
    (hds : ∀ d ∈ ds, isDigit d) (ht : exponent? tail = some exponent) :
    scientific? (cs ++ '.' :: (ds ++ tail)) =
      some ⟨ofDigits (cs ++ ds), exponent - ds.length⟩ := by
  obtain ⟨htake, hdrop⟩ := digits_before hds ht
  have hpoint : ∀ c ∈ ('.' :: (ds ++ tail)).head?, isDigit c = false := by simp [isDigit]
  obtain ⟨hwhole, hrest⟩ := Segment.run_append hcs hpoint
  unfold scientific?
  rw [hwhole, hrest]
  simp [htake, hdrop, ht]

theorem exponent?_toString (n : Int) : exponent? ('e' :: (toString n).toList) = some n :=
  integer?_toString n

theorem isDigit_of_natural? {cs : List Char} {n : Nat} (h : natural? cs = some n) :
    ∀ c ∈ cs, isDigit c := by
  unfold natural? at h
  split at h
  · rename_i hd
    simp only [Bool.and_eq_true, List.all_eq_true] at hd
    exact hd.2
  · cases h

theorem mem_of_exponent? {cs : List Char} {exponent : Int} (h : exponent? cs = some exponent) :
    ∀ c ∈ cs, isDigit c ∨ c ∈ ['.', 'e', 'E', '+', '-'] := by
  have hhead := head_of_exponent? h
  cases cs with
  | nil => simp
  | cons mark cs =>
    have hmark : mark ∈ ['.', 'e', 'E', '+', '-'] := by
      rcases hhead mark rfl with rfl | rfl <;> decide
    have hm : (decide (mark = 'e') || decide (mark = 'E')) = true := by simpa using hhead mark rfl
    unfold exponent? at h
    dsimp only at h
    rw [if_pos hm] at h
    refine List.forall_mem_cons.2 ⟨.inr hmark, ?_⟩
    split at h
    · obtain ⟨n, hn, -⟩ := Option.map_eq_some_iff.1 h
      exact List.forall_mem_cons.2 ⟨by decide, fun c hc => .inl (isDigit_of_natural? hn c hc)⟩
    · obtain ⟨n, hn, -⟩ := Option.map_eq_some_iff.1 h
      exact List.forall_mem_cons.2 ⟨by decide, fun c hc => .inl (isDigit_of_natural? hn c hc)⟩
    · obtain ⟨n, hn, -⟩ := Option.map_eq_some_iff.1 h
      exact fun c hc => .inl (isDigit_of_natural? hn c hc)

/-- A text that is read holds digits, points, marks of exponents and signs only. -/
theorem mem_of_scientific? {cs : List Char} {d : Decimal} (h : scientific? cs = some d) :
    ∀ c ∈ cs, isDigit c ∨ c ∈ ['.', 'e', 'E', '+', '-'] := by
  have hrun (ds : List Char) : ∀ c ∈ ds.takeWhile isDigit, isDigit c :=
    List.all_eq_true.1 List.all_takeWhile
  have hsplit {ds : List Char}
      (hd : ∀ c ∈ ds.dropWhile isDigit, isDigit c ∨ c ∈ ['.', 'e', 'E', '+', '-']) :
      ∀ c ∈ ds, isDigit c ∨ c ∈ ['.', 'e', 'E', '+', '-'] := by
    intro c hc
    rw [← List.takeWhile_append_dropWhile (p := isDigit) (l := ds)] at hc
    exact (List.mem_append.1 hc).elim (fun hc => .inl (hrun ds c hc)) (hd c)
  apply hsplit
  unfold scientific? at h
  split at h
  · rename_i rest hrest
    obtain ⟨exponent, he, -⟩ := Option.map_eq_some_iff.1 h
    rw [hrest]
    exact List.forall_mem_cons.2 ⟨by decide, hsplit (mem_of_exponent? he)⟩
  · obtain ⟨exponent, he, -⟩ := Option.map_eq_some_iff.1 h
    exact mem_of_exponent? he

/-! ### Layouts -/

section

variable {cs : List Char} (hcs : ∀ c ∈ cs, isDigit c)
include hcs

theorem scientific?_below_one (count : Nat) :
    scientific? ("0." ++ String.ofList (zeros count ++ cs)).toList =
      some ⟨ofDigits cs, -(count + cs.length)⟩ := by
  have hds : ∀ c ∈ zeros count ++ cs, isDigit c :=
    fun c hc => (List.mem_append.1 hc).elim isDigit_of_mem_zeros (hcs c)
  have hzero : ∀ c ∈ ['0'], isDigit c := by simp [isDigit]
  have hread : scientific? (['0'] ++ '.' :: (zeros count ++ cs ++ [])) = _ :=
    scientific?_point hzero hds rfl
  have hvalue : ofDigits (['0'] ++ (zeros count ++ cs)) = ofDigits cs := by
    rw [ofDigits_append, ofDigits_append, ofDigits_zeros]
    simp [ofDigits]
  rw [List.append_nil, hvalue] at hread
  simpa [zeros, Int.add_comm] using hread

theorem scientific?_whole_number (count : Nat) :
    scientific? (String.ofList (cs ++ zeros count) ++ ".0").toList =
      some ⟨ofDigits (cs ++ zeros (count + 1)), -1⟩ := by
  have hds : ∀ c ∈ cs ++ zeros count, isDigit c :=
    fun c hc => (List.mem_append.1 hc).elim (hcs c) isDigit_of_mem_zeros
  have hzero : ∀ c ∈ ['0'], isDigit c := by simp [isDigit]
  have hread : scientific? (cs ++ zeros count ++ '.' :: (['0'] ++ [])) = _ :=
    scientific?_point hds hzero rfl
  have hzeros : cs ++ zeros count ++ ['0'] = cs ++ zeros (count + 1) := by
    rw [List.append_assoc, zeros, zeros, List.replicate_succ']
  rw [hzeros] at hread
  rw [String.toList_append, String.toList_ofList]
  exact hread

theorem scientific?_mixed (place : Nat) :
    scientific? (String.ofList (cs.take place) ++ "." ++ String.ofList (cs.drop place)).toList =
      some ⟨ofDigits cs, -((cs.drop place).length : Int)⟩ := by
  have hread : scientific? (cs.take place ++ '.' :: (cs.drop place ++ [])) = _ :=
    scientific?_point (fun c hc => hcs c (List.mem_of_mem_take hc))
      (fun c hc => hcs c (List.mem_of_mem_drop hc)) rfl
  rw [List.take_append_drop, List.append_nil] at hread
  simpa using hread

theorem scientific?_exponent (exponent : Int) :
    ∃ d, scientific? (String.ofList (cs.take 1) ++
        (if cs.length ≤ 1 then "" else "." ++ String.ofList (cs.drop 1)) ++ "e" ++
          toString exponent).toList = some d ∧
      d.value = (⟨ofDigits cs, exponent + 1 - cs.length⟩ : Decimal).value := by
  have htail := exponent?_toString exponent
  split
  · rename_i hlen
    have hread : scientific? (cs ++ 'e' :: (toString exponent).toList) = _ :=
      scientific?_whole hcs htail
    refine ⟨⟨ofDigits cs, exponent⟩, ?_, ?_⟩
    · simpa [List.take_of_length_le hlen] using hread
    · cases cs with
      | nil => simp [ofDigits, Decimal.value]
      | cons c cs =>
        simp only [List.length_cons] at hlen ⊢
        congr 2
        omega
  · rename_i hlen
    have hread : scientific? (cs.take 1
        ++ '.' :: (cs.drop 1 ++ 'e' :: (toString exponent).toList)) = _ :=
      scientific?_point (fun c hc => hcs c (List.mem_of_mem_take hc))
        (fun c hc => hcs c (List.mem_of_mem_drop hc)) htail
    rw [List.take_append_drop, List.length_drop] at hread
    refine ⟨⟨ofDigits cs, exponent - (cs.length - 1 : Nat)⟩, by simpa using hread, ?_⟩
    congr 2
    omega

/-- However the digits are laid out, they are read as the number that they write. -/
theorem scientific?_digits (exponent : Int) :
    ∃ d, scientific? (realLayout.digits cs exponent).toList = some d ∧
      d.value = (⟨ofDigits cs, exponent + 1 - cs.length⟩ : Decimal).value := by
  have hplain : realLayout.plainFrom = -4 ∧ realLayout.plainBelow = 16 := ⟨rfl, rfl⟩
  unfold Layout.digits
  rw [hplain.1, hplain.2]
  split
  · rename_i hrange
    dsimp only
    split
    · refine ⟨_, scientific?_below_one hcs _, ?_⟩
      congr 2
      omega
    · split
      · rename_i hneg hlen
        refine ⟨_, scientific?_whole_number hcs _, ?_⟩
        rw [value_append_zeros]
        congr 2
        omega
      · rename_i hneg hlen
        refine ⟨_, scientific?_mixed hcs _, ?_⟩
        congr 2
        simp only [List.length_drop]
        omega
  · exact scientific?_exponent hcs exponent

end

/-! ### Texts -/

/-- Reads a sign and a decimal behind it; an infinity has none. -/
def signed? : List Char → Bool × Option Decimal
  | '-' :: cs => (true, scientific? cs)
  | cs => (false, scientific? cs)

theorem signed?_of_scientific? {cs : List Char} {d : Decimal} (h : scientific? cs = some d) :
    signed? cs = (false, some d) := by
  unfold signed?
  split
  · rename_i ds
    have hm : scientific? ('-' :: ds) = none := by
      simp [scientific?, isDigit, exponent?]
    rw [hm] at h
    cases h
  · rw [h]

/-- The decimal that a finite number shows is in its basin. -/
theorem exists_scientific? {x : Binary64} (hn : x.isNaN = false) (hi : x.isInfinite = false) :
    ∃ cs d, (x.text realLayout).toList = (if x.isNegative then ['-'] else []) ++ cs ∧
      scientific? cs = some d ∧ Within x.magnitude (quarters * d.value) := by
  unfold text
  simp only [hn, hi, Bool.false_eq_true, if_false]
  by_cases hz : x.isZero
  · have hzero : x.magnitude = 0 := by simpa [isZero] using hz
    have hread : scientific? ['0', '.', '0'] = some ⟨0, -1⟩ := rfl
    refine ⟨['0', '.', '0'], ⟨0, -1⟩, ?_, hread, ?_⟩
    · simp only [hz, if_true]
      rw [String.toList_append, String.toList_append, List.append_assoc]
      split <;> rfl
    · have hw : Within 0 0 := by
        rw [Within, if_pos (by decide)]
        exact ⟨by simp [show lowEnd 0 = 0 from rfl], Nat.cast_nonneg _⟩
      rw [hzero]
      simpa [Decimal.value] using hw
  · have hz : x.isZero = false := by simpa using hz
    obtain ⟨d, hd, hv⟩ := scientific?_digits
      (fun c hc => isDigit_of_mem_significantDigits (d := x.shortest) hc)
      (x.shortest.exponent + (Nat.toDigits 10 x.shortest.digits).length - 1)
    refine ⟨_, d, ?_, hd, ?_⟩
    · simp only [hz, Bool.false_eq_true, if_false]
      rw [String.toList_append]
      split <;> rfl
    · have hs := shortest_within hz
      rwa [← value_significantDigits, ← Int.sub_add_cancel (_ + _) 1, ← hv] at hs

theorem text_of_infinite {x : Binary64} (hn : x.isNaN = false) (hi : x.isInfinite) :
    (x.text realLayout).toList = (if x.isNegative then ['-'] else []) ++ ['i', 'n', 'f'] := by
  unfold text
  simp only [hn, hi, Bool.false_eq_true, if_false, if_true]
  rw [String.toList_append]
  split <;> rfl

/-- The text of a number tells its sign, whether it is finite, and a decimal in its basin. -/
theorem signed?_text {x : Binary64} (hn : x.isNaN = false) :
    (x.isInfinite ∧ signed? (x.text realLayout).toList = (x.isNegative, none)) ∨
      ∃ d, signed? (x.text realLayout).toList = (x.isNegative, some d) ∧
        Within x.magnitude (quarters * d.value) := by
  by_cases hi : x.isInfinite
  · refine .inl ⟨hi, ?_⟩
    rw [text_of_infinite hn hi]
    cases x.isNegative <;> rfl
  · obtain ⟨cs, d, ht, hs, hw⟩ := exists_scientific? hn (by simpa using hi)
    refine .inr ⟨d, ?_, hw⟩
    rw [ht]
    cases x.isNegative with
    | true => simp [signed?, hs]
    | false => exact signed?_of_scientific? hs

theorem eq_of_magnitude {x y : Binary64} (hm : x.magnitude = y.magnitude)
    (hs : x.isNegative = y.isNegative) : x = y := by
  obtain ⟨a⟩ := x
  obtain ⟨b⟩ := y
  have hs : signUnit ≤ a.toNat ↔ signUnit ≤ b.toNat := decide_eq_decide.1 hs
  simp only [magnitude, signUnit] at hm hs
  have ha := a.toNat_lt
  have hb := b.toNat_lt
  have hab : a.toNat = b.toNat := by omega
  rw [UInt64.toNat_inj.1 hab]

/-- Different numbers have different texts. -/
theorem text_injective {x y : Binary64} (hx : x.isNaN = false) (hy : y.isNaN = false)
    (h : x.text realLayout = y.text realLayout) : x = y := by
  have hsx := signed?_text hx
  have hsy := signed?_text hy
  rw [h] at hsx
  rcases hsx with ⟨hix, hsx⟩ | ⟨d, hsx, hwx⟩ <;> rcases hsy with ⟨hiy, hsy⟩ | ⟨d', hsy, hwy⟩ <;>
    rw [hsx, Prod.mk.injEq] at hsy
  · simp only [isInfinite, decide_eq_true_eq] at hix hiy
    exact eq_of_magnitude (hix.trans hiy.symm) hsy.1
  · simp at hsy
  · simp at hsy
  · obtain rfl := Option.some.inj hsy.2
    exact eq_of_magnitude (hwx.unique hwy) hsy.1

/-- A text is one word on one line. -/
theorem mem_text {x : Binary64} (hn : x.isNaN = false) :
    ∀ c ∈ (x.text realLayout).toList, c ∉ ['\n', '"', '\''] := by
  have hword {cs : List Char} (hcs : ∀ c ∈ cs, c ∉ ['\n', '"', '\'']) :
      ∀ c ∈ (if x.isNegative then ['-'] else []) ++ cs, c ∉ ['\n', '"', '\''] := by
    intro c hc
    rcases List.mem_append.1 hc with hc | hc
    · split at hc <;> simp_all
    · exact hcs c hc
  by_cases hi : x.isInfinite
  · rw [text_of_infinite hn hi]
    exact hword (by simp)
  · obtain ⟨cs, d, ht, hs, -⟩ := exists_scientific? hn (by simpa using hi)
    rw [ht]
    apply hword
    intro c hc hquote
    have hread := mem_of_scientific? hs c hc
    simp only [List.mem_cons, List.not_mem_nil, or_false] at hquote
    rcases hquote with rfl | rfl | rfl <;> exact absurd hread (by decide)

end Binary64

end FrontEnd.Number
