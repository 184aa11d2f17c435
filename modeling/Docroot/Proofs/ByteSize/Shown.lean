import Docroot.Proofs.ByteSize.Rounding
import Docroot.Proofs.Text.Cutting

/-!
# Sizes read back

What is shown of a number of bytes (`ByteSize.format`) is a number again: an amount, whole
or with decimals, and the unit it counts (`read?`). It is the count of the scale that the
number of bytes reaches (`read?_format`).

The shown value is near the number of bytes: it is off by half a unit of its last decimal,
and by the digits that were left out before the division (`abs_value_sub_le`). It also
keeps the order of the numbers. Within one scale that is the order of roundings; two
numbers on different scales have a power of two between them, the larger unit, and neither
value passes it (`value_le_pow`, `pow_le_value`).

The main result is `format_monotone_accurate`.
-/

namespace Docroot.ByteSize

variable {a b decimals m n zeros : Nat} {scale : Scale} {number : String}

/-! ## Reading -/

/-- A number that was read. -/
structure Reading where
  /-- The number. -/
  value : ℚ
  /-- What one more in the last place adds. -/
  step : ℚ

namespace Reading

/-- So many of something. -/
def scaled (r : Reading) (factor : ℚ) : Reading := ⟨r.value * factor, r.step * factor⟩

/-- A number of units in the last of some decimals. -/
def ofCount (decimals count : Nat) : Reading := ⟨count / 10 ^ decimals, 1 / 10 ^ decimals⟩

end Reading

/-- The units and how many bytes they have. -/
def units : List (String × Nat) :=
  [("bytes", 1), ("KB", 2 ^ 10), ("MB", 2 ^ 20), ("GB", 2 ^ 30)]

/-- The number with these digits, of which there is at least one. -/
def digits? (cs : List Char) : Option Nat :=
  if !cs.isEmpty && cs.all Char.isDigit then some (Nat.ofDigitChars 10 cs 0) else none

/-- An amount: digits, and maybe a point and more digits, the decimals. -/
def amount? (cs : List Char) : Option Reading :=
  match Text.pieces (· == '.') cs with
  | [whole] => (digits? whole).map (Reading.ofCount 0)
  | [whole, fraction] => do
    let decimals := fraction.length
    let n ← digits? whole
    let k ← digits? fraction
    return Reading.ofCount decimals (n * 10 ^ decimals + k)
  | _ => none

/-- A number of bytes: an amount and a unit, with a space between. -/
def read? (text : String) : Option Reading :=
  match Text.pieces (· == ' ') text.toList with
  | [number, unit] => do
    let bytes ← units.lookup (String.ofList unit)
    let amount ← amount? number
    return amount.scaled bytes
  | _ => none

/-! ## What is written is read -/

/-- The digits of a number, with zeros in front. -/
def padded (zeros n : Nat) : List Char := List.replicate zeros '0' ++ (toString n).toList

theorem toList_toString : (toString n).toList = padded 0 n := rfl

theorem isDigit_of_mem_padded {c : Char} (h : c ∈ padded zeros n) : c.isDigit = true := by
  rcases List.mem_append.1 h with hzero | hn
  · rw [List.eq_of_mem_replicate hzero]
    rfl
  · rw [Nat.toString_eq_repr, Nat.toList_repr] at hn
    exact Nat.isDigit_of_mem_toDigits (by decide) (by decide) hn

theorem digits?_padded : digits? (padded zeros n) = some n := by
  have hne : padded zeros n ≠ [] := by
    refine List.append_ne_nil_of_right_ne_nil _ ?_
    rw [Nat.toString_eq_repr, Nat.toList_repr]
    exact Nat.toDigits_ne_nil
  have hdigits : (padded zeros n).all Char.isDigit = true :=
    List.all_eq_true.2 fun c => isDigit_of_mem_padded
  rw [digits?, hdigits, Bool.and_true, List.isEmpty_eq_false_iff.2 hne, Bool.not_false,
    if_pos rfl, padded, Nat.ofDigitChars_append, Nat.ofDigitChars_replicate_zero, Nat.mul_zero,
    Nat.toString_eq_repr, Nat.toList_repr, Nat.ofDigitChars_ten_toDigits]

theorem beq_false_of_mem_padded {c s : Char} (hs : s.isDigit = false) (h : c ∈ padded zeros n) :
    (c == s) = false := by
  refine beq_false_of_ne ?_
  rintro rfl
  exact Bool.false_ne_true (hs.symm.trans (isDigit_of_mem_padded h))

/-- Digits are cut at digits only. -/
theorem pieces_padded {s : Char} (hs : s.isDigit = false) :
    Text.pieces (· == s) (padded zeros n) = [padded zeros n] :=
  Text.pieces_of_forall fun _ => beq_false_of_mem_padded hs

/-- Digits that are fewer than the decimals can be filled up to them. -/
theorem length_toString_le (hdecimals : 0 < decimals) (h : n < 10 ^ decimals) :
    (toString n).length ≤ decimals := by
  rw [← String.length_toList, Nat.toString_eq_repr, Nat.toList_repr]
  exact (Nat.length_toDigits_le_iff (by decide) hdecimals).2 h

/-- A number with decimals is the count of units in its last place, split in two. -/
theorem exists_toList_decimalText (hdecimals : 0 < decimals) : ∃ zeros,
    (padded zeros (n % 10 ^ decimals)).length = decimals ∧
      (decimalText decimals n).toList =
        padded 0 (n / 10 ^ decimals) ++ '.' :: padded zeros (n % 10 ^ decimals) := by
  have hlength : (toString (n % 10 ^ decimals)).length ≤ decimals :=
    length_toString_le hdecimals (Nat.mod_lt n (by positivity))
  refine ⟨decimals - (toString (n % 10 ^ decimals)).length, ?_, ?_⟩
  · rw [padded, List.length_append, List.length_replicate, String.length_toList]
    exact Nat.sub_add_cancel hlength
  · simp only [decimalText, String.toList_append, String.toList_ofList, List.append_assoc]
    rfl

theorem amount?_toString : amount? (toString n).toList = some (.ofCount 0 n) := by
  rw [toList_toString, amount?, pieces_padded rfl]
  simp only [digits?_padded, Option.map_some]

/-- A number with decimals is read as its count of units in the last place. -/
theorem amount?_decimalText (hdecimals : 0 < decimals) :
    amount? (decimalText decimals n).toList = some (.ofCount decimals n) := by
  obtain ⟨zeros, hlength, htext⟩ := exists_toList_decimalText (n := n) hdecimals
  rw [amount?, htext, Text.pieces_append_cons rfl, pieces_padded rfl, pieces_padded rfl]
  simp only [List.singleton_append, digits?_padded, hlength, Option.bind_eq_bind,
    Option.bind_some, Nat.div_add_mod']
  rfl

/-! ## Scales -/

/-- The single byte, of which no decimals are shown. -/
def byte : Scale := ⟨1, 0, "bytes"⟩

/-- The scale on which a number of bytes is shown. -/
def scaleFor (n : Nat) : Scale := (scaleOf? n).getD byte

/-- What is shown of a number of bytes on a scale. -/
def Scale.reading (scale : Scale) (n : Nat) : Reading :=
  (Reading.ofCount scale.decimals (scale.count n)).scaled scale.bytes

/-- A scale has a unit that is read, and counts a power of two. -/
theorem scale_cases (h : scale ∈ byte :: scales) :
    units.lookup scale.name = some scale.bytes ∧ ' ' ∉ scale.name.toList ∧
      ∃ j, scale.bytes = 2 ^ j := by
  simp only [scales, List.mem_cons, List.not_mem_nil, or_false] at h
  rcases h with rfl | rfl | rfl | rfl
  · exact ⟨by decide, by decide, 0, rfl⟩
  · exact ⟨by decide, by decide, 30, rfl⟩
  · exact ⟨by decide, by decide, 20, rfl⟩
  · exact ⟨by decide, by decide, 10, rfl⟩

theorem scaleFor_mem : scaleFor n ∈ byte :: scales := by
  rw [scaleFor]
  cases h : scaleOf? n with
  | none => exact List.mem_cons_self
  | some scale => exact List.mem_cons_of_mem _ (List.mem_of_find?_eq_some h)

/-- A number reaches the unit on which it is shown, if that is not the single byte. -/
theorem bytes_scaleFor_le : (scaleFor n).bytes ≤ max 1 n := by
  rw [scaleFor]
  cases h : scaleOf? n with
  | none => exact le_max_left 1 n
  | some scale =>
    have hle : scale.bytes ≤ n := by simpa using List.find?_some h
    exact hle.trans (le_max_right 1 n)

/-- Two numbers are shown on one scale, unless the unit of the greater is between them. -/
theorem scaleFor_eq_or_between (h : a ≤ b) :
    scaleFor a = scaleFor b ∨ a < (scaleFor b).bytes ∧ (scaleFor b).bytes ≤ b := by
  cases hb : scaleOf? b with
  | none =>
    have ha : scaleOf? a = none := by
      simp only [scaleOf?, List.find?_eq_none, decide_eq_true_eq] at hb ⊢
      exact fun scale hscale hle => hb scale hscale (hle.trans h)
    rw [scaleFor, scaleFor, ha, hb]
    exact .inl rfl
  | some scale =>
    have hfor : scaleFor b = scale := by rw [scaleFor, hb, Option.getD_some]
    rw [hfor]
    simp only [scaleOf?, List.find?_eq_some_iff_append, decide_eq_true_eq, Bool.not_eq_true',
      decide_eq_false_iff_not] at hb
    obtain ⟨hreached, larger, smaller, hscales, hlarger⟩ := hb
    refine (le_or_gt scale.bytes a).imp (fun hle => ?_) fun hlt => ⟨hlt, hreached⟩
    have ha : scaleOf? a = some scale := by
      simp only [scaleOf?, List.find?_eq_some_iff_append, decide_eq_true_eq, Bool.not_eq_true',
        decide_eq_false_iff_not]
      exact ⟨hle, larger, smaller, hscales, fun s hs hreach => hlarger s hs (hreach.trans h)⟩
    rw [scaleFor, ha, Option.getD_some]

/-- Bytes that are counted one by one are all shown. -/
theorem byte_count (h : n ≤ 2 ^ significantBits) : byte.count n = n := by
  rw [Scale.count, roundToBits_of_le (by decide) h]
  exact roundDiv_mul_cancel (d := 1) Nat.one_pos

theorem lt_of_scaleOf?_eq_none (h : scaleOf? n = none) : n < 2 ^ 10 := by
  simp only [scaleOf?, List.find?_eq_none, decide_eq_true_eq] at h
  exact not_le.1 (h ⟨Nat.pow 2 10, 1, "KB"⟩ (by simp [scales]))

/-! ## What is shown is read -/

theorem read?_append (h : scale ∈ byte :: scales)
    (hnumber : ∀ c ∈ number.toList, (c == ' ') = false) :
    read? (number ++ (" " ++ scale.name)) =
      (amount? number.toList).map (·.scaled scale.bytes) := by
  obtain ⟨hunit, hname, -⟩ := scale_cases h
  have htext : (number ++ (" " ++ scale.name)).toList =
      number.toList ++ ' ' :: scale.name.toList := by
    simp only [String.toList_append]
    rfl
  have hunbroken : ∀ c ∈ scale.name.toList, (c == ' ') = false := fun c hc =>
    beq_false_of_ne (ne_of_mem_of_not_mem hc hname)
  rw [read?, htext, Text.pieces_append_cons rfl, Text.pieces_of_forall hnumber,
    Text.pieces_of_forall hunbroken]
  simp only [List.singleton_append, String.ofList_toList, hunit]
  cases amount? number.toList <;> rfl

theorem ne_space_of_mem_decimalText (hdecimals : 0 < decimals) {c : Char}
    (h : c ∈ (decimalText decimals n).toList) : (c == ' ') = false := by
  obtain ⟨zeros, -, htext⟩ := exists_toList_decimalText (n := n) hdecimals
  rw [htext, List.mem_append, List.mem_cons] at h
  rcases h with hwhole | rfl | hfraction
  · exact beq_false_of_mem_padded rfl hwhole
  · rfl
  · exact beq_false_of_mem_padded rfl hfraction

/-- What is shown is the count on the scale of the number, and the name of the unit. -/
theorem exists_format_eq : ∃ number : String,
    format n = number ++ (" " ++ (scaleFor n).name) ∧
      (∀ c ∈ number.toList, (c == ' ') = false) ∧
      amount? number.toList = some (.ofCount (scaleFor n).decimals ((scaleFor n).count n)) := by
  rw [format, scaleFor]
  cases h : scaleOf? n with
  | none =>
    have hsmall : n ≤ 2 ^ significantBits :=
      (lt_of_scaleOf?_eq_none h).le.trans (Nat.pow_le_pow_right (by decide) (by decide))
    rw [Option.getD_none, byte_count hsmall]
    refine ⟨toString n, rfl, fun c hc => ?_, amount?_toString⟩
    rw [toList_toString] at hc
    exact beq_false_of_mem_padded rfl hc
  | some scale =>
    have hdecimals : 0 < scale.decimals :=
      (by decide : ∀ s ∈ scales, 0 < s.decimals) scale (List.mem_of_find?_eq_some h)
    exact ⟨decimalText scale.decimals (scale.count n), String.append_assoc,
      fun c => ne_space_of_mem_decimalText hdecimals, amount?_decimalText hdecimals⟩

/-- What is shown of a number of bytes is read as the count on its scale. -/
theorem read?_format : read? (format n) = some ((scaleFor n).reading n) := by
  obtain ⟨number, hformat, hnumber, hamount⟩ := exists_format_eq (n := n)
  rw [hformat, read?_append scaleFor_mem hnumber, hamount]
  rfl

/-! ## Order -/

theorem value_reading :
    (scale.reading n).value = scale.count n / 10 ^ scale.decimals * scale.bytes := rfl

theorem value_le_iff {q : ℚ} : (scale.reading n).value ≤ q ↔
    (scale.count n : ℚ) * scale.bytes ≤ q * 10 ^ scale.decimals := by
  have hpos : (0 : ℚ) < 10 ^ scale.decimals := by positivity
  rw [value_reading, div_mul_eq_mul_div, div_le_iff₀ hpos]

theorem le_value_iff {q : ℚ} : q ≤ (scale.reading n).value ↔
    q * 10 ^ scale.decimals ≤ (scale.count n : ℚ) * scale.bytes := by
  have hpos : (0 : ℚ) < 10 ^ scale.decimals := by positivity
  rw [value_reading, div_mul_eq_mul_div, le_div_iff₀ hpos]

/-- A power of two counted in a smaller one. -/
theorem pow_sub_mul_mul {j : Nat} (hj : j ≤ m) (k : Nat) : 2 ^ (m - j) * k * 2 ^ j = 2 ^ m * k := by
  rw [Nat.mul_right_comm, ← Nat.pow_add, Nat.sub_add_cancel hj]

/-- A power of two that the number does not pass is not passed by what is shown. -/
theorem value_le_pow {j : Nat} (hscale : scale.bytes = 2 ^ j) (hj : j ≤ m) (h : n ≤ 2 ^ m) :
    (scale.reading n).value ≤ 2 ^ m := by
  have hround : roundToBits significantBits n ≤ 2 ^ m := roundToBits_le_pow (by decide) h
  rw [← Nat.sub_add_cancel hj, Nat.pow_add] at hround
  have hcount : scale.count n ≤ 2 ^ (m - j) * 10 ^ scale.decimals := by
    rw [Scale.count, hscale]
    refine roundDiv_le (Nat.two_pow_pos j) ?_
    rw [Nat.mul_right_comm]
    exact Nat.mul_le_mul_right _ hround
  rw [value_le_iff, hscale]
  norm_cast
  calc scale.count n * 2 ^ j
    _ ≤ 2 ^ (m - j) * 10 ^ scale.decimals * 2 ^ j := Nat.mul_le_mul_right _ hcount
    _ = 2 ^ m * 10 ^ scale.decimals := pow_sub_mul_mul hj _

/-- A power of two that the number reaches is reached by what is shown. -/
theorem pow_le_value {j : Nat} (hscale : scale.bytes = 2 ^ j) (hj : j ≤ m) (h : 2 ^ m ≤ n) :
    2 ^ m ≤ (scale.reading n).value := by
  have hround : 2 ^ m ≤ roundToBits significantBits n := pow_le_roundToBits (by decide) h
  rw [← Nat.sub_add_cancel hj, Nat.pow_add] at hround
  have hcount : 2 ^ (m - j) * 10 ^ scale.decimals ≤ scale.count n := by
    rw [Scale.count, hscale]
    refine le_roundDiv (Nat.two_pow_pos j) ?_
    rw [Nat.mul_right_comm]
    exact Nat.mul_le_mul_right _ hround
  rw [le_value_iff, hscale]
  norm_cast
  calc 2 ^ m * 10 ^ scale.decimals
    _ = 2 ^ (m - j) * 10 ^ scale.decimals * 2 ^ j := (pow_sub_mul_mul hj _).symm
    _ ≤ scale.count n * 2 ^ j := Nat.mul_le_mul_right _ hcount

/-- What is shown on one scale keeps the order. -/
theorem value_mono (h : a ≤ b) : (scale.reading a).value ≤ (scale.reading b).value := by
  have hcount : scale.count a ≤ scale.count b :=
    roundDiv_mono (Nat.mul_le_mul_right _ (roundToBits_mono (by decide) h))
  rw [value_reading, value_reading]
  gcongr

/-- A greater number is not shown as less, whatever the scales. -/
theorem value_scaleFor_mono (h : a ≤ b) :
    ((scaleFor a).reading a).value ≤ ((scaleFor b).reading b).value := by
  rcases scaleFor_eq_or_between h with heq | ⟨hlt, hle⟩
  · rw [heq]
    exact value_mono h
  · -- The larger unit is a power of two between the numbers.
    obtain ⟨-, -, j, hj⟩ := scale_cases (scaleFor_mem (n := a))
    obtain ⟨-, -, m, hm⟩ := scale_cases (scaleFor_mem (n := b))
    rw [hm] at hlt hle
    have hjm : j ≤ m := by
      have hle : 2 ^ j ≤ 2 ^ m := by
        rw [← hj]
        exact bytes_scaleFor_le.trans (max_le (Nat.two_pow_pos m) hlt.le)
      exact (Nat.pow_le_pow_iff_right (by decide)).1 hle
    exact (value_le_pow hj hjm hlt.le).trans (pow_le_value hm le_rfl hle)

/-! ## Accuracy -/

/-- What is shown is off by half a unit of the last decimal, and by what the number was
    rounded before. -/
theorem abs_value_sub_le (hscale : 0 < scale.bytes) :
    |(scale.reading n).value - n| ≤
      (scale.reading n).step / 2 + |(roundToBits significantBits n : ℚ) - n| := by
  have hbytes : (0 : ℚ) < scale.bytes := by exact_mod_cast hscale
  set rounded := roundToBits significantBits n
  have hstep : (scale.reading n).step = scale.bytes / 10 ^ scale.decimals := one_div_mul_eq_div _ _
  have hpos : (0 : ℚ) < scale.bytes / 10 ^ scale.decimals := by positivity
  have hround : |(scale.count n : ℚ) - rounded * 10 ^ scale.decimals / scale.bytes| ≤ 1 / 2 := by
    have := abs_roundDiv_sub_le (n := rounded * 10 ^ scale.decimals) hscale
    push_cast at this
    exact this
  have hvalue : (scale.reading n).value - rounded =
      (scale.count n - rounded * 10 ^ scale.decimals / scale.bytes) *
        (scale.bytes / 10 ^ scale.decimals) := by
    rw [value_reading]
    field_simp
  have hfirst : |(scale.reading n).value - rounded| ≤ (scale.reading n).step / 2 := by
    rw [hvalue, abs_mul, abs_of_pos hpos, hstep]
    linarith [mul_le_mul_of_nonneg_right hround hpos.le]
  calc |(scale.reading n).value - n|
    _ ≤ |(scale.reading n).value - rounded| + |(rounded : ℚ) - n| := abs_sub_le _ _ _
    _ ≤ (scale.reading n).step / 2 + |(rounded : ℚ) - n| := by gcongr

/-- Below `2 ^ 64` the rounding to binary digits is off by 1024 at most. -/
theorem abs_roundToBits_significantBits_sub_le (h : n < 2 ^ 64) :
    |(roundToBits significantBits n : ℚ) - n| ≤ 1024 := by
  have hkept : lowestKept significantBits n ≤ 11 := by
    have hlog : n.log2 ≤ 63 := by
      rcases eq_or_ne n 0 with rfl | hn
      · exact Nat.zero_le 63
      · exact Nat.le_of_lt_succ ((Nat.log2_lt hn).2 h)
    rw [lowestKept, significantBits]
    omega
  refine abs_roundToBits_sub_le.trans ?_
  have hpow : (2 : ℚ) ^ lowestKept significantBits n ≤ 2 ^ 11 :=
    pow_le_pow_right₀ (by norm_num) hkept
  linarith

/-- What is shown of a number of bytes below `2 ^ 64` can be read, and the number read is
    off by at most half a unit of its last decimal and 1024 bytes, the latter only above
    `2 ^ 53`. No smaller number is shown as a larger one. -/
theorem format_monotone_accurate (hn : n < 2 ^ 64) : ∃ r, read? (format n) = some r ∧
    |r.value - n| ≤ r.step / 2 + 1024 ∧ (n ≤ 2 ^ 53 → |r.value - n| ≤ r.step / 2) ∧
    ∀ m ≤ n, ∃ s, read? (format m) = some s ∧ s.value ≤ r.value := by
  have hscale : 0 < (scaleFor n).bytes := by
    obtain ⟨-, -, j, hj⟩ := scale_cases (scaleFor_mem (n := n))
    exact hj ▸ Nat.two_pow_pos j
  refine ⟨_, read?_format, ?_, fun h => ?_, fun m hm => ⟨_, read?_format, value_scaleFor_mono hm⟩⟩
  · linarith [abs_value_sub_le (n := n) hscale, abs_roundToBits_significantBits_sub_le hn]
  · have hbound := abs_value_sub_le (n := n) hscale
    have hkept : roundToBits significantBits n = n := roundToBits_of_le (by decide) h
    rwa [hkept, sub_self, abs_zero, add_zero] at hbound

/-- The largest size below `2 ^ 64`: what is shown of it is read back within the error, and
    as no less than the last size below a gigabyte. -/
theorem format_monotone_accurate_largest : 2 ^ 64 - 1 < 2 ^ 64 ∧
    format (2 ^ 64 - 1) = "17179869184.00 GB" ∧ ∃ r, read? (format (2 ^ 64 - 1)) = some r ∧
      |r.value - (2 ^ 64 - 1 : Nat)| ≤ r.step / 2 + 1024 ∧
        ∃ s, read? (format (2 ^ 30 - 1)) = some s ∧ s.value ≤ r.value := by
  obtain ⟨r, hr, hnear, -, hless⟩ := format_monotone_accurate (n := 2 ^ 64 - 1) (by decide)
  exact ⟨by decide, by decide, r, hr, hnear, hless (2 ^ 30 - 1) (by decide)⟩

/-- Rounding reaches the next unit, but does not pass it. -/
example : format (2 ^ 20 - 1) = "1024.0 KB" ∧ format (2 ^ 20) = "1.0 MB" := by decide

end Docroot.ByteSize
