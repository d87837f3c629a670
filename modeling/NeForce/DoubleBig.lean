import NeForce.DoubleTable

/-! # Doubles by large numbers

A literal of at most 400 digits, in the range where the table has an entry, fits into the 80 words with every shift that is
made.  The quotient and the sticky bit then tell on which side of the middle the value is. -/

namespace NeForce.Float64

variable {v n d q s i j : ℕ}

/-! ### What fits -/

theorem big_eq (h : v < 2 ^ i) (hi : i ≤ bigBits) : big v = some v :=
  if_pos (h.trans_le (Nat.pow_le_pow_right (by decide) hi))

theorem shl_eq (h : v * 2 ^ s < 2 ^ i) (hi : i ≤ bigBits) : shl v s = some (v * 2 ^ s) := big_eq h hi

theorem mulFives_eq (h : v * 5 ^ n < 2 ^ i) (hi : i ≤ bigBits) : mulFives n v = some (v * 5 ^ n) := by
  induction n generalizing v with
  | zero => rw [mulFives, Nat.pow_zero, Nat.mul_one]
  | succ n ih =>
      have hnext : v * 5 * 5 ^ n = v * 5 ^ (n + 1) := by rw [Nat.pow_succ, Nat.mul_assoc, Nat.mul_comm 5]
      have hle : v * 5 ≤ v * 5 * 5 ^ n := Nat.le_mul_of_pos_right _ (Nat.pow_pos (by decide))
      rw [mulFives, big_eq (hle.trans_lt (hnext ▸ h)) hi]
      exact (ih (hnext ▸ h)).trans (congrArg some hnext)

/-! ### The quotient -/

theorem divideLoop_eq (hd : 0 < d) (h : n < d * 2 ^ (s + 1)) :
    divideLoop (s + 1) n (d * 2 ^ s) q = (q * 2 ^ (s + 1) + n / d, n % d) := by
  induction s generalizing n q with
  | zero =>
      rw [Nat.pow_zero, Nat.mul_one, divideLoop]
      by_cases hle : d ≤ n
      · have hdiv : n / d = 1 := Nat.div_eq_of_lt_le (by omega) (by omega)
        have hmod : n % d = n - d := by
          rw [Nat.mod_eq_sub_mod hle, Nat.mod_eq_of_lt (by omega)]
        rw [if_pos hle, divideLoop, hdiv, hmod]
        rfl
      · rw [if_neg hle, divideLoop, Nat.div_eq_of_lt (by omega), Nat.mod_eq_of_lt (by omega)]
        rfl
  | succ s ih =>
      have hhalf : d * 2 ^ (s + 1) / 2 = d * 2 ^ s := by
        rw [Nat.pow_succ, ← Nat.mul_assoc, Nat.mul_div_cancel _ (by decide)]
      rw [divideLoop, hhalf]
      by_cases hle : d * 2 ^ (s + 1) ≤ n
      · obtain ⟨r, rfl⟩ := Nat.exists_eq_add_of_le hle
        have hr : r < d * 2 ^ (s + 1) := by
          rw [Nat.pow_succ 2 (s + 1), ← Nat.mul_assoc] at h
          omega
        rw [if_pos hle, Nat.add_sub_cancel_left, ih hr, Nat.mul_add_div hd, Nat.mul_add_mod, Nat.pow_succ 2 (s + 1)]
        congr 1
        ring
      · rw [if_neg hle, ih (by omega), Nat.pow_succ 2 (s + 1)]
        congr 1
        ring

theorem divide_eq (hd : 0 < d) (hn : n.size ≤ bigBits) (hq : n / d < 2 ^ 64) :
    divide n d = some (n / d, decide (n % d ≠ 0)) := by
  unfold divide
  by_cases hlt : n < d
  · rw [if_pos hlt, Nat.div_eq_of_lt hlt, Nat.mod_eq_of_lt hlt]
  · rw [if_neg hlt]
    have hsize : d.size ≤ n.size := Nat.size_le_size (Nat.le_of_not_lt hlt)
    have hdsize : 0 < d.size := Nat.size_pos.mpr hd
    obtain ⟨s, hs⟩ : ∃ s, s = n.size - d.size := ⟨_, rfl⟩
    have hfit : d * 2 ^ s < 2 ^ n.size := by
      rw [show n.size = d.size + s by omega, Nat.pow_add]
      exact Nat.mul_lt_mul_of_pos_right (Nat.lt_size_self d) (Nat.two_pow_pos s)
    have htop : n < d * 2 ^ (s + 1) := by
      have hd' : 2 ^ (d.size - 1) ≤ d := Nat.lt_size.mp (by omega)
      refine (Nat.lt_size_self n).trans_le ?_
      rw [show n.size = d.size - 1 + (s + 1) by omega, Nat.pow_add]
      exact Nat.mul_le_mul_right _ hd'
    simp only [← hs]
    rw [shl_eq hfit hn]
    simp only [Option.bind_eq_bind, Option.bind_some, divideLoop_eq hd htop, Nat.zero_mul, Nat.zero_add,
      Nat.mod_eq_of_lt hq]

/-- The exponent of the highest bit of a quotient. -/
theorem binaryExponent_eq (hn : 0 < n) (hd : 0 < d) (hns : n.size ≤ bigBits) (hds : d.size ≤ bigBits) :
    ∃ b, binaryExponent n d = some b ∧ (d : ℚ) * 2 ^ b ≤ n ∧ (n : ℚ) < d * 2 ^ (b + 1) := by
  have hns0 : 0 < n.size := Nat.size_pos.mpr hn
  have hds0 : 0 < d.size := Nat.size_pos.mpr hd
  have hn' : 2 ^ (n.size - 1) ≤ n := Nat.lt_size.mp (by omega)
  have hd' : 2 ^ (d.size - 1) ≤ d := Nat.lt_size.mp (by omega)
  unfold binaryExponent
  by_cases hsign : (0 : ℤ) ≤ n.size - d.size
  · obtain ⟨k, hk⟩ := Int.eq_ofNat_of_zero_le hsign
    have hsize : n.size = d.size + k := by omega
    have hfit : d * 2 ^ k < 2 ^ n.size := by
      rw [hsize, Nat.pow_add]
      exact Nat.mul_lt_mul_of_pos_right (Nat.lt_size_self d) (Nat.two_pow_pos k)
    have hlt : n < d * 2 ^ (k + 1) := by
      refine (Nat.lt_size_self n).trans_le ?_
      rw [show n.size = d.size - 1 + (k + 1) by omega, Nat.pow_add]
      exact Nat.mul_le_mul_right _ hd'
    have hle : d * 2 ^ k ≤ n * 2 := by
      refine hfit.le.trans ?_
      rw [show n.size = n.size - 1 + 1 by omega, Nat.pow_succ]
      exact Nat.mul_le_mul_right _ hn'
    simp only [hk, Int.natCast_nonneg, if_true, Int.toNat_natCast, shl_eq hfit hns, Option.bind_eq_bind, Option.bind_some]
    refine ⟨_, rfl, ?_⟩
    have hlt' : (n : ℚ) < d * 2 ^ (k + 1) := by exact_mod_cast hlt
    have hle' : (d : ℚ) * 2 ^ k ≤ n * 2 := by exact_mod_cast hle
    split
    · rename_i hcase
      have hcase' : (n : ℚ) < d * 2 ^ k := by exact_mod_cast hcase
      rw [sub_add_cancel, zpow_sub_one₀ (by norm_num), zpow_natCast]
      exact ⟨by linarith, hcase'⟩
    · rename_i hcase
      have hcase' : (d : ℚ) * 2 ^ k ≤ n := by exact_mod_cast Nat.le_of_not_lt hcase
      rw [zpow_natCast]
      exact ⟨hcase', by exact_mod_cast hlt'⟩
  · obtain ⟨k, hk⟩ := Int.eq_ofNat_of_zero_le (show (0 : ℤ) ≤ -(n.size - d.size) by omega)
    have hsize : d.size = n.size + k := by omega
    have hfit : n * 2 ^ k < 2 ^ d.size := by
      rw [hsize, Nat.pow_add]
      exact Nat.mul_lt_mul_of_pos_right (Nat.lt_size_self n) (Nat.two_pow_pos k)
    have hlt : d < n * 2 ^ (k + 1) := by
      refine (Nat.lt_size_self d).trans_le ?_
      rw [show d.size = n.size - 1 + (k + 1) by omega, Nat.pow_add]
      exact Nat.mul_le_mul_right _ hn'
    have hle : n * 2 ^ k < d * 2 := by
      refine hfit.trans_le ?_
      rw [show d.size = d.size - 1 + 1 by omega, Nat.pow_succ]
      exact Nat.mul_le_mul_right _ hd'
    simp only [if_neg hsign, hk, Int.toNat_natCast, shl_eq hfit hds, Option.bind_eq_bind, Option.bind_some]
    refine ⟨_, rfl, ?_⟩
    rw [show (n.size - d.size : ℤ) = -(k : ℤ) by omega]
    have hpow : (0 : ℚ) < 2 ^ k := by positivity
    have hlt' : (d : ℚ) < n * 2 ^ k * 2 := by
      rw [Nat.pow_succ, ← Nat.mul_assoc] at hlt
      exact_mod_cast hlt
    have hle' : (n : ℚ) * 2 ^ k < d * 2 := by exact_mod_cast hle
    split
    · rename_i hcase
      have hcase' : (n : ℚ) * 2 ^ k < d := by exact_mod_cast hcase
      rw [sub_add_cancel, zpow_sub_one₀ (by norm_num), zpow_neg, zpow_natCast]
      refine ⟨?_, ?_⟩
      · rw [← mul_assoc, ← div_eq_mul_inv, ← div_eq_mul_inv, div_div, div_le_iff₀ (by positivity)]
        linarith
      · rw [← div_eq_mul_inv, lt_div_iff₀ hpow]
        exact hcase'
    · rename_i hcase
      have hcase' : (d : ℚ) ≤ n * 2 ^ k := by exact_mod_cast Nat.le_of_not_lt hcase
      rw [zpow_add_one₀ (by norm_num), zpow_neg, zpow_natCast, ← mul_assoc, ← div_eq_mul_inv, div_mul_eq_mul_div,
        lt_div_iff₀ hpow, div_le_iff₀ hpow]
      exact ⟨hcase', hle'⟩

/-! ### Rounding -/

theorem floor_bounds (a : ℕ) {c : ℕ} (hc : 0 < c) :
    ((a / c : ℕ) : ℚ) ≤ a / c ∧ (a / c : ℚ) < (a / c : ℕ) + 1 ∧ (a % c = 0 ↔ ((a / c : ℕ) : ℚ) = a / c) := by
  have hc' : (0 : ℚ) < c := by exact_mod_cast hc
  have hsplit : (c * (a / c : ℕ) + (a % c : ℕ) : ℚ) = a := by exact_mod_cast Nat.div_add_mod a c
  have hmod : ((a % c : ℕ) : ℚ) < c := by exact_mod_cast Nat.mod_lt a hc
  have hmod0 : (0 : ℚ) ≤ (a % c : ℕ) := Nat.cast_nonneg _
  refine ⟨?_, ?_, ?_⟩
  · rw [le_div_iff₀ hc']
    linarith
  · rw [div_lt_iff₀ hc']
    linarith
  · rw [eq_div_iff hc'.ne', ← Nat.cast_eq_zero (R := ℚ)]
    constructor <;> intro h <;> linarith

/-- The quotient of a scaled numerator, and whether it is exact. -/
theorem scale_divide {k : ℤ} (hd : 0 < d) (hns : n.size ≤ bigBits) (hds : d.size + 54 ≤ bigBits)
    (hhi : (n / d * 2 ^ k : ℚ) < 2 ^ 54) :
    ∃ (v : ℕ) (dropped : Bool) (Q : ℕ) (rest : Bool), scale n k = some (v, dropped) ∧ divide v d = some (Q, rest) ∧
      (Q : ℚ) ≤ n / d * 2 ^ k ∧ (n / d * 2 ^ k : ℚ) < Q + 1 ∧ ((dropped || rest) = false ↔ (Q : ℚ) = n / d * 2 ^ k) := by
  have hd' : (0 : ℚ) < d := by exact_mod_cast hd
  unfold scale
  by_cases hk : 0 ≤ k
  · obtain ⟨k, rfl⟩ := Int.eq_ofNat_of_zero_le hk
    have heq : (n / d * 2 ^ (k : ℤ) : ℚ) = ((n * 2 ^ k : ℕ) : ℚ) / d := by
      rw [zpow_natCast]
      push_cast
      ring
    obtain ⟨h1, h2, h3⟩ := floor_bounds (n * 2 ^ k) hd
    rw [heq] at hhi ⊢
    have hlt : n * 2 ^ k < 2 ^ 54 * d := by
      rw [div_lt_iff₀ hd'] at hhi
      exact_mod_cast hhi
    have hfit : n * 2 ^ k < 2 ^ (d.size + 54) := by
      rw [Nat.pow_add, Nat.mul_comm (2 ^ d.size)]
      exact hlt.trans (Nat.mul_lt_mul_of_pos_left (Nat.lt_size_self d) (by decide))
    have hQ : n * 2 ^ k / d < 2 ^ 64 := by
      rw [Nat.div_lt_iff_lt_mul hd]
      omega
    rw [if_pos hk, Int.toNat_natCast, shl_eq hfit hds]
    refine ⟨_, _, _, _, rfl, divide_eq hd ((Nat.size_le.mpr hfit).trans hds) hQ, h1, h2, ?_⟩
    rw [← h3]
    simp
  · obtain ⟨j, hj⟩ := Int.eq_ofNat_of_zero_le (show 0 ≤ -k by omega)
    have heq : (n / d * 2 ^ k : ℚ) = (n : ℚ) / ((2 ^ j * d : ℕ) : ℚ) := by
      rw [show k = -(j : ℤ) by omega, zpow_neg, zpow_natCast]
      push_cast
      field_simp
    have hc : 0 < 2 ^ j * d := Nat.mul_pos (Nat.two_pow_pos j) hd
    obtain ⟨h1, h2, h3⟩ := floor_bounds n hc
    rw [heq] at hhi ⊢
    rw [if_neg hk, hj, Int.toNat_natCast]
    have hdiv : n / 2 ^ j / d = n / (2 ^ j * d) := Nat.div_div_eq_div_mul _ _ _
    have hQ : n / 2 ^ j / d < 2 ^ 64 := by
      have : ((n / (2 ^ j * d) : ℕ) : ℚ) < 2 ^ 54 := h1.trans_lt hhi
      have : n / (2 ^ j * d) < 2 ^ 54 := by exact_mod_cast this
      omega
    refine ⟨_, _, _, _, rfl, divide_eq hd ((Nat.size_le_size (Nat.div_le_self _ _)).trans hns) hQ, ?_⟩
    rw [hdiv]
    refine ⟨h1, h2, ?_⟩
    rw [← h3, Nat.mod_mul]
    have hj := Nat.two_pow_pos j
    simp

/-- A quotient of so many bits that its double's significand has one less. -/
theorem roundQuotient_rounds {bits t : ℕ} {b e : ℤ} {more : Bool} (hd : 0 < d) (hns : n.size ≤ bigBits)
    (hds : d.size + 54 ≤ bigBits) (hlo : (d : ℚ) * 2 ^ b ≤ n) (hhi : (n : ℚ) < d * 2 ^ (b + 1)) (hbits : bits ≤ 53)
    (ht : (t : ℤ) = b + e + 1075 - bits) (hcase : t = 0 ∨ bits = 53) :
    ∃ p, roundQuotient n d bits b (b + e) more = some p ∧ Rounds more p (n / d * 2 ^ (e + 1074)) := by
  have hd' : (0 : ℚ) < d := by exact_mod_cast hd
  have hlow : (2 : ℚ) ^ bits ≤ n / d * 2 ^ (bits - b) := by
    have h : (2 : ℚ) ^ b ≤ n / d := by
      rw [le_div_iff₀ hd']
      linarith
    calc (2 : ℚ) ^ bits = 2 ^ b * 2 ^ (bits - b) := by
          rw [← zpow_add₀ (by norm_num), add_sub_cancel, zpow_natCast]
      _ ≤ n / d * 2 ^ (bits - b) := mul_le_mul_of_nonneg_right h (by positivity)
  have hhigh : (n / d * 2 ^ (bits - b) : ℚ) < 2 ^ (bits + 1) := by
    have h : (n / d : ℚ) < 2 ^ (b + 1) := by
      rw [div_lt_iff₀ hd']
      linarith
    calc (n / d * 2 ^ (bits - b) : ℚ) < 2 ^ (b + 1) * 2 ^ (bits - b) := mul_lt_mul_of_pos_right h (by positivity)
      _ = 2 ^ (bits + 1) := by
          rw [← zpow_add₀ (by norm_num), ← zpow_natCast]
          congr 1
          push_cast
          ring
  have hmax : (2 : ℚ) ^ (bits + 1) ≤ 2 ^ 54 := pow_le_pow_right₀ (by norm_num) (by omega)
  obtain ⟨v, dropped, Q, rest, hscale, hdivide, hQ1, hQ2, hexact⟩ := scale_divide hd hns hds (hhigh.trans_le hmax)
  have hz : n / d * 2 ^ (e + 1074) * 2 = n / d * 2 ^ (bits - b) * (2 : ℚ) ^ t := by
    rw [mul_assoc, mul_assoc, ← zpow_add_one₀ (by norm_num), ← zpow_natCast, ← zpow_add₀ (by norm_num), ht]
    congr 2
    ring
  have hQlow : 2 ^ bits ≤ Q := by
    have : (2 : ℚ) ^ bits < Q + 1 := hlow.trans_lt hQ2
    have : 2 ^ bits < Q + 1 := by exact_mod_cast this
    omega
  have hQhigh : Q < 2 ^ bits * 2 := by
    have : (Q : ℚ) < 2 ^ (bits + 1) := hQ1.trans_lt hhigh
    rw [← Nat.pow_succ]
    exact_mod_cast this
  have hbits2 : 2 ^ bits ≤ 2 ^ 53 := Nat.pow_le_pow_right (by decide) hbits
  have hm : Q / 2 < 2 ^ 53 := by omega
  have hnorm : t = 0 ∨ 2 ^ 52 ≤ Q / 2 := by
    refine hcase.imp_right fun h => ?_
    rw [h] at hQlow
    omega
  refine ⟨assembleRounded (if Q % 2 = 1 ∧ (more || dropped || rest || decide (Q / 2 % 2 = 1)) = true then Q / 2 + 1
    else Q / 2) (t - 1074), ?_, ?_⟩
  · simp only [roundQuotient, hscale, hdivide, Option.bind_eq_bind, Option.bind_some]
    rw [show b + e + 1 - (bits : ℤ) = t - 1074 by omega]
    generalize hm' : (if Q % 2 = 1 ∧ (more || dropped || rest || decide (Q / 2 % 2 = 1)) = true then Q / 2 + 1
      else Q / 2) = m'
    have hle : m' ≤ 2 ^ bits := by
      rw [← hm']
      split <;> omega
    unfold assembleRounded
    by_cases htop : m' = 2 ^ 53
    · have hb : bits = 53 := by
        rw [htop, Nat.pow_le_pow_iff_right (by decide)] at hle
        omega
      rw [if_pos ⟨hb, htop⟩, if_pos htop]
    · rw [if_neg fun h => htop h.2, if_neg htop]
  · generalize (n : ℚ) / d * 2 ^ (e + 1074) = z at *
    generalize (n : ℚ) / d * 2 ^ (bits - b) = y at *
    have hpow : (0 : ℚ) < 2 ^ t := by positivity
    have hsplit : (Q : ℚ) = 2 * (Q / 2 : ℕ) + (Q % 2 : ℕ) := by exact_mod_cast (Nat.div_add_mod Q 2).symm
    have hrest : ((Q % 2 : ℕ) : ℚ) < 2 := by exact_mod_cast Nat.mod_lt Q (by decide)
    have hrest' : ((Q % 2 : ℕ) : ℚ) ≤ 1 := by exact_mod_cast Nat.le_of_lt_succ (Nat.mod_lt Q (by decide))
    have hrest0 : (0 : ℚ) ≤ (Q % 2 : ℕ) := Nat.cast_nonneg _
    refine rounds_assemble _ hnorm hm ?_ ?_ (fun hup => ?_) fun hdown => ?_
    · have := mul_le_mul_of_nonneg_right (show (2 * (Q / 2 : ℕ) : ℚ) ≤ y by linarith) hpow.le
      linarith
    · have := mul_lt_mul_of_pos_right (show y < 2 * (Q / 2 : ℕ) + 2 by linarith) hpow
      linarith
    · obtain ⟨hodd, hor⟩ := hup
      rw [hodd, Nat.cast_one] at hsplit
      rcases lt_or_eq_of_le hQ1 with hlt | heq
      · have := mul_lt_mul_of_pos_right (hsplit ▸ hlt) hpow
        exact .inl (by linarith)
      · have hno := hexact.mpr heq
        rw [Bool.or_eq_false_iff] at hno
        rw [hno.1, hno.2, Bool.or_false, Bool.or_false, Bool.or_eq_true, decide_eq_true_eq] at hor
        refine .inr ⟨?_, ?_⟩
        · rw [← hsplit, heq]
          linarith
        · rcases hor with h | h
          · exact .inr h
          · exact .inl (by omega)
    · rcases Nat.mod_two_eq_zero_or_one Q with heven | hodd
      · rw [heven, Nat.cast_zero, add_zero] at hsplit
        have := mul_lt_mul_of_pos_right (hsplit ▸ hQ2) hpow
        exact .inl (by linarith)
      · have hnot := Bool.eq_false_iff.mpr fun h => hdown ⟨hodd, h⟩
        rw [Bool.or_eq_false_iff, Bool.or_eq_false_iff, Bool.or_eq_false_iff, decide_eq_false_iff_not] at hnot
        obtain ⟨⟨⟨hmore, hdropped⟩, hrest⟩, hpar⟩ := hnot
        have heq := hexact.mp (by rw [hdropped, hrest]; rfl)
        rw [hodd, Nat.cast_one] at hsplit
        refine .inr ⟨?_, by omega, hmore⟩
        rw [← hsplit, heq]
        linarith

theorem rounds_one {x : ℚ} {more : Bool} (h : 1 < 2 * x) (h' : 2 * x < 3) : Rounds more 1 x := by
  have h0 : units (1 - 1) = 0 := rfl
  have h1 : units 1 = 1 := rfl
  have h2 : units (1 + 1) = 2 := rfl
  refine ⟨by decide, .inr (.inl ?_), .inr (.inl ?_)⟩
  · rw [h0, h1]
    push_cast
    linarith
  · rw [h1, h2]
    push_cast
    linarith

/-- An odd denominator is never the numerator times a power of two. -/
theorem tinyToDouble_rounds {e : ℤ} {more : Bool} (hd : d % 2 = 1) (hds : d.size + 54 ≤ bigBits) (he : -1075 < e)
    (hlt : (n / d * 2 ^ (e + 1074) : ℚ) < 1) :
    ∃ p, tinyToDouble n d e = some p ∧ Rounds more p (n / d * 2 ^ (e + 1074)) := by
  obtain ⟨k, hk⟩ := Int.eq_ofNat_of_zero_le (show 0 ≤ e + 1075 by omega)
  have hd' : (0 : ℚ) < d := by exact_mod_cast (show 0 < d by omega)
  have hz : 2 * (n / d * 2 ^ (e + 1074)) = ((n * 2 ^ k : ℕ) : ℚ) / d := by
    have hpow : (2 : ℚ) ^ k = 2 ^ (e + 1074) * 2 := by
      rw [← zpow_add_one₀ (by norm_num), ← zpow_natCast, ← hk]
      congr 1
      ring
    push_cast
    rw [hpow]
    ring
  generalize (n : ℚ) / d * 2 ^ (e + 1074) = z at *
  have hfit : n * 2 ^ k < 2 ^ (d.size + 1) := by
    have h : ((n * 2 ^ k : ℕ) : ℚ) / d < 2 := hz ▸ by linarith
    rw [div_lt_iff₀ hd'] at h
    have h' : n * 2 ^ k < 2 * d := by exact_mod_cast h
    have := Nat.lt_size_self d
    rw [Nat.pow_succ]
    omega
  unfold tinyToDouble
  simp only [hk, Int.natCast_nonneg, if_true, Int.toNat_natCast, shl_eq hfit (show d.size + 1 ≤ bigBits by omega),
    Option.bind_eq_bind, Option.bind_some]
  refine ⟨_, rfl, ?_⟩
  split
  · rename_i h
    have h' : (d : ℚ) < (n * 2 ^ k : ℕ) := by exact_mod_cast h
    refine rounds_one ?_ (by linarith)
    rw [hz, lt_div_iff₀ hd']
    linarith
  · rename_i h
    have hne : n * 2 ^ k ≠ d := by
      intro heq
      rw [show k = k - 1 + 1 by omega, Nat.pow_succ, ← Nat.mul_assoc] at heq
      omega
    have h' : ((n * 2 ^ k : ℕ) : ℚ) < d := by exact_mod_cast lt_of_le_of_ne (Nat.le_of_not_lt h) hne
    refine rounds_zero ?_
    rw [hz, div_lt_iff₀ hd']
    linarith

theorem ratioToDouble_rounds (e : ℤ) (more : Bool) (hn : 0 < n) (hd : d % 2 = 1) (hns : n.size ≤ bigBits)
    (hds : d.size + 54 ≤ bigBits) (he : -1075 < e) :
    ∃ p, ratioToDouble n d e more = some p ∧ Rounds more p (n / d * 2 ^ (e + 1074)) := by
  have hd0 : 0 < d := by omega
  have hd' : (0 : ℚ) < d := by exact_mod_cast hd0
  obtain ⟨b, hb, hlo, hhi⟩ := binaryExponent_eq hn hd0 hns (by omega)
  have hz : (n / d * 2 ^ (e + 1074) : ℚ) < 2 ^ (b + e + 1075) := by
    have h : (n / d : ℚ) < 2 ^ (b + 1) := by
      rw [div_lt_iff₀ hd']
      linarith
    calc (n / d * 2 ^ (e + 1074) : ℚ) < 2 ^ (b + 1) * 2 ^ (e + 1074) := mul_lt_mul_of_pos_right h (by positivity)
      _ = 2 ^ (b + e + 1075) := by
          rw [← zpow_add₀ (by norm_num)]
          congr 1
          ring
  unfold ratioToDouble
  simp only [hb, Option.bind_eq_bind, Option.bind_some]
  split
  · rename_i hsmall
    refine ⟨0, rfl, rounds_zero ?_⟩
    have h : (2 : ℚ) ^ (b + e + 1075) ≤ 2 ^ (-1 : ℤ) := zpow_le_zpow_right₀ (by norm_num) (by omega)
    have := hz.trans_le h
    norm_num at this
    linarith
  · split
    · split
      · refine tinyToDouble_rounds hd hds he (hz.trans_le ?_)
        rw [← zpow_zero (2 : ℚ)]
        exact zpow_le_zpow_right₀ (by norm_num) (by omega)
      · exact roundQuotient_rounds (t := 0) hd0 hns hds hlo hhi (by omega) (by omega) (.inl rfl)
    · obtain ⟨t, ht⟩ := Int.eq_ofNat_of_zero_le (show 0 ≤ b + e + 1022 by omega)
      exact roundQuotient_rounds (t := t) hd0 hns hds hlo hhi le_rfl (by omega) (.inr rfl)

theorem five_power : ∃ i j, i = 750 ∧ j = 1742 ∧ 5 ^ i < 2 ^ j := ⟨_, _, rfl, rfl, by set_option maxRecDepth 8000 in decide⟩

/-- The large numbers round the value of the digits that were kept, and fit into their words. -/
theorem bigToDouble_rounds {l : BigLiteral} (hpos : 0 < l.mantissa) (hlt : l.mantissa.size ≤ bigBits)
    (hlo : -750 ≤ l.exponent) (hhi : 0 ≤ l.exponent → (l.mantissa * 5 ^ l.exponent.toNat).size ≤ bigBits) :
    ∃ p, bigToDouble l = some p ∧ Rounds l.truncated p (l.mantissa * 10 ^ l.exponent * 2 ^ (1074 : ℤ)) := by
  have hscale : (10 : ℚ) ^ l.exponent * 2 ^ (1074 : ℤ) = 5 ^ l.exponent * 2 ^ (l.exponent + 1074) := by
    rw [zpow_add₀ (by norm_num), show (10 : ℚ) = 5 * 2 by norm_num, mul_zpow]
    ring
  rw [mul_assoc, hscale, ← mul_assoc]
  unfold bigToDouble
  by_cases hsign : 0 ≤ l.exponent
  · obtain ⟨k, hk⟩ := Int.eq_ofNat_of_zero_le hsign
    have hsize := hhi hsign
    rw [hk, Int.toNat_natCast] at hsize
    simp only [hk, Int.toNat_natCast, mulFives_eq (Nat.lt_size_self _) hsize, Option.bind_eq_bind,
      Option.bind_some]
    have hn : 0 < l.mantissa * 5 ^ k := Nat.mul_pos hpos (Nat.pow_pos (by decide))
    obtain ⟨p, hp, hr⟩ := ratioToDouble_rounds (d := 1) k l.truncated hn rfl hsize (by decide) (by omega)
    refine ⟨p, hp, ?_⟩
    rw [Nat.cast_one, div_one] at hr
    push_cast at hr
    rw [zpow_natCast]
    exact hr
  · obtain ⟨k, hk⟩ := Int.eq_ofNat_of_zero_le (show 0 ≤ -l.exponent by omega)
    obtain ⟨i, j, hi, hj, hij⟩ := five_power
    have hfive : 1 * 5 ^ k < 2 ^ j := by
      rw [Nat.one_mul]
      exact (Nat.pow_le_pow_right (by decide) (by omega)).trans_lt hij
    have hj' : j + 54 ≤ bigBits := by
      rw [hj]
      decide
    have hdsize : (1 * 5 ^ k).size + 54 ≤ bigBits := by
      have := Nat.size_le.mpr hfive
      omega
    simp only [if_neg hsign, hk, Int.toNat_natCast, mulFives_eq hfive (show j ≤ bigBits by omega), Option.bind_eq_bind,
      Option.bind_some]
    have hodd : 1 * 5 ^ k % 2 = 1 := by
      rw [Nat.one_mul, Nat.pow_mod]
      simp
    obtain ⟨p, hp, hr⟩ := ratioToDouble_rounds l.exponent l.truncated hpos hodd hlt hdsize (by omega)
    refine ⟨p, hp, ?_⟩
    rw [show (5 : ℚ) ^ l.exponent = (5 ^ k)⁻¹ by rw [← zpow_natCast, ← zpow_neg, ← hk, neg_neg], ← div_eq_mul_inv]
    push_cast at hr
    rw [one_mul] at hr
    exact hr

end NeForce.Float64
