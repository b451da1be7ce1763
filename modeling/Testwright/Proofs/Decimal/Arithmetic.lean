import Mathlib.Tactic.Positivity
import Testwright.Proofs.Decimal.Rounding

/-!
# Arithmetic of doubles keeps the order

A product, a quotient or a sum of doubles that are not negative is the exact one, rounded. Since
rounding does not reverse the order of two numbers, neither does multiplying by a positive double
(`mul_le_mul_left`), dividing by one (`div_le_div_right`), adding one (`add_le_add_right`), or
making whole numbers into doubles (`toFloat_le`).
-/

namespace Testwright.Decimal

open Float.Model (Format UnpackedFloat totalExponent)
open Float.Model.UnpackedFloat

variable {q r : ℚ} {m n : Nat} {p p' : Int}

/-! ## Products, quotients and sums -/

theorem isRounded_zero (s : Sign) : IsRounded 0 (ofUnpacked (.zero s)) := by
  have hzero : Rounds 0 (min ((-1074 + 1074) * 0x10000000000000 + (0 : Nat)) topPlace) :=
    .intro (le_refl _) (two_zpow_pos _) (.inl rfl) (by simpa using Nearest.self 0)
  exact (hasPlace_zero s).isRounded hzero

theorem isRounded_product (m n : Nat) (e e' : Int)
    (hfine : 2 ^ 52 ≤ m * n ∨ e + e' ≤ -1074) :
    IsRounded (m * 2 ^ e * (n * 2 ^ e'))
      (ofUnpacked (roundWithAccuracy Format.binary64 .positive (m * n) (e + e') .exact)) := by
  have hvalue : (m * 2 ^ e * (n * 2 ^ e') : ℚ) = (m * n : Nat) * 2 ^ (e + e') := by
    rw [zpow_add₀ (by norm_num)]
    push_cast
    ring
  rw [hvalue]
  refine isRounded_roundWithAccuracy (a := .exact) rfl ?_
  rw [targetExponent_eq]
  rcases hfine with hlarge | hleast
  · have hlog := (Nat.le_log2 (by omega)).mpr hlarge
    omega
  · omega

theorem log2_shiftLeft (hm : 0 < m) (k : Nat) : (m <<< k).log2 = m.log2 + k := by
  induction k with
  | zero => rfl
  | succ k ih =>
      have hne : m <<< k ≠ 0 := by
        rw [Nat.shiftLeft_eq]
        positivity
      rw [Nat.shiftLeft_succ, Nat.log2_two_mul hne, ih]
      rfl

/-- Shifting a mantissa to a smaller exponent does not change the number. -/
theorem shiftLeft_mul_two_zpow (m : Nat) {e t : Int} (h : t ≤ e) :
    ((m <<< (e - t).toNat : Nat) : ℚ) * 2 ^ t = m * 2 ^ e := by
  have hsplit := two_zpow_add t (e - t).toNat
  rw [show t + (e - t).toNat = e by omega] at hsplit
  rw [hsplit, Nat.shiftLeft_eq]
  push_cast
  ring

theorem isRounded_round (hm : 0 < m) (e : Int) :
    IsRounded (m * 2 ^ e) (ofUnpacked (UnpackedFloat.round Format.binary64 .positive m e)) := by
  let k := (e - Format.binary64.targetExponent (totalExponent m e)).toNat
  have hk : k = (e - max ((m.log2 : Int) + e - 52) (-1074)).toNat := by rw [← targetExponent_eq]
  have hround : UnpackedFloat.round Format.binary64 .positive m e =
      roundWithAccuracy Format.binary64 .positive (m <<< k) (e - k) .exact := rfl
  have hvalue := shiftLeft_mul_two_zpow m (show e - k ≤ e by omega)
  rw [show (e - (e - k)).toNat = k by omega] at hvalue
  have hlog := log2_shiftLeft hm k
  rw [hround, ← hvalue]
  refine isRounded_roundWithAccuracy (a := .exact) rfl ?_
  rw [targetExponent_eq, hlog]
  omega

theorem isRounded_normalize (n : Nat) (e : Int) :
    IsRounded (n * 2 ^ e) (ofUnpacked (UnpackedFloat.normalize Format.binary64 n e .positive)) := by
  rcases Nat.eq_zero_or_pos n with rfl | hpos
  · rw [Nat.cast_zero, zero_mul]
    exact isRounded_zero _
  · have hcompare : compare (n : Int) 0 = .gt := Int.compare_eq_gt.mpr (by omega)
    rw [UnpackedFloat.normalize, hcompare]
    exact isRounded_round hpos e

theorem approximates_div (m : Nat) {n : Nat} (hn : 0 < n) :
    Approximates (m / n) (accuracyOfFraction (m % n) n) ((m : ℚ) / n) := by
  have hpos : (0 : ℚ) < n := by exact_mod_cast hn
  have hsplit : (m : ℚ) / n = (m / n : Nat) + (m % n : Nat) / n := by
    have hm : (m : ℚ) = n * (m / n : Nat) + (m % n : Nat) := by
      exact_mod_cast (Nat.div_add_mod m n).symm
    rw [hm]
    field_simp
  have hlt : ((m % n : Nat) : ℚ) < n := by exact_mod_cast Nat.mod_lt m hn
  rw [hsplit, accuracyOfFraction]
  split
  · rename_i hzero
    show _ = _
    rw [hzero]
    simp
  · rename_i hsome
    have hone : (0 : ℚ) < (m % n : Nat) := by exact_mod_cast Nat.pos_of_ne_zero hsome
    cases hcompare : compare (2 * (m % n)) n with
    | lt =>
        have hhalf : 2 * ((m % n : Nat) : ℚ) < n := by
          exact_mod_cast Nat.compare_eq_lt.mp hcompare
        have hfraction : ((m % n : Nat) : ℚ) / n < 1 / 2 := by
          rw [div_lt_div_iff₀ hpos two_pos]
          linarith
        exact ⟨by linarith [div_pos hone hpos], by linarith⟩
    | eq =>
        have hhalf : 2 * ((m % n : Nat) : ℚ) = n := by
          exact_mod_cast Nat.compare_eq_eq.mp hcompare
        show _ = _
        rw [← hhalf]
        field_simp
    | gt =>
        have hhalf : (n : ℚ) < 2 * (m % n : Nat) := by
          exact_mod_cast Nat.compare_eq_gt.mp hcompare
        have hfraction : 1 / 2 < ((m % n : Nat) : ℚ) / n := by
          rw [div_lt_div_iff₀ two_pos hpos]
          linarith
        exact ⟨by linarith, by linarith [(div_lt_one hpos).mpr hlt]⟩

theorem log2_le_log2_div {m n : Nat} (hn : 0 < n) (h : 0 < m / n) :
    m.log2 ≤ (m / n).log2 + n.log2 + 1 := by
  have hm : m ≠ 0 := by
    rintro rfl
    simp at h
  by_contra hlt
  have hquotient : m / n + 1 ≤ 2 ^ ((m / n).log2 + 1) := Nat.lt_log2_self
  have hlarge : m < 2 ^ m.log2 :=
    calc m < (m / n + 1) * n := Nat.lt_mul_of_div_lt (Nat.lt_succ_self _) hn
      _ ≤ 2 ^ ((m / n).log2 + 1) * 2 ^ (n.log2 + 1) :=
          Nat.mul_le_mul hquotient Nat.lt_log2_self.le
      _ = 2 ^ ((m / n).log2 + 1 + (n.log2 + 1)) := (Nat.pow_add _ _ _).symm
      _ ≤ 2 ^ m.log2 := Nat.pow_le_pow_right two_pos (by omega)
  exact absurd (Nat.log2_self_le hm) (by omega)

theorem isRounded_quotient {m n : Nat} (hm : 0 < m) (hn : 0 < n) (e e' : Int) :
    IsRounded (m * 2 ^ e / (n * 2 ^ e'))
      (ofUnpacked (roundWithAccuracy Format.binary64 .positive
        (divCore Format.binary64 m e n e').1 (divCore Format.binary64 m e n e').2.1
        (divCore Format.binary64 m e n e').2.2)) := by
  let t := min (e - e') (Format.binary64.targetExponent (totalExponent m e - totalExponent n e'))
  let k := (e - e' - t).toNat
  have ht : t = min (e - e') (max ((m.log2 : Int) + e - (n.log2 + e') - 53) (-1074)) := by
    have htotal : totalExponent m e - totalExponent n e' = m.log2 + e - (n.log2 + e') := by
      rw [totalExponent, totalExponent]
      omega
    rw [← htotal]
    rfl
  have hcore : divCore Format.binary64 m e n e' =
      ((m <<< k) / n, t, accuracyOfFraction ((m <<< k) % n) n) := rfl
  have hvalue : (m * 2 ^ e / (n * 2 ^ e') : ℚ) = (m <<< k : Nat) / n * 2 ^ t := by
    have hshift := shiftLeft_mul_two_zpow m (min_le_left (e - e') _ : t ≤ e - e')
    rw [zpow_sub₀ two_ne_zero] at hshift
    rw [div_mul_eq_mul_div, hshift]
    field_simp
  rw [hcore, hvalue]
  refine isRounded_roundWithAccuracy (approximates_div _ hn) ?_
  rw [targetExponent_eq]
  have hlog := log2_shiftLeft hm k
  rcases Nat.eq_zero_or_pos ((m <<< k) / n) with hzero | hpos
  · -- a quotient below one is as fine as a double can be
    have hsmall : m <<< k < n := (Nat.div_eq_zero_iff_lt hn).mp hzero
    have hne : m <<< k ≠ 0 := by
      rw [Nat.shiftLeft_eq]
      positivity
    have hle := (Nat.log2_lt hne).mpr (hsmall.trans Nat.lt_log2_self)
    omega
  · have hle := log2_le_log2_div hn hpos
    omega

/-! ## Values -/

/-- The parts of a double that is not negative, and its value. -/
inductive HasValue : UnpackedFloat → ℚ → Prop
  | zero (s : Sign) : HasValue (.zero s) 0
  | finite {m : Nat} {e : Int} (hpos : 0 < m) (h : IsCanonical m e) :
      HasValue (.finite .positive m e hpos) (m * 2 ^ e)

variable {u v : UnpackedFloat}

theorem HasValue.nonneg (h : HasValue u q) : 0 ≤ q := by
  cases h with
  | zero => exact le_refl _
  | finite hpos h => exact mul_nonneg (Nat.cast_nonneg _) (two_zpow_pos _).le

/-- A double is its own value, rounded. -/
theorem HasValue.isRounded (h : HasValue u q) : IsRounded q (ofUnpacked u) := by
  cases h with
  | zero s => exact isRounded_zero s
  | @finite m e hpos h =>
      refine (hasPlace_finite hpos h).isRounded ?_
      have hself : (m * 2 ^ e : ℚ) / 2 ^ e = m := mul_div_cancel_right₀ _ (two_zpow_pos e).ne'
      have hlt : (m : ℚ) < 2 ^ 53 := by exact_mod_cast h.lt
      refine .intro h.least ?_ (h.normal.symm.imp_right fun hnormal => ?_) ?_
      · rw [show e + 53 = e + (53 : Nat) from rfl, two_zpow_add]
        exact mul_lt_mul_of_pos_right hlt (two_zpow_pos e)
      · have hle : (2 : ℚ) ^ 52 ≤ m := by exact_mod_cast hnormal
        rw [show e + 52 = e + (52 : Nat) from rfl, two_zpow_add]
        exact mul_le_mul_of_nonneg_right hle (two_zpow_pos e).le
      · rw [hself]
        exact .self m

theorem HasValue.mul (hu : HasValue u q) (hv : HasValue v r) :
    IsRounded (q * r) (ofUnpacked (UnpackedFloat.mul Format.binary64 u v)) := by
  cases hu with
  | zero s =>
      rw [zero_mul]
      cases hv with
      | zero s' => exact isRounded_zero _
      | finite hpos' h' => exact isRounded_zero _
  | @finite m e hpos h =>
      cases hv with
      | zero s' =>
          rw [mul_zero]
          exact isRounded_zero _
      | @finite n e' hpos' h' =>
          refine isRounded_product m n e e' ?_
          rcases h.normal with hlarge | hleast
          · exact .inl (hlarge.trans (Nat.le_mul_of_pos_right m hpos'))
          · rcases h'.normal with hlarge | hleast'
            · exact .inl (hlarge.trans (Nat.le_mul_of_pos_left n hpos))
            · exact .inr (by omega)

theorem HasValue.div (hu : HasValue u q) (hv : HasValue v r) (hr : 0 < r) :
    IsRounded (q / r) (ofUnpacked (UnpackedFloat.div Format.binary64 u v)) := by
  cases hv with
  | zero s' => exact absurd hr (lt_irrefl _)
  | finite hpos' h' =>
      cases hu with
      | zero s =>
          rw [zero_div]
          exact isRounded_zero _
      | finite hpos h => exact isRounded_quotient hpos hpos' _ _

theorem HasValue.add (hu : HasValue u q) (hv : HasValue v r) :
    IsRounded (q + r) (ofUnpacked (UnpackedFloat.add Format.binary64 u v)) := by
  cases hu with
  | zero s =>
      rw [zero_add]
      cases hv with
      | zero s' => cases s <;> cases s' <;> exact isRounded_zero _
      | finite hpos' h' => exact (HasValue.finite hpos' h').isRounded
  | @finite m e hpos h =>
      cases hv with
      | zero s' =>
          rw [add_zero]
          exact (HasValue.finite hpos h).isRounded
      | @finite n e' hpos' h' =>
          let t := min e e'
          let sum := m <<< (e - t).toNat + n <<< (e' - t).toNat
          have hsum : UnpackedFloat.add Format.binary64 (.finite .positive m e hpos)
              (.finite .positive n e' hpos') =
                UnpackedFloat.normalize Format.binary64 (sum : Nat) t .positive := rfl
          have hvalue : (m * 2 ^ e + n * 2 ^ e' : ℚ) = (sum : Nat) * 2 ^ t := by
            rw [Nat.cast_add, add_mul, shiftLeft_mul_two_zpow m (min_le_left e e'),
              shiftLeft_mul_two_zpow n (min_le_right e e')]
          rw [hsum, hvalue]
          exact isRounded_normalize sum t

/-! ## Doubles in order -/

variable {c d z : Float}

theorem Rounds.nonneg (h : Rounds q p) : 0 ≤ p := by
  obtain @⟨e, m, hleast, -, -, -⟩ := h
  rw [topPlace]
  omega

theorem Rounds.le_topPlace (h : Rounds q p) : p ≤ topPlace := by
  obtain @⟨e, m, -, -, -, -⟩ := h
  exact min_le_right _ _

theorem place_zero : place 0 = 0 := by decide +kernel

theorem zero_le_iff : 0 ≤ c ↔ c.isNaN = false ∧ 0 ≤ place c := by
  have hzero : (0 : Float).isNaN = false := by decide +kernel
  constructor
  · intro h
    have hc := (isNaN_of_le h).2
    have hle := (le_iff_place_le hzero hc).mp h
    rw [place_zero] at hle
    exact ⟨hc, hle⟩
  · rintro ⟨hc, hle⟩
    refine (le_iff_place_le hzero hc).mpr ?_
    rw [place_zero]
    exact hle

theorem IsRounded.nonneg (h : IsRounded q c) : 0 ≤ c :=
  zero_le_iff.mpr ⟨h.isNumber, h.rounds.nonneg⟩

theorem IsRounded.le (hc : IsRounded q c) (hd : IsRounded r d) (h : q ≤ r) : c ≤ d :=
  (le_iff_place_le hc.isNumber hd.isNumber).mpr (hc.rounds.mono hd.rounds h)

/-- A double that is not negative is infinite or has a value. -/
theorem infinite_or_hasValue (h : 0 ≤ c) :
    (c.toModel.unpack = .infinity .positive ∧ place c = topPlace) ∨
      (∃ q, HasValue c.toModel.unpack q) ∧ place c < topPlace := by
  obtain ⟨hnumber, hle⟩ := zero_le_iff.mp h
  have hplaced := placed_place hnumber
  generalize c.toModel.unpack = u at hplaced ⊢
  generalize place c = p at hplaced hle ⊢
  cases hplaced with
  | infinity s =>
      cases s with
      | negative => cases hle
      | positive => exact .inl ⟨rfl, rfl⟩
  | zero s => exact .inr ⟨⟨0, .zero s⟩, by decide⟩
  | @finite s m e hpos hm he hnormal =>
      cases s with
      | negative =>
          simp only [Sign.apply] at hle
          omega
      | positive =>
          refine .inr ⟨⟨_, .finite hpos ⟨hm, he.1, hnormal⟩⟩, ?_⟩
          simp only [Sign.apply, topPlace]
          omega

/-- Values are in the order of the places. -/
theorem HasValue.le_of_placed (hu : HasValue u q) (hv : HasValue v r) (hp : Placed u p)
    (hp' : Placed v p') (hle : p ≤ p') : q ≤ r := by
  cases hu with
  | zero s => exact hv.nonneg
  | @finite m e hpos h =>
      cases hp with
      | finite _ _ hm he hnormal =>
          cases hv with
          | zero s' =>
              cases hp'
              simp only [Sign.apply] at hle
              omega
          | @finite n e' hpos' h' =>
              cases hp' with
              | finite _ _ hm' he' hnormal' =>
                  simp only [Sign.apply] at hle
                  rcases lt_trichotomy e e' with hlt | rfl | hgt
                  · have hbelow : (m : ℚ) ≤ 2 ^ 53 := by exact_mod_cast h.lt.le
                    have habove : (2 : ℚ) ^ 52 ≤ n := by
                      exact_mod_cast hnormal'.resolve_right (by omega)
                    calc (m * 2 ^ e : ℚ) ≤ 2 ^ 53 * 2 ^ e :=
                          mul_le_mul_of_nonneg_right hbelow (two_zpow_pos e).le
                      _ = 2 ^ (e + (53 : Nat)) := (two_zpow_add e 53).symm
                      _ ≤ 2 ^ (e' + (52 : Nat)) := two_zpow_le (by omega)
                      _ = 2 ^ 52 * 2 ^ e' := two_zpow_add e' 52
                      _ ≤ n * 2 ^ e' := mul_le_mul_of_nonneg_right habove (two_zpow_pos e').le
                  · have hmn : (m : ℚ) ≤ n := by exact_mod_cast (by omega : m ≤ n)
                    exact mul_le_mul_of_nonneg_right hmn (two_zpow_pos e).le
                  · omega

/-- What rounds the value of a function that does not decrease does not decrease. -/
theorem le_of_isRounded {f : Float → Float} {g : ℚ → ℚ}
    (hmono : ∀ q r, 0 ≤ q → q ≤ r → g q ≤ g r)
    (hvalue : ∀ z q, HasValue z.toModel.unpack q → IsRounded (g q) (f z))
    (hinfinity : ∀ z, z.toModel.unpack = .infinity .positive →
      f z = ofUnpacked (.infinity .positive))
    (hc : 0 ≤ c) (hcd : c ≤ d) : 0 ≤ f c ∧ f c ≤ f d := by
  obtain ⟨hc', hd'⟩ := isNaN_of_le hcd
  have hle := (le_iff_place_le hc' hd').mp hcd
  have htop : ∀ z, z.toModel.unpack = .infinity .positive → HasPlace (f z) topPlace :=
    fun z hz => hinfinity z hz ▸ hasPlace_infinity
  have hnumber : ∀ z, 0 ≤ z → 0 ≤ f z ∧ place (f z) ≤ topPlace := by
    intro z hz
    rcases infinite_or_hasValue hz with ⟨hinf, -⟩ | ⟨⟨q, hq⟩, -⟩
    · have hplace := htop z hinf
      exact ⟨zero_le_iff.mpr ⟨hplace.isNumber, by rw [hplace.place_eq]; decide⟩,
        hplace.place_eq.le⟩
    · have hround := hvalue z q hq
      refine ⟨hround.nonneg, ?_⟩
      exact hround.rounds.le_topPlace
  refine ⟨(hnumber c hc).1, ?_⟩
  have hd := Decimal.le_trans hc hcd
  rcases infinite_or_hasValue hd with ⟨hinf, -⟩ | ⟨⟨r, hr⟩, hbelow⟩
  · have hplace := htop d hinf
    refine (le_iff_place_le (zero_le_iff.mp (hnumber c hc).1).1 hplace.isNumber).mpr ?_
    rw [hplace.place_eq]
    exact (hnumber c hc).2
  · rcases infinite_or_hasValue hc with ⟨-, htop⟩ | ⟨⟨q, hq⟩, -⟩
    · omega
    · have hqr := hq.le_of_placed hr (placed_place hc') (placed_place hd') hle
      exact (hvalue c q hq).le (hvalue d r hr) (hmono q r hq.nonneg hqr)

/-- A double that is positive and finite. -/
structure IsPositive (c : Float) : Prop where
  isNumber : c.isNaN = false
  pos : 0 < place c
  lt : place c < topPlace

theorem IsPositive.exists_hasValue (h : IsPositive c) : ∃ r, 0 < r ∧ HasValue c.toModel.unpack r := by
  have hplaced := placed_place h.isNumber
  rcases infinite_or_hasValue (zero_le_iff.mpr ⟨h.isNumber, h.pos.le⟩) with
    ⟨-, htop⟩ | ⟨⟨r, hr⟩, -⟩
  · exact absurd htop h.lt.ne
  · refine ⟨r, ?_, hr⟩
    have hpos := h.pos
    generalize c.toModel.unpack = u at hplaced hr
    generalize place c = p at hplaced hpos
    cases hr with
    | zero s =>
        cases hplaced
        exact absurd hpos (lt_irrefl _)
    | finite hpos h => exact mul_pos (by exact_mod_cast hpos) (two_zpow_pos _)

/-- Multiplying by a positive double keeps the order. -/
protected theorem mul_le_mul_left (hz : IsPositive z) (hc : 0 ≤ c) (hcd : c ≤ d) :
    0 ≤ z * c ∧ z * c ≤ z * d := by
  obtain ⟨r, hr, hvalue⟩ := hz.exists_hasValue
  refine le_of_isRounded (f := (z * ·)) (g := (r * ·))
    (fun _ _ _ h => mul_le_mul_of_nonneg_left h hr.le) (fun x q hx => hvalue.mul hx) ?_ hc hcd
  intro x hx
  have hproduct : z * x = ofUnpacked (UnpackedFloat.mul Format.binary64 z.toModel.unpack
      x.toModel.unpack) := rfl
  rw [hproduct, hx]
  generalize z.toModel.unpack = u at hvalue
  cases hvalue with
  | zero s => exact absurd hr (lt_irrefl _)
  | finite hpos h => rfl

/-- Dividing by a positive double keeps the order. -/
protected theorem div_le_div_right (hz : IsPositive z) (hc : 0 ≤ c) (hcd : c ≤ d) :
    0 ≤ c / z ∧ c / z ≤ d / z := by
  obtain ⟨r, hr, hvalue⟩ := hz.exists_hasValue
  refine le_of_isRounded (f := (· / z)) (g := (· / r))
    (fun _ _ _ h => div_le_div_of_nonneg_right h hr.le) (fun x q hx => hx.div hvalue hr) ?_ hc hcd
  intro x hx
  have hquotient : x / z = ofUnpacked (UnpackedFloat.div Format.binary64 x.toModel.unpack
      z.toModel.unpack) := rfl
  rw [hquotient, hx]
  generalize z.toModel.unpack = u at hvalue
  cases hvalue with
  | zero s => exact absurd hr (lt_irrefl _)
  | finite hpos h => rfl

/-- Adding a double that is not negative keeps the order. -/
protected theorem add_le_add_right (hz : 0 ≤ z) (hc : 0 ≤ c) (hcd : c ≤ d) :
    0 ≤ c + z ∧ c + z ≤ d + z := by
  have hsum : ∀ x : Float, x + z = ofUnpacked (UnpackedFloat.add Format.binary64 x.toModel.unpack
      z.toModel.unpack) := fun _ => rfl
  rcases infinite_or_hasValue hz with ⟨hinf, -⟩ | ⟨⟨r, hr⟩, -⟩
  · -- all sums are infinite
    have hall : ∀ x, 0 ≤ x → x + z = ofUnpacked (.infinity .positive) := by
      intro x hx
      rw [hsum, hinf]
      rcases infinite_or_hasValue hx with ⟨hinf', -⟩ | ⟨⟨q, hq⟩, -⟩
      · rw [hinf']
        rfl
      · generalize x.toModel.unpack = u at hq
        cases hq <;> rfl
    have hnumber := hasPlace_infinity.isNumber
    rw [hall c hc, hall d (Decimal.le_trans hc hcd)]
    exact ⟨zero_le_iff.mpr ⟨hnumber, by rw [hasPlace_infinity.place_eq]; decide⟩,
      Decimal.le_refl hnumber⟩
  · refine le_of_isRounded (f := (· + z)) (g := (· + r)) (fun _ _ _ h => by linarith)
      (fun x q hx => hx.add hr) ?_ hc hcd
    intro x hx
    show x + z = _
    rw [hsum, hx]
    generalize z.toModel.unpack = u at hr
    cases hr <;> rfl

protected theorem mul_comm (c d : Float) : c * d = d * c := by
  have hparts : ∀ u v, UnpackedFloat.mul Format.binary64 u v =
      UnpackedFloat.mul Format.binary64 v u := by
    have hsign : ∀ s s' : Sign, s * s' = s' * s := by
      intro s s'
      cases s <;> cases s' <;> rfl
    intro u v
    cases u <;> cases v
    case finite.finite s m e _ s' n e' _ =>
      show UnpackedFloat.roundWithAccuracy Format.binary64 (s * s') (m * n) (e + e') .exact =
        UnpackedFloat.roundWithAccuracy Format.binary64 (s' * s) (n * m) (e' + e) .exact
      rw [hsign s s', Nat.mul_comm m n, Int.add_comm e e']
    case zero.zero | zero.finite | finite.zero =>
      exact congrArg UnpackedFloat.zero (hsign _ _)
    case infinity.infinity | infinity.finite | finite.infinity =>
      exact congrArg UnpackedFloat.infinity (hsign _ _)
    all_goals rfl
  exact congrArg ofUnpacked (hparts c.toModel.unpack d.toModel.unpack)

/-! ## What is no number -/

theorem isNaN_ofUnpacked : (ofUnpacked .notANumber).isNaN = true := by decide +kernel

theorem isNaN_mul (h : d.isNaN = true) : (c * d).isNaN = true := by
  have hproduct : c * d = ofUnpacked (UnpackedFloat.mul Format.binary64 c.toModel.unpack
      d.toModel.unpack) := rfl
  rw [hproduct, isNaN_iff.mp h]
  cases c.toModel.unpack <;> exact isNaN_ofUnpacked

theorem isNaN_add (h : d.isNaN = true) : (c + d).isNaN = true := by
  have hsum : c + d = ofUnpacked (UnpackedFloat.add Format.binary64 c.toModel.unpack
      d.toModel.unpack) := rfl
  rw [hsum, isNaN_iff.mp h]
  cases c.toModel.unpack <;> exact isNaN_ofUnpacked

/-- Dividing by a number that is not too small fails only when both are infinite. -/
theorem isNaN_div_or_nonneg (hc : 0 ≤ c) (hd : 1 ≤ d) : (c / d).isNaN = true ∨ 0 ≤ c / d := by
  have hone : 0 < place 1 := by decide +kernel
  obtain ⟨hnumber, hnumber'⟩ := isNaN_of_le hd
  have hpos : 0 < place d := hone.trans_le ((le_iff_place_le hnumber hnumber').mp hd)
  rcases infinite_or_hasValue (zero_le_iff.mpr ⟨hnumber', hpos.le⟩) with ⟨hinf, -⟩ | ⟨-, hlt⟩
  · have hquotient : c / d = ofUnpacked (UnpackedFloat.div Format.binary64 c.toModel.unpack
        d.toModel.unpack) := rfl
    rw [hquotient, hinf]
    rcases infinite_or_hasValue hc with ⟨hinf', -⟩ | ⟨⟨q, hq⟩, -⟩
    · rw [hinf']
      exact .inl isNaN_ofUnpacked
    · generalize c.toModel.unpack = u at hq
      cases hq <;> exact .inr (isRounded_zero _).nonneg
  · exact .inr (Decimal.div_le_div_right ⟨hnumber', hpos, hlt⟩ hc
      (Decimal.le_refl (isNaN_of_le hc).2)).1

/-! ## Whole numbers -/

theorem isRounded_toUInt64_toFloat (h : n < 2 ^ 64) : IsRounded n n.toUInt64.toFloat := by
  have hnat : n.toUInt64.toNat = n := Nat.mod_eq_of_lt h
  have hfloat : n.toUInt64.toFloat =
      ofUnpacked (UnpackedFloat.normalize Format.binary64 n.toUInt64.toNat 0 .positive) := rfl
  have hround := isRounded_normalize n 0
  rw [zpow_zero, mul_one] at hround
  rw [hfloat, hnat]
  exact hround

/-- A number with at most 53 binary digits is converted as a word. -/
theorem toFloat_of_lt (h : n < 2 ^ 53) : n.toFloat = 1 * n.toUInt64.toFloat := by
  show Float.ofScientific n false 0 = _
  rw [Float.ofScientific, dif_pos ⟨h, by omega⟩]
  exact Decimal.mul_comm _ _

theorem isRounded_toFloat_of_le (h : 2 ^ 53 ≤ n) : IsRounded n n.toFloat := by
  have hfloat : n.toFloat = .ofModel (.ofScientific n 0) := by
    show Float.ofScientific n false 0 = _
    rw [Float.ofScientific, dif_neg (by omega)]
    rfl
  have hparts : UnpackedFloat.ofScientific Format.binary64 n 0 =
      roundWithAccuracy Format.binary64 .positive (n <<< 53 * 1) (-53 + 0) .exact := by
    have hpower : (0 : Int) ≤ 2 ^ Format.binary64.exponentBits := by positivity
    rw [UnpackedFloat.ofScientific, dif_neg (by omega), if_neg (by omega), if_neg (by omega),
      if_pos (le_refl _)]
    rfl
  have hround := isRounded_product (n <<< 53) 1 (-53) 0
    (.inl (by rw [Nat.shiftLeft_eq]; omega))
  have hvalue : ((n <<< 53 : Nat) : ℚ) * 2 ^ (-53 : Int) * ((1 : Nat) * 2 ^ (0 : Int)) = n := by
    have hshift := shiftLeft_mul_two_zpow n (show (-53 : Int) ≤ 0 by decide)
    rw [zpow_zero, mul_one] at hshift ⊢
    rw [Nat.cast_one, mul_one]
    exact hshift
  rw [hvalue, ← hparts] at hround
  rw [hfloat]
  exact hround

/-- Whole numbers keep their order as doubles. -/
theorem toFloat_le (h : m ≤ n) : 0 ≤ m.toFloat ∧ m.toFloat ≤ n.toFloat := by
  have hone : IsPositive 1 := ⟨by decide +kernel, by decide +kernel, by decide +kernel⟩
  have hfast : ∀ k l : Nat, k ≤ l → l < 2 ^ 64 →
      0 ≤ 1 * k.toUInt64.toFloat ∧ 1 * k.toUInt64.toFloat ≤ 1 * l.toUInt64.toFloat := by
    intro k l hkl hl
    have hk := isRounded_toUInt64_toFloat (hkl.trans_lt hl)
    exact Decimal.mul_le_mul_left hone hk.nonneg
      (hk.le (isRounded_toUInt64_toFloat hl) (by exact_mod_cast hkl))
  by_cases hn : n < 2 ^ 53
  · rw [toFloat_of_lt hn, toFloat_of_lt (h.trans_lt hn)]
    exact hfast m n h (by omega)
  · have hlarge := isRounded_toFloat_of_le (not_lt.mp hn)
    by_cases hm : m < 2 ^ 53
    · -- both sides of the least number that is converted otherwise
      have hleast : 1 * (2 ^ 53 : Nat).toUInt64.toFloat = (2 ^ 53 : Nat).toFloat := by decide +kernel
      obtain ⟨hnonneg, hle⟩ := hfast m (2 ^ 53) hm.le (by norm_num)
      rw [toFloat_of_lt hm]
      refine ⟨hnonneg, Decimal.le_trans hle ?_⟩
      rw [hleast]
      exact (isRounded_toFloat_of_le (le_refl _)).le hlarge (by exact_mod_cast not_lt.mp hn)
    · have hsmall := isRounded_toFloat_of_le (not_lt.mp hm)
      exact ⟨hsmall.nonneg, hsmall.le hlarge (by exact_mod_cast h)⟩

end Testwright.Decimal
