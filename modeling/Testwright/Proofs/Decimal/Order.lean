import Testwright.Decimal.Shortest

/-!
# The order of doubles

Doubles are compared as whole numbers are: all their bits but the first, read as a number with the
first one as its sign, are the place of a double, and a double that is a number is less than another
one when its place is (`lt_iff_place_lt`). What is no number is not compared.
-/

namespace Testwright.Decimal

open Float.Model (Format UnpackedFloat)
open Float.Model.UnpackedFloat

/-! ## Places -/

/-- The bits of a double without the sign. -/
def sizeBits (x : Float) : Nat := x.toBits.toNat % 0x8000000000000000

/-- The place of a double that is a number among the others. Both zeros have the same one. -/
def place (x : Float) : Int := if signBit x then -(sizeBits x : Int) else sizeBits x

/-- The place of a double from its parts. A finite one has as many places below it as its exponent
and its mantissa, one after the other, tell. -/
inductive Placed : UnpackedFloat → Int → Prop
  | infinity (s : Sign) : Placed (.infinity s) (s.apply (2047 * 0x10000000000000))
  | zero (s : Sign) : Placed (.zero s) 0
  | finite (s : Sign) {m : Nat} {e : Int} (hpos : 0 < m) (hm : m < 0x20000000000000)
      (he : -1074 ≤ e ∧ e < 972) (hnormal : 0x10000000000000 ≤ m ∨ e = -1074) :
      Placed (.finite s m e hpos) (s.apply ((e + 1074) * 0x10000000000000 + m))

/-! ## Comparing places -/

/-- The mantissa decides between doubles of one exponent only, since it is large unless the exponent
is the least one. -/
theorem compare_then {m m' : Nat} {e e' : Int} (hm : m < 0x20000000000000)
    (hm' : m' < 0x20000000000000) (he : -1074 ≤ e) (he' : -1074 ≤ e')
    (hnormal : 0x10000000000000 ≤ m ∨ e = -1074)
    (hnormal' : 0x10000000000000 ≤ m' ∨ e' = -1074) :
    (compare e e').then (compare m m') =
      compare ((e + 1074) * 0x10000000000000 + m) ((e' + 1074) * 0x10000000000000 + m') := by
  rcases Int.lt_trichotomy ((e + 1074) * 0x10000000000000 + m)
    ((e' + 1074) * 0x10000000000000 + m') with hlt | heq | hgt
  · rw [Int.compare_eq_lt.mpr hlt, Ordering.then_eq_lt, Int.compare_eq_lt, Int.compare_eq_eq,
      Nat.compare_eq_lt]
    omega
  · rw [Int.compare_eq_eq.mpr heq, Ordering.then_eq_eq, Int.compare_eq_eq, Nat.compare_eq_eq]
    omega
  · rw [Int.compare_eq_gt.mpr hgt, Ordering.then_eq_gt, Int.compare_eq_gt, Int.compare_eq_eq,
      Nat.compare_eq_gt]
    omega

theorem lt_eq_compare {p q : Int} (h : p < q) : some Ordering.lt = some (compare p q) := by
  rw [Int.compare_eq_lt.mpr h]

theorem gt_eq_compare {p q : Int} (h : q < p) : some Ordering.gt = some (compare p q) := by
  rw [Int.compare_eq_gt.mpr h]

theorem compare_neg (p q : Int) : compare (-p) (-q) = compare q p := by
  simp only [Int.compare_eq_ite_lt, Int.neg_lt_neg_iff]

/-- Doubles compare as their places do. -/
theorem Placed.compare_eq {u v : UnpackedFloat} {p q : Int} (hu : Placed u p) (hv : Placed v q) :
    u.compare v = some (compare p q) := by
  cases hu with
  | infinity s =>
      cases hv with
      | infinity s' => cases s <;> cases s' <;> rfl
      | zero s' => cases s <;> rfl
      | finite s' hpos hm he hnormal =>
          cases s with
          | negative => exact lt_eq_compare (by cases s' <;> simp only [Sign.apply] <;> omega)
          | positive => exact gt_eq_compare (by cases s' <;> simp only [Sign.apply] <;> omega)
  | zero s =>
      cases hv with
      | infinity s' => cases s' <;> rfl
      | zero s' => rfl
      | finite s' hpos hm he hnormal =>
          cases s' with
          | negative => exact gt_eq_compare (by simp only [Sign.apply]; omega)
          | positive => exact lt_eq_compare (by simp only [Sign.apply]; omega)
  | finite s hpos hm he hnormal =>
      cases hv with
      | infinity s' =>
          cases s' with
          | negative => exact gt_eq_compare (by cases s <;> simp only [Sign.apply] <;> omega)
          | positive => exact lt_eq_compare (by cases s <;> simp only [Sign.apply] <;> omega)
      | zero s' =>
          cases s with
          | negative => exact lt_eq_compare (by simp only [Sign.apply]; omega)
          | positive => exact gt_eq_compare (by simp only [Sign.apply]; omega)
      | finite s' hpos' hm' he' hnormal' =>
          have hsize := compare_then hm hm' he.1 he'.1 hnormal hnormal'
          cases s <;> cases s'
          · have hswap := congrArg Ordering.swap hsize
            exact congrArg some
              (hswap.trans ((Int.compare_swap _ _).trans (compare_neg _ _).symm))
          · exact lt_eq_compare (by simp only [Sign.apply]; omega)
          · exact gt_eq_compare (by simp only [Sign.apply]; omega)
          · exact congrArg some hsize

/-! ## The parts of a double -/

section

variable (b : BitVec 64)

theorem toNat_unpackMantissa :
    (@unpackMantissa Format.binary64 b).toNat = b.toNat % 0x10000000000000 := by
  simp [unpackMantissa, BitVec.extractLsb_toNat]

theorem toNat_unpackExponent :
    (@unpackExponent Format.binary64 b).toNat =
      b.toNat / 0x10000000000000 % 2048 := by
  simp [unpackExponent, BitVec.extractLsb_toNat, Nat.shiftRight_eq_div_pow]

theorem toNat_unpackSign :
    (@unpackSign Format.binary64 b).toNat = b.toNat / 0x8000000000000000 := by
  have hlt := b.isLt
  show ((b.extractLsb 63 63).cast _).toNat = _
  rw [BitVec.toNat_cast, BitVec.extractLsb_toNat, Nat.shiftRight_eq_div_pow]
  omega

end

/-- A double of the least exponent `E` has no leading bit: its mantissa counts its steps from zero. -/
theorem Placed.subnormal (s : Sign) {E m : Nat} (hE : E = 0) (hpos : 0 < m)
    (hm : m < 0x10000000000000) :
    Placed (.finite s m (E - 1075 + 1) hpos) (s.apply (E * 0x10000000000000 + m)) := by
  have hplaced := Placed.finite s (e := E - 1075 + 1) hpos (by omega) (by omega) (.inr (by omega))
  have hplace : ((E : Int) - 1075 + 1 + 1074) * 0x10000000000000 + m = E * 0x10000000000000 + m := by
    omega
  rwa [hplace] at hplaced

/-- With any other exponent `E`, the leading bit before the mantissa `m` counts as one step of the
exponent. -/
theorem Placed.normal (s : Sign) {E m n : Nat} (hE : 0 < E ∧ E < 2047) (hm : m < 0x10000000000000)
    (hn : n = 0x10000000000000 + m) (hpos : 0 < n) :
    Placed (.finite s n (E - 1075) hpos) (s.apply (E * 0x10000000000000 + m)) := by
  have hplaced := Placed.finite s (e := E - 1075) hpos (by omega) (by omega) (.inl (by omega))
  have hplace : ((E : Int) - 1075 + 1074) * 0x10000000000000 + n = E * 0x10000000000000 + m := by
    omega
  rwa [hplace] at hplaced

theorem placed_unpack (b : BitVec Format.binary64.numBits)
    (h : (UnpackedFloat.unpack Format.binary64 b).isNaN = false) :
    Placed (UnpackedFloat.unpack Format.binary64 b)
      ((Sign.ofBitVec (unpackSign b)).apply
        ((unpackExponent b).toNat * 0x10000000000000 + (unpackMantissa b).toNat)) := by
  have hmantissa : (unpackMantissa b).toNat < 0x10000000000000 := (unpackMantissa b).isLt
  have hexponent : (unpackExponent b).toNat < 2048 := (unpackExponent b).isLt
  unfold UnpackedFloat.unpack at h ⊢
  dsimp only at h ⊢
  by_cases hmax : unpackExponent b = -1#_
  · -- an infinity, since the double is a number
    rw [if_pos hmax] at h ⊢
    by_cases hzero : unpackMantissa b = 0#_
    · rw [if_pos hzero, hmax, hzero]
      exact .infinity _
    · rw [if_neg hzero] at h
      cases h
  have hbelow : (unpackExponent b).toNat ≠ 2047 := fun he => hmax (BitVec.eq_of_toNat_eq he)
  rw [if_neg hmax]
  by_cases hmin : unpackExponent b = 0#_
  · have hleast : (unpackExponent b).toNat = 0 := by
      rw [hmin]
      rfl
    rw [if_pos hmin]
    by_cases hzero : unpackMantissa b = 0#_
    · rw [dif_pos hzero, hleast, hzero]
      cases Sign.ofBitVec (unpackSign b) <;> exact .zero _
    · have hpos : 0 < (unpackMantissa b).toNat :=
        Nat.pos_of_ne_zero fun h0 => hzero (BitVec.eq_of_toNat_eq h0)
      rw [dif_neg hzero]
      exact .subnormal _ hleast hpos hmantissa
  · have habove : (unpackExponent b).toNat ≠ 0 := fun he => hmin (BitVec.eq_of_toNat_eq he)
    have hleading : (1#1 ++ unpackMantissa b).toNat =
        0x10000000000000 + (unpackMantissa b).toNat := by
      rw [BitVec.toNat_append, ← Nat.shiftLeft_add_eq_or_of_lt (unpackMantissa b).isLt]
      rfl
    rw [if_neg hmin]
    exact .normal _ (by omega) hmantissa hleading (by omega)

theorem signBit_eq_decide (x : Float) :
    signBit x = decide (0x8000000000000000 ≤ x.toBits.toNat) := by
  have hlt := x.toBits.toNat_lt
  rw [signBit, Bool.eq_iff_iff, beq_iff_eq, decide_eq_true_eq, ← UInt64.toNat_inj,
    UInt64.toNat_shiftRight, Nat.shiftRight_eq_div_pow]
  show x.toBits.toNat / 0x8000000000000000 = 1 ↔ _
  omega

theorem ofBitVec_unpackSign (x : Float) :
    Sign.ofBitVec (@unpackSign Format.binary64 x.toBits.toBitVec) =
      if signBit x then .negative else .positive := by
  have hsign : (@unpackSign Format.binary64 x.toBits.toBitVec).toNat =
      x.toBits.toNat / 0x8000000000000000 := toNat_unpackSign _
  have hlt := x.toBits.toNat_lt
  rw [signBit_eq_decide, Sign.ofBitVec]
  by_cases hlarge : 0x8000000000000000 ≤ x.toBits.toNat
  · rw [if_neg, decide_eq_true hlarge, if_pos rfl]
    intro hzero
    rw [hzero] at hsign
    have hquot : 0 = x.toBits.toNat / 0x8000000000000000 := hsign
    omega
  · rw [if_pos, decide_eq_false hlarge, if_neg Bool.false_ne_true]
    apply BitVec.eq_of_toNat_eq
    rw [hsign]
    show _ = 0
    omega

theorem place_nonpos {x : Float} (h : signBit x = true) : place x ≤ 0 := by
  rw [place, if_pos h]
  omega

theorem place_nonneg {x : Float} (h : signBit x = false) : 0 ≤ place x := by
  rw [place, h]
  exact Int.natCast_nonneg _

/-- A number has its place. -/
theorem placed_place {x : Float} (h : x.isNaN = false) : Placed x.toModel.unpack (place x) := by
  have hplaced := placed_unpack x.toBits.toBitVec h
  have hmantissa : (@unpackMantissa Format.binary64 x.toBits.toBitVec).toNat =
      x.toBits.toNat % 0x10000000000000 := toNat_unpackMantissa _
  have hexponent : (@unpackExponent Format.binary64 x.toBits.toBitVec).toNat =
      x.toBits.toNat / 0x10000000000000 % 2048 := toNat_unpackExponent _
  have hsize : (x.toBits.toNat / 0x10000000000000 % 2048 : Nat) * (0x10000000000000 : Int) +
      (x.toBits.toNat % 0x10000000000000 : Nat) = sizeBits x := by
    rw [sizeBits]
    omega
  rw [ofBitVec_unpackSign, hmantissa, hexponent, hsize] at hplaced
  rw [place]
  cases hs : signBit x <;> rw [hs] at hplaced <;> exact hplaced

/-! ## The order -/

/-- What is no number is not compared. -/
theorem compare_unpack_of_isNaN {u v : UnpackedFloat} (h : u.isNaN = true ∨ v.isNaN = true) :
    u.compare v = none := by
  have hnone : ∀ w : UnpackedFloat, w.isNaN = true → w = .notANumber := by
    intro w hw
    cases w with
    | notANumber => rfl
    | _ => cases hw
  rcases h with hu | hv
  · rw [hnone u hu]
    cases v <;> rfl
  · rw [hnone v hv]
    cases u <;> rfl

variable {x y z : Float}

theorem compare_unpack (hx : x.isNaN = false) (hy : y.isNaN = false) :
    x.toModel.unpack.compare y.toModel.unpack = some (compare (place x) (place y)) :=
  (placed_place hx).compare_eq (placed_place hy)

/-- Numbers are in the order of their places. -/
theorem lt_iff_place_lt (hx : x.isNaN = false) (hy : y.isNaN = false) :
    x < y ↔ place x < place y := by
  show (decide (x.toModel.unpack.lt y.toModel.unpack = true)) = true ↔ _
  rw [decide_eq_true_eq, UnpackedFloat.lt, compare_unpack hx hy, beq_iff_eq, Option.some_inj,
    Int.compare_eq_lt]

theorem le_iff_place_le (hx : x.isNaN = false) (hy : y.isNaN = false) :
    x ≤ y ↔ place x ≤ place y := by
  show (decide (x.toModel.unpack.le y.toModel.unpack = true)) = true ↔ _
  rw [decide_eq_true_eq, UnpackedFloat.le, compare_unpack hx hy, Option.any_some, Int.isLE_compare]

/-- Only numbers are compared. -/
theorem isNaN_of_le (h : x ≤ y) : x.isNaN = false ∧ y.isNaN = false := by
  have hle : x.toModel.unpack.le y.toModel.unpack = true := of_decide_eq_true h
  rw [UnpackedFloat.le] at hle
  cases hx : x.isNaN with
  | true =>
      rw [compare_unpack_of_isNaN (.inl hx)] at hle
      cases hle
  | false =>
      refine ⟨rfl, ?_⟩
      cases hy : y.isNaN with
      | true =>
          rw [compare_unpack_of_isNaN (.inr hy)] at hle
          cases hle
      | false => rfl

theorem isNaN_of_lt (h : x < y) : x.isNaN = false ∧ y.isNaN = false := by
  have hlt : x.toModel.unpack.lt y.toModel.unpack = true := of_decide_eq_true h
  rw [UnpackedFloat.lt] at hlt
  constructor
  · cases hx : x.isNaN with
    | true =>
        rw [compare_unpack_of_isNaN (.inl hx)] at hlt
        cases hlt
    | false => rfl
  · cases hy : y.isNaN with
    | true =>
        rw [compare_unpack_of_isNaN (.inr hy)] at hlt
        cases hlt
    | false => rfl

protected theorem le_refl (hx : x.isNaN = false) : x ≤ x :=
  (le_iff_place_le hx hx).mpr (Int.le_refl _)

protected theorem le_trans (hxy : x ≤ y) (hyz : y ≤ z) : x ≤ z := by
  obtain ⟨hx, hy⟩ := isNaN_of_le hxy
  obtain ⟨-, hz⟩ := isNaN_of_le hyz
  exact (le_iff_place_le hx hz).mpr
    (Int.le_trans ((le_iff_place_le hx hy).mp hxy) ((le_iff_place_le hy hz).mp hyz))

protected theorem lt_irrefl : ¬ x < x := by
  intro h
  obtain ⟨hx, -⟩ := isNaN_of_lt h
  exact Int.lt_irrefl _ ((lt_iff_place_lt hx hx).mp h)

protected theorem lt_asymm (h : x < y) : ¬ y < x := by
  obtain ⟨hx, hy⟩ := isNaN_of_lt h
  rw [lt_iff_place_lt hx hy] at h
  rw [lt_iff_place_lt hy hx]
  exact Int.not_lt.mpr (Int.le_of_lt h)

protected theorem lt_of_le_of_lt (hxy : x ≤ y) (hyz : y < z) : x < z := by
  obtain ⟨hx, hy⟩ := isNaN_of_le hxy
  obtain ⟨-, hz⟩ := isNaN_of_lt hyz
  exact (lt_iff_place_lt hx hz).mpr
    (Int.lt_of_le_of_lt ((le_iff_place_le hx hy).mp hxy) ((lt_iff_place_lt hy hz).mp hyz))

protected theorem lt_of_lt_of_le (hxy : x < y) (hyz : y ≤ z) : x < z := by
  obtain ⟨hx, hy⟩ := isNaN_of_lt hxy
  obtain ⟨-, hz⟩ := isNaN_of_le hyz
  exact (lt_iff_place_lt hx hz).mpr
    (Int.lt_of_lt_of_le ((lt_iff_place_lt hx hy).mp hxy) ((le_iff_place_le hy hz).mp hyz))

/-- One of two numbers is at most the other. -/
protected theorem le_of_not_lt (hx : x.isNaN = false) (hy : y.isNaN = false) (h : ¬ x < y) :
    y ≤ x := by
  rw [lt_iff_place_lt hx hy, Int.not_lt] at h
  exact (le_iff_place_le hy hx).mpr h

theorem isNaN_iff : x.isNaN = true ↔ x.toModel.unpack = .notANumber := by
  show x.toModel.unpack.isNaN = true ↔ _
  cases x.toModel.unpack with
  | notANumber => exact iff_of_true rfl rfl
  | _ => constructor <;> intro h <;> cases h

end Testwright.Decimal
