import Mathlib.Algebra.Order.Field.Power
import Mathlib.Tactic.FieldSimp
import Mathlib.Tactic.Linarith
import Mathlib.Tactic.Ring
import Testwright.Proofs.Decimal.Order

/-!
# Rounding to doubles

A number that is not negative is rounded to a double by cutting off the digits of its mantissa that
are too many, with enough kept in mind about them to find the nearest double. Main statements: what
comes out is the nearest double (`isRounded_roundWithAccuracy`), and a greater number is not rounded
to a lower one (`Rounds.mono`). Doubles are told apart by their places.
-/

namespace Testwright.Decimal

open Float.Model (Format UnpackedFloat totalExponent)
open Float.Model.UnpackedFloat

variable {x y q r : ℚ} {m n : Nat} {p p' : Int}

/-- The place of the positive infinity. -/
def topPlace : Int := 2047 * 0x10000000000000

/-! ## The places of packed doubles -/

/-- A double is a number and has this place. -/
structure HasPlace (x : Float) (p : Int) : Prop where
  isNumber : x.isNaN = false
  place_eq : place x = p

theorem isNaN_unpack_of_exponent {b : BitVec Format.binary64.numBits}
    (h : (unpackExponent b).toNat = 2047 → (unpackMantissa b).toNat = 0) :
    (UnpackedFloat.unpack Format.binary64 b).isNaN = false := by
  unfold UnpackedFloat.unpack
  dsimp only
  by_cases hmax : unpackExponent b = -1#_
  · have hzero : unpackMantissa b = 0#_ := by
      apply BitVec.eq_of_toNat_eq
      rw [h (by rw [hmax]; rfl)]
      rfl
    rw [if_pos hmax, if_pos hzero]
    rfl
  · rw [if_neg hmax]
    by_cases hmin : unpackExponent b = 0#_
    · rw [if_pos hmin]
      by_cases hzero : unpackMantissa b = 0#_
      · rw [dif_pos hzero]
        rfl
      · rw [dif_neg hzero]
        rfl
    · rw [if_neg hmin]
      rfl

/-- The bits of a double that is not negative are its place. -/
theorem hasPlace_of_toNat {x : Float} {n : Nat} (h : x.toBits.toNat = n)
    (hn : (n : Int) ≤ topPlace) : HasPlace x n where
  isNumber := by
    refine isNaN_unpack_of_exponent (b := x.toBits.toBitVec) fun hmax => ?_
    have hbits : x.toBits.toBitVec.toNat = n := h
    rw [toNat_unpackExponent, hbits] at hmax
    rw [toNat_unpackMantissa, hbits]
    rw [topPlace] at hn
    omega
  place_eq := by
    have hsign : signBit x = false := by
      rw [signBit_eq_decide, h, decide_eq_false_iff_not]
      rw [topPlace] at hn
      omega
    rw [place, hsign, if_neg Bool.false_ne_true, sizeBits, h]
    rw [topPlace] at hn
    omega

/-- The double with some parts. -/
def ofUnpacked (u : UnpackedFloat) : Float := .ofModel (.pack u)

theorem toNat_toBits_ofUnpacked (u : UnpackedFloat) :
    (ofUnpacked u).toBits.toNat = (UnpackedFloat.pack Format.binary64 u).toNat := rfl

theorem toNat_packComponents (E : BitVec 11) (M : BitVec 52) :
    (packComponents Format.binary64 .positive E M).toNat =
      E.toNat * 0x10000000000000 + M.toNat := by
  have hM := M.isLt
  show ((0#1 ++ E) ++ M).toNat = _
  rw [BitVec.toNat_append, ← Nat.shiftLeft_add_eq_or_of_lt hM, BitVec.toNat_append,
    Nat.shiftLeft_eq]
  simp

/-- Parts as a double has them. -/
structure IsCanonical (m : Nat) (e : Int) : Prop where
  lt : m < 0x20000000000000
  least : -1074 ≤ e
  normal : 0x10000000000000 ≤ m ∨ e = -1074

theorem log2_eq_of_normal {m : Nat} (hlarge : 0x10000000000000 ≤ m) (hlt : m < 0x20000000000000) :
    m.log2 = 52 := (Nat.log2_eq_iff (by omega)).mpr ⟨by omega, by omega⟩

theorem hasPlace_infinity : HasPlace (ofUnpacked (.infinity .positive)) topPlace :=
  hasPlace_of_toNat (n := 2047 * 0x10000000000000) (toNat_packComponents _ _) (le_refl _)

theorem hasPlace_zero (s : Sign) : HasPlace (ofUnpacked (.zero s)) 0 := by
  cases s <;> exact ⟨by decide +kernel, by decide +kernel⟩

theorem hasPlace_finite {m : Nat} {e : Int} (hpos : 0 < m) (h : IsCanonical m e) :
    HasPlace (ofUnpacked (.finite .positive m e hpos))
      (min ((e + 1074) * 0x10000000000000 + m) topPlace) := by
  obtain ⟨hlt, hleast, hnormal⟩ := h
  let exponent := (e + (1023 : Nat) + (52 : Nat)).toNat
  have hpack : UnpackedFloat.pack Format.binary64 (.finite .positive m e hpos) =
      if 2 ^ 11 ≤ exponent + 1 then packedInfinity Format.binary64 .positive
      else if m.log2 + 1 = 53 then
        packComponents Format.binary64 .positive (BitVec.ofNat 11 exponent) (BitVec.ofNat 52 m)
      else packComponents Format.binary64 .positive 0#11 (BitVec.ofNat 52 m) := rfl
  have hbits := toNat_toBits_ofUnpacked (.finite .positive m e hpos)
  by_cases hmax : 2 ^ 11 ≤ exponent + 1
  · -- too large, so the infinity
    rw [hpack, if_pos hmax] at hbits
    have hplace : HasPlace (ofUnpacked (.finite .positive m e hpos)) topPlace := by
      refine hasPlace_of_toNat (n := 2047 * 0x10000000000000) ?_ (le_refl _)
      rw [hbits]
      exact toNat_packComponents _ _
    have hmin : min ((e + 1074) * 0x10000000000000 + m) topPlace = topPlace := by
      rw [topPlace]
      omega
    rw [hmin]
    exact hplace
  · rw [hpack, if_neg hmax] at hbits
    have hmin : min ((e + 1074) * 0x10000000000000 + m) topPlace =
        (((e + 1074).toNat * 0x10000000000000 + m : Nat) : Int) := by
      rw [topPlace]
      omega
    have hle : (((e + 1074).toNat * 0x10000000000000 + m : Nat) : Int) ≤ topPlace := by
      rw [topPlace]
      omega
    rw [hmin]
    refine hasPlace_of_toNat ?_ hle
    rw [hbits]
    split
    · rename_i hlog
      have hlarge : 2 ^ m.log2 ≤ m := Nat.log2_self_le (by omega)
      rw [show m.log2 = 52 by omega] at hlarge
      rw [toNat_packComponents, BitVec.toNat_ofNat, BitVec.toNat_ofNat]
      omega
    · rename_i hlog
      have hsmall : ¬ 0x10000000000000 ≤ m := fun hlarge =>
        hlog (by rw [log2_eq_of_normal hlarge hlt])
      have he := hnormal.resolve_left hsmall
      rw [toNat_packComponents, BitVec.toNat_ofNat, BitVec.toNat_ofNat]
      omega

/-! ## Nearest whole numbers -/

/-- A whole number nearest to `x`; of two equally near ones it is the even one. -/
structure Nearest (x : ℚ) (n : Nat) : Prop where
  le : n ≤ x + 1 / 2
  ge : x ≤ n + 1 / 2
  even : n = x + 1 / 2 ∨ x = n + 1 / 2 → n % 2 = 0

theorem Nearest.self (n : Nat) : Nearest n n where
  le := by linarith
  ge := by linarith
  even := by
    rintro (h | h)
    · linarith
    · linarith

theorem Nearest.of_lt (hle : (n : ℚ) < x + 1 / 2) (hge : x < n + 1 / 2) : Nearest x n where
  le := hle.le
  ge := hge.le
  even := by
    rintro (h | h)
    · exact absurd h hle.ne
    · exact absurd h hge.ne

theorem Nearest.mono (hm : Nearest x m) (hn : Nearest y n) (hxy : x ≤ y) : m ≤ n := by
  by_contra hlt
  have hstep : (n : ℚ) + 1 ≤ m := by exact_mod_cast Nat.succ_le_of_lt (not_le.mp hlt)
  -- both lie half a unit from the one number between them, so both are even
  have hupper := hm.le
  have hlower := hn.ge
  have hm' := hm.even (.inl (by linarith))
  have hn' := hn.even (.inr (by linarith))
  have heq : m = n + 1 := by
    have hq : (m : ℚ) = n + 1 := by linarith
    exact_mod_cast hq
  omega

/-! ## Mantissas with what was cut off -/

/-- A mantissa and what is known about the fraction that was cut off stand for `x`. -/
def Approximates (m : Nat) : Accuracy → ℚ → Prop
  | .exact, x => x = m
  | .inexact .lt, x => m < x ∧ x < m + 1 / 2
  | .inexact .eq, x => x = m + 1 / 2
  | .inexact .gt, x => m + 1 / 2 < x ∧ x < m + 1

variable {a : Accuracy}

theorem Approximates.le (h : Approximates m a x) : m ≤ x := by
  rcases a with _ | _ | _ | _ <;> simp only [Approximates] at h <;> linarith

theorem Approximates.lt (h : Approximates m a x) : x < m + 1 := by
  rcases a with _ | _ | _ | _ <;> simp only [Approximates] at h <;> linarith

theorem Approximates.nearest (h : Approximates m a x) : Nearest x (a.roundToNearestEven m) := by
  rcases a with _ | _ | _ | _
  · cases h
    exact .self m
  · obtain ⟨hle, hlt⟩ := h
    exact .of_lt (by simp only [Accuracy.roundToNearestEven]; linarith) hlt
  · -- halfway, where the parity of the mantissa decides
    cases h
    rcases Nat.mod_two_eq_zero_or_one m with hm | hm
    · have hround : (Accuracy.inexact .eq).roundToNearestEven m = m := by
        simp only [Accuracy.roundToNearestEven, hm, Nat.add_zero]
      rw [hround]
      exact ⟨by linarith, le_refl _, fun _ => hm⟩
    · have hround : (Accuracy.inexact .eq).roundToNearestEven m = m + 1 := by
        simp only [Accuracy.roundToNearestEven, hm]
      rw [hround]
      exact ⟨by push_cast; linarith, by push_cast; linarith, fun _ => by omega⟩
  · obtain ⟨hlt, hle⟩ := h
    refine .of_lt ?_ ?_ <;> simp only [Accuracy.roundToNearestEven] <;> push_cast <;> linarith

/-- Cutting off one more bit halves the number. -/
theorem Approximates.shiftRightOne {em : ExtendedMantissa}
    (h : Approximates em.mantissa em.accuracy x) :
    Approximates em.shiftRightOne.mantissa em.shiftRightOne.accuracy (x / 2) := by
  obtain ⟨m, roundBit, stickyBit⟩ := em
  obtain ⟨k, hk⟩ : ∃ k, m = 2 * k ∨ m = 2 * k + 1 := ⟨m / 2, by omega⟩
  have heven : 2 * k / 2 = k ∧ 2 * k % 2 = 0 := by omega
  have hodd : (2 * k + 1) / 2 = k ∧ (2 * k + 1) % 2 = 1 := by omega
  rcases hk with rfl | rfl <;> cases roundBit <;> cases stickyBit <;>
    simp [ExtendedMantissa.shiftRightOne, ExtendedMantissa.accuracy, Approximates, heven, hodd]
      at h ⊢
  · linarith
  · exact ⟨by linarith [h.1], by linarith [h.2]⟩
  · exact ⟨by linarith, by linarith⟩
  · exact ⟨by linarith [h.1], by linarith [h.2]⟩
  · linarith
  · exact ⟨by linarith [h.1], by linarith [h.2]⟩
  · exact ⟨by linarith, by linarith⟩
  · exact ⟨by linarith [h.1], by linarith [h.2]⟩

theorem Approximates.shiftRight {em : ExtendedMantissa}
    (h : Approximates em.mantissa em.accuracy x) (k : Nat) :
    Approximates (em >>> k).mantissa (em >>> k).accuracy (x / 2 ^ k) := by
  induction k with
  | zero =>
      rw [pow_zero, div_one]
      exact h
  | succ k ih =>
      have hshift : em >>> (k + 1) = (em >>> k).shiftRightOne := rfl
      rw [hshift, pow_succ, ← div_div]
      exact ih.shiftRightOne

/-! ## The place that a number is rounded to -/

/-- The place of the double to which a number that is not negative is rounded: in units of its last
digit the nearest whole number, or the infinity where this is too much. -/
inductive Rounds (q : ℚ) : Int → Prop
  | intro {e : Int} {m : Nat} (hleast : -1074 ≤ e) (hbelow : q < 2 ^ (e + 53))
      (hnormal : e = -1074 ∨ 2 ^ (e + 52) ≤ q) (hnearest : Nearest (q / 2 ^ e) m) :
      Rounds q (min ((e + 1074) * 0x10000000000000 + m) topPlace)

theorem two_zpow_pos (e : Int) : (0 : ℚ) < 2 ^ e := zpow_pos (by norm_num) e

theorem two_zpow_add (e : Int) (k : Nat) : (2 : ℚ) ^ (e + k) = 2 ^ k * 2 ^ e := by
  rw [zpow_add₀ (by norm_num), zpow_natCast, mul_comm]

theorem two_zpow_le {e e' : Int} (h : e ≤ e') : (2 : ℚ) ^ e ≤ 2 ^ e' :=
  zpow_le_zpow_right₀ (by norm_num) h

/-- What a mantissa stands for has as many binary digits as the mantissa. -/
theorem Approximates.mul_lt (h : Approximates m a x) (e : Int) :
    x * 2 ^ e < 2 ^ (e + (m.log2 + 1 : Nat)) := by
  have hlog : m + 1 ≤ 2 ^ (m.log2 + 1) := Nat.lt_log2_self
  have hx : x < 2 ^ (m.log2 + 1) := h.lt.trans_le (by exact_mod_cast hlog)
  calc x * 2 ^ e < 2 ^ (m.log2 + 1) * 2 ^ e := mul_lt_mul_of_pos_right hx (two_zpow_pos e)
    _ = 2 ^ (e + (m.log2 + 1 : Nat)) := (two_zpow_add e _).symm

theorem Approximates.le_mul (h : Approximates m a x) (hm : m ≠ 0) (e : Int) :
    2 ^ (e + m.log2) ≤ x * 2 ^ e := by
  have hlog : (2 : ℚ) ^ m.log2 ≤ m := by exact_mod_cast Nat.log2_self_le hm
  calc (2 : ℚ) ^ (e + m.log2) = 2 ^ m.log2 * 2 ^ e := two_zpow_add e _
    _ ≤ x * 2 ^ e := mul_le_mul_of_nonneg_right (hlog.trans h.le) (two_zpow_pos e).le

/-- Where a number has 53 binary digits, so has the mantissa, unless it is rounded up to the next
power of two. -/
theorem Nearest.le_of_below {e : Int} (h : Nearest (q / 2 ^ e) m) (hbelow : q < 2 ^ (e + 53)) :
    m ≤ 2 ^ 53 := by
  refine h.mono (.self _) ?_
  rw [div_le_iff₀ (two_zpow_pos e)]
  have hsplit := two_zpow_add e 53
  push_cast at hsplit ⊢
  linarith

theorem Nearest.ge_of_normal {e : Int} (h : Nearest (q / 2 ^ e) m) (hnormal : 2 ^ (e + 52) ≤ q) :
    2 ^ 52 ≤ m := by
  refine (Nearest.self _).mono h ?_
  rw [le_div_iff₀ (two_zpow_pos e)]
  have hsplit := two_zpow_add e 52
  push_cast at hsplit ⊢
  linarith

/-- A greater number is not rounded to a lower place. -/
theorem Rounds.mono (h : Rounds q p) (h' : Rounds r p') (hqr : q ≤ r) : p ≤ p' := by
  obtain @⟨e, m, hleast, hbelow, hnormal, hnearest⟩ := h
  obtain @⟨e', m', hleast', hbelow', hnormal', hnearest'⟩ := h'
  refine min_le_min_right _ ?_
  rcases lt_trichotomy e e' with hlt | rfl | hgt
  · -- the greater number has more binary digits before its last place
    have hm := hnearest.le_of_below hbelow
    have hm' := hnearest'.ge_of_normal (hnormal'.resolve_left (by omega))
    omega
  · have hm := hnearest.mono hnearest' (div_le_div_of_nonneg_right hqr (two_zpow_pos e).le)
    omega
  · have hlarge := hnormal.resolve_left (by omega)
    have hpower := two_zpow_le (show e' + 53 ≤ e + 52 by omega)
    linarith

/-! ## Rounding -/

/-- A double is the number `q`, rounded. -/
structure IsRounded (q : ℚ) (x : Float) : Prop where
  isNumber : x.isNaN = false
  rounds : Rounds q (place x)

theorem HasPlace.isRounded {x : Float} (h : HasPlace x p) (hq : Rounds q p) : IsRounded q x :=
  ⟨h.isNumber, h.place_eq ▸ hq⟩

theorem targetExponent_eq (m : Nat) (e : Int) :
    Format.binary64.targetExponent (totalExponent m e) = max ((m.log2 : Int) + e - 52) (-1074) := by
  have hleast : Format.binary64.minExponent = -1074 := rfl
  have hdigits : Format.binary64.mantissaBits = 53 := rfl
  rw [Format.targetExponent, hleast, hdigits, totalExponent]
  omega

theorem approximates_shiftToExponent (h : Approximates m a x) {e t : Int} (hle : e ≤ t) :
    (shiftToExponent m e a t).2 = t ∧
      Approximates (shiftToExponent m e a t).1.mantissa (shiftToExponent m e a t).1.accuracy
        (x * 2 ^ e / 2 ^ t) := by
  have hexponent : e + (t - e).toNat = t := by omega
  refine ⟨hexponent, ?_⟩
  have hstart : Approximates (ExtendedMantissa.ofMantissaAndAccuracy m a).mantissa
      (ExtendedMantissa.ofMantissaAndAccuracy m a).accuracy x := by
    rcases a with _ | _ | _ | _ <;> exact h
  have hshift := hstart.shiftRight (t - e).toNat
  have hvalue : x * 2 ^ e / 2 ^ t = x / 2 ^ (t - e).toNat := by
    rw [← hexponent, two_zpow_add, hexponent]
    field_simp
  rw [hvalue]
  exact hshift

theorem shiftToTargetExponent_of_lt {e : Int} (hm : m < 2 ^ 53) (hleast : -1074 ≤ e) :
    shiftToTargetExponent Format.binary64 m e .exact = (⟨m, false, false⟩, e) := by
  have hlog : m.log2 ≤ 52 := by
    rcases Nat.eq_zero_or_pos m with rfl | hpos
    · decide
    · have := (Nat.log2_lt hpos.ne').mpr hm
      omega
  have hnone : (max ((m.log2 : Int) + e - 52) (-1074) - e).toNat = 0 := by omega
  rw [shiftToTargetExponent, targetExponent_eq, shiftToExponent, hnone]
  simp only [Int.natCast_zero, add_zero]
  rfl

theorem shiftToTargetExponent_pow {e : Int} (hleast : -1074 ≤ e) :
    shiftToTargetExponent Format.binary64 (2 ^ 53) e .exact = (⟨2 ^ 52, false, false⟩, e + 1) := by
  have hone : (max (((2 ^ 53 : Nat).log2 : Int) + e - 52) (-1074) - e).toNat = 1 := by
    rw [Nat.log2_two_pow]
    omega
  rw [shiftToTargetExponent, targetExponent_eq, shiftToExponent, hone]
  rfl

/-- The parts of a double that is not negative. -/
def unsigned (m : Nat) (e : Int) : UnpackedFloat :=
  if h : m = 0 then .zero .positive else .finite .positive m e (Nat.pos_of_ne_zero h)

theorem hasPlace_unsigned {e : Int} (h : IsCanonical m e) :
    HasPlace (ofUnpacked (unsigned m e)) (min ((e + 1074) * 0x10000000000000 + m) topPlace) := by
  rw [unsigned]
  by_cases hzero : m = 0
  · have he := h.normal.resolve_left (by omega)
    rw [dif_pos hzero, hzero, he]
    exact hasPlace_zero _
  · rw [dif_neg hzero]
    exact hasPlace_finite _ h

/-- A rounded mantissa with one digit too many is shifted once more, which changes no place. -/
theorem hasPlace_shifted {e : Int} (hle : m ≤ 2 ^ 53) (hleast : -1074 ≤ e)
    (hnormal : 2 ^ 52 ≤ m ∨ e = -1074) :
    HasPlace (ofUnpacked (unsigned (shiftToTargetExponent Format.binary64 m e .exact).1.mantissa
        (shiftToTargetExponent Format.binary64 m e .exact).2))
      (min ((e + 1074) * 0x10000000000000 + m) topPlace) := by
  rcases hle.lt_or_eq with hlt | rfl
  · rw [shiftToTargetExponent_of_lt hlt hleast]
    exact hasPlace_unsigned ⟨hlt, hleast, hnormal⟩
  · have hplace := hasPlace_unsigned (m := 2 ^ 52) (e := e + 1)
      ⟨by norm_num, by omega, .inl (le_refl _)⟩
    have hsame : (e + 1 + 1074) * 0x10000000000000 + ((2 ^ 52 : Nat) : Int) =
        (e + 1074) * 0x10000000000000 + ((2 ^ 53 : Nat) : Int) := by
      push_cast
      ring
    rw [shiftToTargetExponent_pow hleast, ← hsame]
    exact hplace

/-- What is rounded from a mantissa that is fine enough is its number, rounded. -/
theorem isRounded_roundWithAccuracy (h : Approximates m a x) {e : Int}
    (hfine : e ≤ Format.binary64.targetExponent (totalExponent m e)) :
    IsRounded (x * 2 ^ e) (ofUnpacked (roundWithAccuracy Format.binary64 .positive m e a)) := by
  let t := Format.binary64.targetExponent (totalExponent m e)
  have ht : t = max ((m.log2 : Int) + e - 52) (-1074) := targetExponent_eq m e
  obtain ⟨hexponent, happrox⟩ := approximates_shiftToExponent h hfine
  let em := (shiftToExponent m e a t).1
  have hround : roundWithAccuracy Format.binary64 .positive m e a =
      unsigned
        (shiftToTargetExponent Format.binary64 em.roundedMantissa
          (shiftToExponent m e a t).2 .exact).1.mantissa
        (shiftToTargetExponent Format.binary64 em.roundedMantissa
          (shiftToExponent m e a t).2 .exact).2 := rfl
  rw [hround, hexponent]
  have hnearest : Nearest (x * 2 ^ e / 2 ^ t) em.roundedMantissa := happrox.nearest
  have hbelow : x * 2 ^ e < 2 ^ (t + 53) := (h.mul_lt e).trans_le (two_zpow_le (by omega))
  have hnormal : t = -1074 ∨ 2 ^ (t + 52) ≤ x * 2 ^ e := by
    by_cases hleast : t = -1074
    · exact .inl hleast
    · have hm : m ≠ 0 := by
        rintro rfl
        rw [Nat.log2_zero] at ht
        omega
      exact .inr ((two_zpow_le (by omega)).trans (h.le_mul hm e))
  have hleast : -1074 ≤ t := by omega
  have hplace := hasPlace_shifted (hnearest.le_of_below hbelow) hleast
    (hnormal.symm.imp_left hnearest.ge_of_normal)
  exact hplace.isRounded (.intro hleast hbelow hnormal hnearest)

end Testwright.Decimal
