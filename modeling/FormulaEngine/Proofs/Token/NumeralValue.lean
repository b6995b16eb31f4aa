import FormulaEngine.Expr
import FormulaEngine.Token

/-! The value of a numeral is a number. A numeral is read by one product or quotient. Its
factors are finite, or what rounding has made of the digits, and the divisor is never zero.
So no NaN goes in, and neither rounding nor the packing of bits makes one. Nor does a tree
make one, which holds the value by its bits. -/

namespace FormulaEngine

open Float.Model Float.Model.UnpackedFloat

section Packing

/-- No NaN comes of a choice between numbers. -/
theorem isNaN_dite {p : Prop} [Decidable p] {x : p → UnpackedFloat} {y : ¬p → UnpackedFloat}
    (hx : ∀ h, (x h).isNaN = false) (hy : ∀ h, (y h).isNaN = false) :
    (dite p x y).isNaN = false := by
  by_cases h : p
  · rw [dif_pos h, hx]
  · rw [dif_neg h, hy]

/-- The bits of a NaN: all those of the exponent, and some of the fraction. -/
theorem isNaN_unpack {spec : Format} {b : BitVec spec.numBits}
    (h : (UnpackedFloat.unpack spec b).isNaN = true) :
    unpackExponent b = -1#(spec.exponentBits) ∧
      unpackMantissa b ≠ 0#(spec.mantissaBitsWithoutImplicit) := by
  unfold UnpackedFloat.unpack at h
  dsimp only at h
  by_cases hexponent : unpackExponent b = -1#(spec.exponentBits)
  · rw [if_pos hexponent] at h
    refine ⟨hexponent, fun hfraction => ?_⟩
    rw [if_pos hfraction] at h
    cases h
  · rw [if_neg hexponent] at h
    refine absurd h (Bool.eq_false_iff.mp ?_)
    exact isNaN_dite (fun _ => isNaN_dite (fun _ => rfl) (fun _ => rfl)) (fun _ => rfl)

/-- The exponent of a NaN is packed for infinities only, and these have no fraction. -/
theorem isNaN_unpack_pack {x : UnpackedFloat} (h : x.isNaN = false) :
    (Float.Model.pack x).unpack.isNaN = false := by
  change (UnpackedFloat.unpack .binary64 (UnpackedFloat.pack .binary64 x)).isNaN = false
  rw [Bool.eq_false_iff]
  intro hnan
  obtain ⟨hexponent, hfraction⟩ := isNaN_unpack hnan
  have hzero : 0#(Format.binary64.exponentBits) ≠ -1#(Format.binary64.exponentBits) := by decide
  cases x with
  | notANumber => cases h
  | infinity s => exact hfraction unpackMantissa_packComponents
  | zero s => exact hzero (unpackExponent_packComponents.symm.trans hexponent)
  | finite s m e hm =>
    unfold UnpackedFloat.pack at hexponent hfraction
    dsimp only at hexponent hfraction
    split at hexponent
    next hlarge =>
      rw [if_pos hlarge] at hfraction
      exact hfraction unpackMantissa_packComponents
    next hlarge =>
      split at hexponent
      next =>
        rw [unpackExponent_packComponents] at hexponent
        have hbits := congrArg BitVec.toNat hexponent
        rw [BitVec.toNat_ofNat, Nat.mod_eq_of_lt (by omega)] at hbits
        rw [hbits] at hlarge
        exact hlarge (by decide)
      next => exact hzero (unpackExponent_packComponents.symm.trans hexponent)

end Packing

section Operations

variable {spec : Format}

theorem isNaN_roundWithAccuracy (s : Sign) (m : Nat) (e : Int) (accuracy : Accuracy) :
    (roundWithAccuracy spec s m e accuracy).isNaN = false :=
  isNaN_dite (fun _ => rfl) (fun _ => rfl)

theorem isNaN_ofNat (n : Nat) : (UnpackedFloat.ofNat spec n).isNaN = false := by
  simp only [UnpackedFloat.ofNat, UnpackedFloat.ofInt, UnpackedFloat.normalize]
  split
  · exact isNaN_roundWithAccuracy ..
  · rfl
  · exact isNaN_roundWithAccuracy ..

theorem isNaN_ofScientific (m : Nat) (e : Int) :
    (UnpackedFloat.ofScientific spec m e).isNaN = false := by
  unfold UnpackedFloat.ofScientific
  iterate 3 refine isNaN_dite (fun _ => rfl) fun _ => ?_
  exact isNaN_dite (fun _ => isNaN_roundWithAccuracy ..) (fun _ => isNaN_roundWithAccuracy ..)

/-- Whether a float is finite and not zero. -/
def isDivisor : UnpackedFloat → Bool
  | .finite .. => true
  | .notANumber | .infinity _ | .zero _ => false

theorem isNaN_div {x y : UnpackedFloat} (hx : x.isNaN = false) (hy : isDivisor y = true) :
    (UnpackedFloat.div spec x y).isNaN = false := by
  cases y with
  | notANumber | infinity | zero => cases hy
  | finite =>
    cases x with
    | notANumber => cases hx
    | infinity | zero => rfl
    | finite => exact isNaN_roundWithAccuracy ..

theorem isDivisor_powerOfTen : ∀ e (h : e < Float.exactlyRepresentablePowersOfTen.size),
    isDivisor Float.exactlyRepresentablePowersOfTen[e].toModel.unpack = true := by
  decide

end Operations

/-- Digits over a power of ten. Few digits over a small power are divided as floats. -/
theorem isNaN_decimal (m e : Nat) : (Float.ofScientific m true e).isNaN = false := by
  unfold Float.ofScientific
  split
  next h =>
    have hdigits : (UInt64.toFloat m.toUInt64).toModel.unpack.isNaN = false :=
      isNaN_unpack_pack (isNaN_ofNat _)
    have hdivisor := isDivisor_powerOfTen e (Nat.lt_succ_of_le h.2)
    exact isNaN_unpack_pack (isNaN_div hdigits hdivisor)
  next => exact isNaN_unpack_pack (isNaN_ofScientific _ _)

/-- What is no NaN is none by its bits. -/
theorem Constant.isNaN_toFloat {x : Float} (h : x.isNaN = false) :
    (ofFloat x).toFloat.isNaN = false := isNaN_unpack_pack h

/-- No numeral is a NaN, however many digits it has. -/
theorem Token.isNaN_numeralValue (text : String) :
    (numeralValue text : Constant).toFloat.isNaN = false :=
  Constant.isNaN_toFloat (isNaN_decimal _ _)

end FormulaEngine
