import AtomArray.Site
import Mathlib

/-! The square of a difference of doubles does not depend on their order. -/

namespace AtomArray.Binary64

open Float.Model (Format UnpackedFloat)
open Float.Model.UnpackedFloat

variable {spec : Format}

/-! The sign is carried along by rounding and packing, and lost in a square. -/

theorem abs_roundWithAccuracy (s t : Sign) (m : Nat) (e : Int) (acc : Accuracy) :
    (roundWithAccuracy spec s m e acc).abs = (roundWithAccuracy spec t m e acc).abs := by
  unfold roundWithAccuracy
  simp only
  split <;> rfl

theorem abs_round (s t : Sign) (m : Nat) (e : Int) :
    (UnpackedFloat.round spec s m e).abs = (UnpackedFloat.round spec t m e).abs :=
  abs_roundWithAccuracy s t _ _ _

theorem abs_normalize_neg (n : Int) (e : Int) (s : Sign) :
    (UnpackedFloat.normalize spec (-n) e s).abs = (UnpackedFloat.normalize spec n e s).abs := by
  rcases Int.lt_trichotomy n 0 with hn | rfl | hn
  · have hneg : compare (-n) 0 = .gt := Int.compare_eq_gt.2 (by omega)
    have hpos : compare n 0 = .lt := Int.compare_eq_lt.2 hn
    simp only [UnpackedFloat.normalize, hneg, hpos]
    exact abs_round _ _ _ _
  · rfl
  · have hneg : compare (-n) 0 = .lt := Int.compare_eq_lt.2 (by omega)
    have hpos : compare n 0 = .gt := Int.compare_eq_gt.2 hn
    simp only [UnpackedFloat.normalize, hneg, hpos, Int.neg_neg]
    exact abs_round _ _ _ _

theorem abs_sub_comm (u v : UnpackedFloat) : (sub spec u v).abs = (sub spec v u).abs := by
  cases u with
  | notANumber => cases v <;> rfl
  | infinity s =>
      cases v with
      | infinity t => cases s <;> cases t <;> rfl
      | _ => rfl
  | zero s =>
      cases v with
      | zero t => cases s <;> cases t <;> rfl
      | _ => rfl
  | finite s m e hm =>
      cases v with
      | finite t n f hn =>
          simp only [sub, decreaseExponent]
          rw [Int.min_comm f e, ← Int.neg_sub]
          exact abs_normalize_neg _ _ _
      | _ => rfl

theorem mul_self_abs (u : UnpackedFloat) : mul spec u u = mul spec u.abs u.abs := by
  cases u with
  | notANumber => rfl
  | infinity s => cases s <;> rfl
  | zero s => cases s <;> rfl
  | finite s m e hm => cases s <;> rfl

theorem exists_packComponents (spec : Format) (u : UnpackedFloat) : ∃ s exponent mantissa,
    pack spec u = packComponents spec s exponent mantissa ∧
    pack spec u.abs = packComponents spec .positive exponent mantissa := by
  cases u with
  | notANumber => exact ⟨.positive, _, _, rfl, rfl⟩
  | infinity s => exact ⟨s, _, _, rfl, rfl⟩
  | zero s => exact ⟨s, _, _, rfl, rfl⟩
  | finite s m e hm =>
      simp only [UnpackedFloat.abs, pack]
      split_ifs <;> exact ⟨s, _, _, rfl, rfl⟩

theorem abs_unpack_packComponents (s t : Sign) (exponent : BitVec spec.exponentBits)
    (mantissa : BitVec spec.mantissaBitsWithoutImplicit) :
    (unpack spec (packComponents spec s exponent mantissa)).abs =
      (unpack spec (packComponents spec t exponent mantissa)).abs := by
  simp only [unpack, unpackExponent_packComponents, unpackMantissa_packComponents]
  split_ifs <;> rfl

theorem abs_unpack_pack (u : UnpackedFloat) :
    (unpack spec (pack spec u)).abs = (unpack spec (pack spec u.abs)).abs := by
  obtain ⟨s, exponent, mantissa, hpack, habs⟩ := exists_packComponents spec u
  rw [hpack, habs]
  exact abs_unpack_packComponents s .positive exponent mantissa

theorem abs_unpack_pack_sub_comm (u v : UnpackedFloat) :
    (unpack spec (pack spec (sub spec u v))).abs =
      (unpack spec (pack spec (sub spec v u))).abs := by
  rw [abs_unpack_pack, abs_sub_comm, ← abs_unpack_pack]

theorem sub_mul_self_comm (x y : Float) : (x - y) * (x - y) = (y - x) * (y - x) := by
  have habs : (x - y).toModel.unpack.abs = (y - x).toModel.unpack.abs :=
    abs_unpack_pack_sub_comm x.toModel.unpack y.toModel.unpack
  have hmul : mul .binary64 (x - y).toModel.unpack (x - y).toModel.unpack =
      mul .binary64 (y - x).toModel.unpack (y - x).toModel.unpack := by
    rw [mul_self_abs, habs, ← mul_self_abs]
  exact congrArg (fun u => Float.ofModel (.pack u)) hmul

end AtomArray.Binary64

namespace AtomArray

theorem Site.distance_comm (a b : Site) : a.distance b = b.distance a := by
  simp only [distance, Binary64.sub_mul_self_comm a.x b.x, Binary64.sub_mul_self_comm a.y b.y,
    Binary64.sub_mul_self_comm a.z b.z]

end AtomArray
