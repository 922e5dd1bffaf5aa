import Mos.Net.Headers

namespace Mos.Headers
open Machine Arp

theorem htons_toNat (x : UInt16) : (htons x).toNat = 256 * (x.toNat % 256) + x.toNat / 256 := by
  have hx := x.toNat_lt
  have hor := Nat.two_pow_add_eq_or_of_lt (show x.toNat / 256 < 2 ^ 8 by omega) (x.toNat % 256)
  have hleft : (x <<< 8).toNat = 2 ^ 8 * (x.toNat % 256) := by
    simp [Nat.shiftLeft_eq]
    omega
  have hright : (x >>> 8).toNat = x.toNat / 256 := by
    simp [Nat.shiftRight_eq_div_pow]
  rw [htons, UInt16.toNat_or, hleft, hright, ← hor]

@[simp] theorem htons_htons (x : UInt16) : htons (htons x) = x := by
  have hx := x.toNat_lt
  apply UInt16.toNat_inj.mp
  rw [htons_toNat, htons_toNat]
  omega

end Mos.Headers
