
namespace TaskLoop

def maxWord : UInt64 := 0xffffffffffffffff

def saturatingAdd (a b : UInt64) : UInt64 := if maxWord - a < b then maxWord else a + b

theorem saturatingAdd_toNat (a b : UInt64) :
    (saturatingAdd a b).toNat = min (a.toNat + b.toNat) maxWord.toNat := by
  have ha := a.toNat_lt
  have hb := b.toNat_lt
  have hm : maxWord.toNat = 2 ^ 64 - 1 := rfl
  have hle : a ≤ maxWord := by rw [UInt64.le_iff_toNat_le, hm]; omega
  unfold saturatingAdd
  split
  · next h =>
    rw [UInt64.lt_iff_toNat_lt, UInt64.toNat_sub_of_le _ _ hle, hm] at h
    rw [hm]; omega
  · next h =>
    rw [UInt64.lt_iff_toNat_lt, UInt64.toNat_sub_of_le _ _ hle, hm] at h
    rw [UInt64.toNat_add, Nat.mod_eq_of_lt (by omega), hm]; omega

theorem toNat_le_saturatingAdd (a b : UInt64) : a.toNat ≤ (saturatingAdd a b).toNat := by
  have ha := a.toNat_lt
  have hm : maxWord.toNat = 2 ^ 64 - 1 := rfl
  rw [saturatingAdd_toNat, hm]
  omega

end TaskLoop
