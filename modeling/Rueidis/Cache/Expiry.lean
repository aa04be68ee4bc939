import Rueidis.Cache.Lru
import Mathlib.Algebra.Ring.Int.Defs

/-!
# Expiries

An expiry is a time in milliseconds that is kept in seven bytes.
-/

namespace Rueidis

variable {now : Int} {v : RedisMessage}

/-- The milliseconds of a time, where seven bytes hold them. -/
def InMillis (t : Int) : Prop := 0 < t / 1000000 ∧ t / 1000000 < 2 ^ 56

namespace RedisMessage

theorem toInt_getExpireAt (m : RedisMessage) : m.getExpireAt.toInt = m.ttl.toNat := by
  have hlt := m.ttl.isLt
  exact Int64.toInt_ofNat_of_lt (by omega)

theorem getExpireAt_setExpireAt (m x : RedisMessage) :
    (m.setExpireAt x.getExpireAt).getExpireAt = x.getExpireAt := by
  have hback : BitVec.ofInt 56 (x.ttl.toNat : Int) = x.ttl := by
    rw [BitVec.ofInt_natCast, BitVec.ofNat_toNat, BitVec.setWidth_eq]
  show Int64.ofNat (BitVec.ofInt 56 x.getExpireAt.toInt).toNat = _
  rw [toInt_getExpireAt, hback]
  rfl

end RedisMessage

theorem toInt_unixMilli {t : Int} (h : InMillis t) : (unixMilli t).toInt = t / 1000000 := by
  obtain ⟨hpos, hlt⟩ := h
  apply Int64.toInt_ofInt_of_le <;> omega

theorem expireAt_unixMilli {t : Int} (h : InMillis t) (m : RedisMessage) :
    (m.setExpireAt (unixMilli t)).getExpireAt.toInt = t / 1000000 := by
  rw [RedisMessage.toInt_getExpireAt]
  show ((BitVec.ofInt 56 (unixMilli t).toInt).toNat : Int) = _
  rw [toInt_unixMilli h, BitVec.toNat_ofInt]
  obtain ⟨hpos, hlt⟩ := h
  omega

theorem relativePTTL_pos_iff (hnow : 0 ≤ (unixMilli now).toInt) (v : RedisMessage) :
    0 < v.relativePTTL now ↔ (unixMilli now).toInt < v.getExpireAt.toInt := by
  have hexpire := v.toInt_getExpireAt
  have hlt := v.ttl.isLt
  have hbound := (unixMilli now).toInt_lt
  have hexact : (v.getExpireAt.toInt - (unixMilli now).toInt).bmod (2 ^ 64) =
      v.getExpireAt.toInt - (unixMilli now).toInt := by
    apply Int.bmod_eq_of_le <;> omega
  have hzero : (0 : Int64).toInt = 0 := rfl
  unfold RedisMessage.relativePTTL
  rw [Int64.lt_iff_toInt_lt, Int64.toInt_sub, hexact]
  omega

theorem lt_of_relativePTTL_pos (hnow : InMillis now) (h : 0 < v.relativePTTL now) :
    now / 1000000 < v.getExpireAt.toInt := by
  have hmilli := toInt_unixMilli hnow
  rw [relativePTTL_pos_iff (by rw [hmilli]; exact Int.le_of_lt hnow.1), hmilli] at h
  exact h

theorem relativePTTL_pos_of_le {now' : Int} (h0 : 0 ≤ (unixMilli now').toInt)
    (hle : (unixMilli now').toInt ≤ (unixMilli now).toInt) (h : 0 < v.relativePTTL now) :
    0 < v.relativePTTL now' := by
  rw [relativePTTL_pos_iff (by omega)] at h
  rw [relativePTTL_pos_iff h0]
  omega

end Rueidis
