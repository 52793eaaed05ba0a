import Mathlib.Algebra.Ring.Nat
import ReliableStream.Config

/-!
# How the timeout grows

With an exponential backoff each resend is to double the timeout, up to the cap. The factor is
2^r after `r` resends as long as that fits in 32 bits, and then stays at the largest such number
(`timeoutAfter_eq_min`). So the timeout doubles up to its cap exactly if the cap is reached before
the factor stops growing (`timeoutAfter_doubles_iff`).
-/

namespace ReliableStream

namespace Config

variable {c : Config} {cap resends : Nat}

/-- The factor by which the timeout has grown. -/
def growth (resends : Nat) : Nat := min (2 ^ resends) 0xFFFFFFFF

/-- It is a power of two until that takes more than 32 bits. -/
theorem growth_eq (resends : Nat) :
    growth resends = if resends < 32 then 2 ^ resends else 0xFFFFFFFF := by
  unfold growth
  split
  next hfew =>
    have hle : 2 ^ resends ≤ 2 ^ 31 := Nat.pow_le_pow_right (by decide) (by omega)
    omega
  next hmany =>
    have hle : 2 ^ 32 ≤ 2 ^ resends := Nat.pow_le_pow_right (by decide) (by omega)
    omega

/-- A product that is no duration any more is beyond every cap. -/
theorem timeoutAfter_eq_min (h : c.backoff = .exponential cap) (hcap : cap ≤ Duration.longest)
    (resends : Nat) : c.timeoutAfter resends = min cap (c.timeout * growth resends) := by
  have hfactor : (if resends < 32 then 1 <<< resends else 0xFFFFFFFF) = growth resends := by
    rw [growth_eq, Nat.one_shiftLeft]
  unfold timeoutAfter Duration.times?
  rw [h]
  simp only [hfactor]
  by_cases hfits : c.timeout * growth resends ≤ Duration.longest
  · rw [if_pos hfits]
    exact Nat.min_comm _ _
  · rw [if_neg hfits]
    exact (Nat.min_eq_left (Nat.le_trans hcap (Nat.le_of_not_le hfits))).symm

/-- The timeout doubles with each resend up to its cap, exactly if 32 bits suffice for the factor or
the cap is reached by the largest factor that they can hold. -/
theorem timeoutAfter_doubles_iff (h : c.backoff = .exponential cap) (hpos : 0 < c.timeout)
    (hcap : cap ≤ Duration.longest) (resends : Nat) :
    c.timeoutAfter resends = min cap (c.timeout * 2 ^ resends) ↔
      resends < 32 ∨ cap ≤ c.timeout * 0xFFFFFFFF := by
  rw [timeoutAfter_eq_min h hcap, growth_eq]
  split
  next hfew => exact iff_of_true rfl (.inl hfew)
  next hmany =>
    have hle : 2 ^ 32 ≤ 2 ^ resends := Nat.pow_le_pow_right (by decide) (by omega)
    have hlt : c.timeout * 0xFFFFFFFF < c.timeout * 2 ^ resends :=
      Nat.mul_lt_mul_of_pos_left (by omega) hpos
    omega

/-! ### A nanosecond

A timeout of one nanosecond under a cap of 1100 seconds, which is more than 2^40 nanoseconds. -/

def brief : Config := { timeout := 1, backoff := .exponential (Duration.ofMillis 1100000) }

theorem brief_doubles :
    brief.timeoutAfter 31 = min (Duration.ofMillis 1100000) (brief.timeout * 2 ^ 31) ∧
      brief.timeoutAfter 33 ≠ min (Duration.ofMillis 1100000) (brief.timeout * 2 ^ 33) := by
  have hiff := timeoutAfter_doubles_iff (c := brief) rfl (by decide) (by decide)
  constructor
  · exact (hiff 31).mpr (by decide)
  · exact fun h => absurd ((hiff 33).mp h) (by decide)

/-- After 33 resends the timeout should be 2^33 nanoseconds, and is one less than 2^32. -/
theorem not_always_doubles : ¬ ∀ (c : Config) (cap resends : Nat), 0 < c.timeout →
    c.backoff = .exponential cap → c.timeout ≤ cap → cap ≤ Duration.longest →
    resends < 2 ^ 32 → c.timeoutAfter resends = min cap (c.timeout * 2 ^ resends) := by
  intro h
  have hdoubles := h brief _ 33 (by decide) rfl (by decide) (by decide) (by decide)
  have hstays : brief.timeoutAfter 33 = 0xFFFFFFFF := by decide
  rw [hstays] at hdoubles
  revert hdoubles
  decide

end Config

end ReliableStream
