import Mathlib.Data.List.Pairwise
import Trunk.Map.Rule

/-! # Port sets are a partition

A port, without its lowest bits, is the index of a range and a PSID, one behind the other
(`Trunk.Map.covered_portsets`). So no two PSIDs share a port, and together they have every port
that they may have (`Trunk.Map.portsets_partition`).
-/

namespace Trunk.Map

variable {offset psidlen port : Nat} {psid psid' : Int}

/-- A PSID that stands in the highest bits of 16. -/
def LeftAligned (psidlen : Nat) (psid : Int) : Prop :=
  0 ≤ psid ∧ psid < 2 ^ 16 ∧ psid.toNat % 2 ^ (16 - psidlen) = 0

/-- A port is in one of the ranges. -/
def Covered (port : Nat) (ranges : List (Nat × Nat)) : Prop :=
  ∃ range ∈ ranges, range.1 ≤ port ∧ port ≤ range.2

/-- Two ranges have no port in common. -/
def Apart (first second : Nat × Nat) : Prop := first.2 < second.1 ∨ second.2 < first.1

/-- The number that a left-aligned PSID stands for. -/
theorem LeftAligned.exists_eq (aligned : LeftAligned psidlen psid) (few : psidlen ≤ 16) :
    ∃ value < 2 ^ psidlen, psid = (value * 2 ^ (16 - psidlen) : Nat) := by
  obtain ⟨nonneg, small, clear⟩ := aligned
  obtain ⟨value, split⟩ := Nat.dvd_of_mod_eq_zero clear
  rw [Nat.mul_comm] at split
  refine ⟨value, ?_, by omega⟩
  have whole : 2 ^ psidlen * 2 ^ (16 - psidlen) = 2 ^ 16 := by
    rw [← Nat.pow_add, Nat.add_sub_cancel' few]
  refine Nat.lt_of_mul_lt_mul_right (a := 2 ^ (16 - psidlen)) ?_
  omega

theorem leftAligned_of_lt (few : psidlen ≤ 16) {value : Nat} (small : value < 2 ^ psidlen) :
    LeftAligned psidlen (value * 2 ^ (16 - psidlen) : Nat) := by
  have whole : 2 ^ psidlen * 2 ^ (16 - psidlen) = 2 ^ 16 := by
    rw [← Nat.pow_add, Nat.add_sub_cancel' few]
  have below : value * 2 ^ (16 - psidlen) < 2 ^ 16 := by
    rw [← whole]
    exact Nat.mul_lt_mul_of_pos_right small (Nat.two_pow_pos _)
  refine ⟨Int.natCast_nonneg _, by omega, ?_⟩
  rw [Int.toNat_natCast]
  exact Nat.mul_mod_left _ _

/-- The ranges of a PSID start at multiples of their length. -/
theorem portsets_eq (positive : 1 ≤ psidlen) (fits : offset + psidlen ≤ 16) {value : Nat}
    (small : value < 2 ^ psidlen) :
    portsets offset psidlen (value * 2 ^ (16 - psidlen) : Nat) =
      (List.range' (if offset = 0 then 0 else 1) (2 ^ offset - if offset = 0 then 0 else 1)).map
        fun k => ((k * 2 ^ psidlen + value) * 2 ^ (16 - offset - psidlen),
          (k * 2 ^ psidlen + value) * 2 ^ (16 - offset - psidlen) +
            2 ^ (16 - offset - psidlen) - 1) := by
  have nonneg : (0 : Int) ≤ (value * 2 ^ (16 - psidlen) : Nat) := Int.natCast_nonneg _
  have width : 2 ^ (16 - offset) = 2 ^ psidlen * 2 ^ (16 - offset - psidlen) := by
    rw [← Nat.pow_add, Nat.add_sub_cancel' (by omega)]
  have shifted : (value * 2 ^ (16 - psidlen)) >>> offset = value * 2 ^ (16 - offset - psidlen) := by
    have split : 2 ^ (16 - psidlen) = 2 ^ (16 - offset - psidlen) * 2 ^ offset := by
      rw [← Nat.pow_add]
      congr 1
      omega
    rw [Nat.shiftRight_eq_div_pow, split, ← Nat.mul_assoc,
      Nat.mul_div_cancel _ (Nat.two_pow_pos offset)]
  have below : value * 2 ^ (16 - offset - psidlen) < 2 ^ (16 - offset) := by
    rw [width]
    exact Nat.mul_lt_mul_of_pos_right small (Nat.two_pow_pos _)
  have start : ∀ k, k <<< (16 - offset) ||| (value * 2 ^ (16 - psidlen)) >>> offset =
      (k * 2 ^ psidlen + value) * 2 ^ (16 - offset - psidlen) := by
    intro k
    rw [shifted, ← Nat.shiftLeft_add_eq_or_of_lt below, Nat.shiftLeft_eq, width, Nat.add_mul,
      Nat.mul_assoc]
  unfold portsets
  rw [if_neg (by omega), if_pos nonneg, Int.toNat_natCast]
  simp only [start, Nat.one_shiftLeft]

/-- A port is in a range of a length exactly if its quotient is that of the start. -/
theorem mem_range_iff {length first : Nat} (positive : 0 < length) :
    first * length ≤ port ∧ port ≤ first * length + length - 1 ↔ port / length = first := by
  rw [Nat.div_eq_iff positive]

/-- The indices of the ranges. -/
theorem mem_indices {k : Nat} :
    k ∈ List.range' (if offset = 0 then 0 else 1) (2 ^ offset - if offset = 0 then 0 else 1) ↔
      k < 2 ^ offset ∧ (offset = 0 ∨ 1 ≤ k) := by
  have positive := Nat.two_pow_pos offset
  rw [List.mem_range'_1]
  split
  · omega
  · omega

/-- A port is in the ranges of a PSID if its highest bits are the index of a range and the PSID. -/
theorem covered_portsets (positive : 1 ≤ psidlen) (fits : offset + psidlen ≤ 16) {value : Nat}
    (small : value < 2 ^ psidlen) :
    Covered port (portsets offset psidlen (value * 2 ^ (16 - psidlen) : Nat)) ↔
      port / 2 ^ (16 - offset - psidlen) % 2 ^ psidlen = value ∧
        port < 2 ^ 16 ∧ (offset = 0 ∨ 2 ^ (16 - offset) ≤ port) := by
  have width : 2 ^ (16 - offset) = 2 ^ (16 - offset - psidlen) * 2 ^ psidlen := by
    rw [← Nat.pow_add, Nat.sub_add_cancel (by omega)]
  have whole : 2 ^ 16 = 2 ^ (16 - offset) * 2 ^ offset := by
    rw [← Nat.pow_add, Nat.sub_add_cancel (by omega)]
  have index : port / 2 ^ (16 - offset - psidlen) / 2 ^ psidlen = port / 2 ^ (16 - offset) := by
    rw [Nat.div_div_eq_div_mul, ← width]
  have below : port / 2 ^ (16 - offset) < 2 ^ offset ↔ port < 2 ^ 16 := by
    rw [whole, Nat.div_lt_iff_lt_mul (Nat.two_pow_pos _), Nat.mul_comm]
  have above : 1 ≤ port / 2 ^ (16 - offset) ↔ 2 ^ (16 - offset) ≤ port :=
    Nat.le_div_iff_mul_le (Nat.two_pow_pos _) |>.trans (by rw [Nat.one_mul])
  rw [portsets_eq positive fits small, Covered]
  simp only [List.mem_map, exists_exists_and_eq_and, mem_range_iff (Nat.two_pow_pos _)]
  constructor
  · intro found
    obtain ⟨k, listed, quotient⟩ := found
    have here : port / 2 ^ (16 - offset) = k := by
      rw [← index, quotient, Nat.mul_comm, Nat.mul_add_div (Nat.two_pow_pos _),
        Nat.div_eq_of_lt small, Nat.add_zero]
    rw [mem_indices, ← here, below, above] at listed
    refine ⟨?_, listed⟩
    rw [quotient, Nat.mul_comm, Nat.mul_add_mod, Nat.mod_eq_of_lt small]
  · intro both
    obtain ⟨rest, bounds⟩ := both
    refine ⟨port / 2 ^ (16 - offset), ?_, ?_⟩
    · rw [mem_indices, below, above]
      exact bounds
    · rw [← index, ← rest, Nat.mul_comm, Nat.div_add_mod]

/-- The ranges of a PSID have no port in common. -/
theorem portsets_pairwise (positive : 1 ≤ psidlen) (fits : offset + psidlen ≤ 16) {value : Nat}
    (small : value < 2 ^ psidlen) :
    (portsets offset psidlen (value * 2 ^ (16 - psidlen) : Nat)).Pairwise Apart := by
  rw [portsets_eq positive fits small, List.pairwise_map]
  refine (List.pairwise_lt_range' _).imp ?_
  intro k k' less
  have next : (k * 2 ^ psidlen + value + 1) * 2 ^ (16 - offset - psidlen) ≤
      (k' * 2 ^ psidlen + value) * 2 ^ (16 - offset - psidlen) := by
    refine Nat.mul_le_mul_right _ ?_
    have step := Nat.mul_le_mul_right (2 ^ psidlen) (Nat.succ_le_of_lt less)
    rw [Nat.succ_mul] at step
    have positive := Nat.two_pow_pos psidlen
    omega
  have positive := Nat.two_pow_pos (16 - offset - psidlen)
  rw [Nat.succ_mul] at next
  exact .inl (by omega)

/-- The ranges of a PSID are ranges of ports. -/
theorem portsets_bounds (positive : 1 ≤ psidlen) (fits : offset + psidlen ≤ 16) {value : Nat}
    (small : value < 2 ^ psidlen) {range : Nat × Nat}
    (listed : range ∈ portsets offset psidlen (value * 2 ^ (16 - psidlen) : Nat)) :
    range.1 ≤ range.2 ∧ range.2 ≤ 65535 := by
  have length := Nat.two_pow_pos (16 - offset - psidlen)
  have ordered : range.1 ≤ range.2 := by
    rw [portsets_eq positive fits small] at listed
    obtain ⟨k, -, rfl⟩ := List.mem_map.mp listed
    dsimp only
    omega
  have last := (covered_portsets positive fits small).mp ⟨range, listed, ordered, Nat.le_refl _⟩
  exact ⟨ordered, Nat.le_of_lt_succ last.2.1⟩

/-- The port sets of PSIDs of one length: two PSIDs have no port in common, the ranges of a PSID
are apart from each other, and together the PSIDs have all ports that are not reserved. -/
theorem portsets_partition {offset psidlen : Nat} (positive : 1 ≤ psidlen)
    (fits : offset + psidlen ≤ 16) :
    (∀ psid psid', LeftAligned psidlen psid → LeftAligned psidlen psid' → psid ≠ psid' →
      ∀ port, ¬ (Covered port (portsets offset psidlen psid) ∧
        Covered port (portsets offset psidlen psid'))) ∧
    (∀ psid, LeftAligned psidlen psid → (portsets offset psidlen psid).Pairwise Apart ∧
      ∀ range ∈ portsets offset psidlen psid, range.1 ≤ range.2 ∧ range.2 ≤ 65535) ∧
    (∀ port, (∃ psid, LeftAligned psidlen psid ∧ Covered port (portsets offset psidlen psid)) ↔
      port < 2 ^ 16 ∧ (offset = 0 ∨ 2 ^ (16 - offset) ≤ port)) := by
  have few : psidlen ≤ 16 := by omega
  refine ⟨?_, ?_, ?_⟩
  · intro psid psid' aligned aligned' different port both
    obtain ⟨value, small, rfl⟩ := aligned.exists_eq few
    obtain ⟨value', small', rfl⟩ := aligned'.exists_eq few
    have one := (covered_portsets positive fits small).mp both.1
    have two := (covered_portsets positive fits small').mp both.2
    exact different (by rw [← one.1, ← two.1])
  · intro psid aligned
    obtain ⟨value, small, rfl⟩ := aligned.exists_eq few
    exact ⟨portsets_pairwise positive fits small,
      fun range listed => portsets_bounds positive fits small listed⟩
  · intro port
    constructor
    · intro found
      obtain ⟨psid, aligned, covered⟩ := found
      obtain ⟨value, small, rfl⟩ := aligned.exists_eq few
      exact ((covered_portsets positive fits small).mp covered).2
    · intro bounds
      have small : port / 2 ^ (16 - offset - psidlen) % 2 ^ psidlen < 2 ^ psidlen :=
        Nat.mod_lt _ (Nat.two_pow_pos _)
      refine ⟨_, ?_, (covered_portsets positive fits small).mpr ⟨rfl, bounds⟩⟩
      exact leftAligned_of_lt few small

/-- With six bits of PSID behind an offset of six, some PSID has the port 2000. -/
theorem portsets_partition_six :
    ∃ psid, LeftAligned 6 psid ∧ Covered 2000 (portsets 6 6 psid) :=
  ((portsets_partition (by decide) (by decide)).2.2 2000).mpr ⟨by decide, .inr (by decide)⟩

end Trunk.Map
