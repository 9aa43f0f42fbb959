import FlatQuery.Proofs.Candidates
import FlatQuery.Proofs.Legible

/-! Integers beyond 2 ^ 63 as doubles. The doubles there are multiples of 2048, and the text of one is
that of the integer with the fewest digits that rounds to it. So such an integer may be written as
another one, and two of them alike exactly if they round to the same double. -/

namespace FlatQuery.Decimal

namespace Double

def wide (units : Nat) : Double :=
  if units = 2 ^ 53 then finite false (2 ^ 52) 12 else finite false units 11

/-- What rounds to so many units of 2048. -/
def wideInterval (units : Nat) : Interval where
  low := 2048 * units - if units = 2 ^ 52 then 512 else 1024
  middle := 2048 * units
  high := 2048 * units + if units = 2 ^ 53 then 2048 else 1024
  denominator := 1
  closed := units % 2 == 0

section Wide

variable {n units : Nat}

private theorem exponentOf_of_large (large : 2 ^ 63 ≤ n) (bounded : n < 2 ^ 64) :
    exponentOf n 1 = 11 := by
  have size : n.log2 = 63 := (Nat.log2_eq_iff (by omega)).mpr ⟨large,bounded⟩
  have one : (1 : Nat).log2 = 0 := rfl
  have guess : max leastExponent ((n.log2 : Int) - (1 : Nat).log2 - 53) = 10 := by
    rw [size,one]
    rfl
  have full : 1 <<< 53 ≤ n / (1 <<< (10 : Int).natAbs) := by
    simp
    omega
  rw [exponentOf,guess]
  exact if_pos full

theorem ofInt_of_large (large : 2 ^ 63 ≤ n) (bounded : n < 2 ^ 64) :
    ofInt n = wide (roundQuotient n 2048) := by
  have nonzero : n ≠ 0 := by omega
  have unsigned : decide ((n : Int) < 0) = false := decide_eq_false (by omega)
  have units : scaled n 1 11 = (n,2048) := rfl
  have limit : (1 : Nat) <<< 53 = 2 ^ 53 := rfl
  rw [ofInt,ofQuotient,Int.natAbs_natCast,if_neg nonzero,exponentOf_of_large large bounded,unsigned,wide]
  simp only [units,limit]
  by_cases full : roundQuotient n 2048 = 2 ^ 53
  · rw [if_pos full,if_pos full]
    rfl
  · rw [if_neg full,if_neg full]
    rfl

private theorem interval_wide (most : units < 2 ^ 53) : interval units 11 = wideInterval units := by
  have same : 4 * units * 512 = 2048 * units := by omega
  have above : (4 * units + 2) * 512 = 2048 * units + if units = 2 ^ 53 then 2048 else 1024 := by
    rw [if_neg (Nat.ne_of_lt most),Nat.add_mul,same]
  have below : (4 * units - if units = 2 ^ 52 then 1 else 2) * 512 =
      2048 * units - if units = 2 ^ 52 then 512 else 1024 := by
    rw [Nat.sub_mul,same]
    split <;> rfl
  have unit : (1 : Nat) <<< ((11 : Int) - 2).natAbs = 512 := rfl
  have edge : (units = 1 <<< 52 ∧ leastExponent < 11) ↔ units = 2 ^ 52 :=
    and_iff_left (by decide)
  rw [wideInterval,← below,← above,← same,interval]
  simp only [edge,unit]
  rfl

private theorem chars_wide (least : 2 ^ 52 ≤ units) (most : units ≤ 2 ^ 53) :
    (wide units).chars = (wideInterval units).shortest.chars := by
  by_cases full : units = 2 ^ 53
  · rw [full]
    rfl
  · have mantissa : units ≠ 0 := by omega
    rw [wide,if_neg full,chars,if_neg mantissa,← interval_wide (by omega)]
    rfl

theorem holds_wide_iff : (wideInterval units).Holds n ↔
    (wideInterval units).low + units % 2 ≤ n ∧ n + units % 2 ≤ (wideInterval units).high := by
  have closed : (wideInterval units).closed = (units % 2 == 0) := rfl
  rw [Interval.Holds,closed]
  rcases Nat.mod_two_eq_zero_or_one units with even | odd
  · rw [even,if_pos (beq_self_eq_true 0)]
    exact Iff.rfl
  · rw [odd,if_neg (by decide)]
    exact Iff.rfl

theorem low_wide_le : 2048 * units ≤ (wideInterval units).low + 1024 := by
  simp only [wideInterval]
  split <;> omega

private theorem high_wide_of_lt (most : units < 2 ^ 53) :
    (wideInterval units).high = 2048 * units + 1024 := by
  simp only [wideInterval,if_neg (Nat.ne_of_lt most)]

private theorem high_wide_le : (wideInterval units).high ≤ 2048 * units + 2048 := by
  simp only [wideInterval]
  split <;> omega

theorem roundQuotient_bounds (large : 2 ^ 63 ≤ n) (bounded : n < 2 ^ 64) :
    2 ^ 52 ≤ roundQuotient n 2048 ∧ roundQuotient n 2048 ≤ 2 ^ 53 := by
  simp only [roundQuotient]
  split <;> omega

private theorem holds_of_near (least : 2 ^ 52 ≤ units) (above : 2048 * units ≤ n + 512)
    (below : n + units % 2 ≤ 2048 * units + 1024) : (wideInterval units).Holds n := by
  rw [holds_wide_iff]
  simp only [wideInterval]
  constructor
  · split <;> omega
  · split <;> omega

/-- Rounding goes to the nearest units, from the middle between two to the even ones. -/
theorem roundQuotient_near : 2048 * roundQuotient n 2048 + roundQuotient n 2048 % 2 ≤ n + 1024 ∧
    n + roundQuotient n 2048 % 2 ≤ 2048 * roundQuotient n 2048 + 1024 := by
  simp only [roundQuotient,Bool.or_eq_true,Bool.and_eq_true,decide_eq_true_eq,beq_iff_eq]
  split <;> omega

theorem holds_roundQuotient (large : 2 ^ 63 ≤ n) (bounded : n < 2 ^ 64) :
    (wideInterval (roundQuotient n 2048)).Holds n := by
  have near := @roundQuotient_near n
  have range := roundQuotient_bounds large bounded
  rw [holds_wide_iff]
  generalize roundQuotient n 2048 = units at near range ⊢
  simp only [wideInterval]
  constructor
  · split <;> omega
  · split <;> omega

theorem units_unique {other : Nat} (bounded : other ≤ 2 ^ 53)
    (first : (wideInterval units).Holds n) (second : (wideInterval other).Holds n) : other ≤ units := by
  rw [holds_wide_iff] at first second
  rcases Nat.lt_or_ge units other with more | fewer
  · have high := high_wide_of_lt (Nat.lt_of_lt_of_le more bounded)
    have low := @low_wide_le other
    omega
  · exact fewer

private theorem eq_of_holds_of_dvd {other : Nat} (first : (wideInterval units).Holds n)
    (second : (wideInterval units).Holds other) (multiple : 10000 ∣ n) (otherMultiple : 10000 ∣ other) :
    n = other := by
  rw [holds_wide_iff] at first second
  have low := @low_wide_le units
  have high := @high_wide_le units
  omega

private theorem magnitude_wide (least : 2 ^ 52 ≤ units) (most : units ≤ 2 ^ 53) :
    18 < magnitude (wideInterval units).middle 1 ∧ magnitude (wideInterval units).middle 1 ≤ 20 := by
  have positive : 1 ≤ (wideInterval units).middle := by
    simp only [wideInterval]
    omega
  have longer : ¬ (ofNat (wideInterval units).middle).length ≤ 18 := by
    rw [ofNat,Nat.length_toDigits_le_iff (by decide) (by decide)]
    simp only [wideInterval]
    omega
  have shorter : (ofNat (wideInterval units).middle).length ≤ 20 := by
    rw [ofNat,Nat.length_toDigits_le_iff (by decide) (by decide)]
    simp only [wideInterval]
    omega
  rw [magnitude,if_pos positive,Nat.div_one]
  omega

private theorem exists_thousand_near (units : Nat) :
    ∃ n, 1000 ∣ n ∧ n < 2048 * units + 500 ∧ 2048 * units < n + 500 := by
  rcases Nat.lt_or_ge (2048 * units % 1000) 500 with below | above
  · exact ⟨1000 * (2048 * units / 1000),Nat.dvd_mul_right _ _,by omega,by omega⟩
  · exact ⟨1000 * (2048 * units / 1000 + 1),Nat.dvd_mul_right _ _,by omega,by omega⟩

/-- The text of a double of this size is that of an integer which rounds to it: of a multiple of ten
thousand if there is one, and else of the nearest multiple of a thousand. -/
theorem exists_chars_wide (least : 2 ^ 52 ≤ units) (most : units ≤ 2 ^ 53) :
    ∃ shown, (wide units).chars = ofNat shown ∧ (wideInterval units).Holds shown ∧ 1000 ∣ shown ∧
      (∀ n, 10000 ∣ n → (wideInterval units).Holds n → shown = n) ∧
      (10000 ∣ shown ∨ shown < 2048 * units + 500 ∧ 2048 * units < shown + 500) := by
  have held : (wideInterval units).Holds (2048 * units) :=
    holds_of_near least (by omega) (by omega)
  have size := magnitude_wide least most
  obtain ⟨near,thousands,below,above⟩ := exists_thousand_near units
  have nearHolds : (wideInterval units).Holds near := holds_of_near least (by omega) (by omega)
  have shortest {power n : Nat} (few : power ≤ 4) (some : 3 ≤ power) (multiple : 10 ^ power ∣ n)
      (holds : (wideInterval units).Holds n) :=
    shortest_spec (i := wideInterval units) rfl held (show _ < magnitude _ 1 by omega)
      (show magnitude _ 1 ≤ _ by omega) multiple holds
  obtain ⟨power,three,exponent,holds,nearest⟩ := shortest (by decide) (Nat.le_refl 3) thousands nearHolds
  refine ⟨_,?_,holds,Nat.dvd_mul_left_of_dvd (Nat.pow_dvd_pow 10 three) _,?_,?_⟩
  · have low := @low_wide_le units
    have shown := (holds_wide_iff.mp holds).1
    rw [chars_wide least most]
    refine Candidate.chars_eq_ofNat (Nat.pos_of_ne_zero ?_) exponent
    intro none
    rw [none] at shown
    omega
  · intro n multiple rounds
    obtain ⟨other,four,same,_⟩ := shortest (Nat.le_refl 4) (by decide) multiple rounds
    have equal : power = other := by omega
    refine eq_of_holds_of_dvd holds rounds (Nat.dvd_mul_left_of_dvd ?_ _) multiple
    rw [equal]
    exact Nat.pow_dvd_pow 10 four
  · rcases Nat.lt_or_ge 3 power with more | only
    · exact .inl (Nat.dvd_mul_left_of_dvd (Nat.pow_dvd_pow 10 more) _)
    · have same : power = 3 := Nat.le_antisymm only three
      subst same
      have closer := nearest near thousands nearHolds
      have middle : (wideInterval units).middle = 2048 * units := rfl
      rw [Interval.gap,Interval.gap,middle] at closer
      exact .inr ⟨by omega,by omega⟩

private theorem wide_injective {other : Nat} (same : wide units = wide other) : units = other := by
  unfold wide at same
  split at same <;> split at same
  all_goals simp_all

variable {other : Nat}

theorem ofInt_eq_iff_of_large (large : 2 ^ 63 ≤ n) (bounded : n < 2 ^ 64)
    (otherLarge : 2 ^ 63 ≤ other) (otherBounded : other < 2 ^ 64) :
    ofInt n = ofInt other ↔ roundQuotient n 2048 = roundQuotient other 2048 := by
  rw [ofInt_of_large large bounded,ofInt_of_large otherLarge otherBounded]
  exact ⟨wide_injective,congrArg wide⟩

private theorem roundQuotient_eq_of_holds (large : 2 ^ 63 ≤ n) (bounded : n < 2 ^ 64)
    (most : units ≤ 2 ^ 53)
    (holds : (wideInterval units).Holds n) : roundQuotient n 2048 = units := by
  have own := holds_roundQuotient large bounded
  exact Nat.le_antisymm (units_unique (roundQuotient_bounds large bounded).2 holds own)
    (units_unique most own holds)

private theorem le_of_holds_of_dvd (least : 2 ^ 52 ≤ units) (holds : (wideInterval units).Holds n)
    (multiple : 1000 ∣ n) : 2 ^ 63 ≤ n := by
  have low := (holds_wide_iff.mp holds).1
  simp only [wideInterval] at low
  split at low <;> omega

private theorem lt_of_holds_of_dvd (most : units ≤ 2 ^ 53) (holds : (wideInterval units).Holds n)
    (multiple : 10000 ∣ n) : n < 2 ^ 64 := by
  obtain ⟨low,high⟩ := holds_wide_iff.mp holds
  simp only [wideInterval] at low high
  split at high <;> omega

theorem exists_chars_of_large (large : 2 ^ 63 ≤ n) (bounded : n < 2 ^ 64) :
    ∃ shown, (ofInt n).chars = ofNat shown ∧ 2 ^ 63 ≤ shown := by
  obtain ⟨least,most⟩ := roundQuotient_bounds large bounded
  obtain ⟨shown,written,holds,thousand,_⟩ := exists_chars_wide least most
  rw [ofInt_of_large large bounded]
  exact ⟨shown,written,le_of_holds_of_dvd least holds thousand⟩

theorem ofInt_eq_of_chars_eq (large : 2 ^ 63 ≤ n) (bounded : n < 2 ^ 64)
    (otherLarge : 2 ^ 63 ≤ other) (otherBounded : other < 2 ^ 64)
    (same : (ofInt n).chars = (ofInt other).chars) : ofInt n = ofInt other := by
  obtain ⟨least,most⟩ := roundQuotient_bounds large bounded
  obtain ⟨otherLeast,otherMost⟩ := roundQuotient_bounds otherLarge otherBounded
  obtain ⟨first,firstWritten,firstHolds,_⟩ := exists_chars_wide least most
  obtain ⟨second,secondWritten,secondHolds,_⟩ := exists_chars_wide otherLeast otherMost
  rw [ofInt_of_large large bounded,ofInt_of_large otherLarge otherBounded,firstWritten,
    secondWritten] at same
  have shown : first = second := ofNat_injective same
  rw [← shown] at secondHolds
  rw [ofInt_eq_iff_of_large large bounded otherLarge otherBounded]
  exact Nat.le_antisymm (units_unique most secondHolds firstHolds)
    (units_unique otherMost firstHolds secondHolds)

private theorem near_iff_mod (lower : 2048 * units ≤ n + 1024) (upper : n ≤ 2048 * units + 1024) :
    (n < 2048 * units + 500 ∧ 2048 * units < n + 500) ↔ n % 2048 < 500 ∨ 1548 < n % 2048 := by
  rcases Nat.lt_or_ge n (2048 * units) with below | above
  · obtain ⟨fewer,rfl⟩ : ∃ fewer, units = fewer + 1 := ⟨units - 1,by omega⟩
    have quotient : n / 2048 = fewer := by omega
    omega
  · have quotient : n / 2048 = units := by omega
    omega

/-- An integer of this size keeps its digits exactly if it is a multiple of ten thousand, or else a
multiple of a thousand near its double, where no multiple of ten thousand rounds to that double. -/
theorem chars_eq_ofNat_iff (large : 2 ^ 63 ≤ n) (bounded : n < 2 ^ 64) :
    (ofInt n).chars = ofNat n ↔ 10000 ∣ n ∨
      1000 ∣ n ∧ (n % 2048 < 500 ∨ 1548 < n % 2048) ∧
        ∀ other : Nat, 2 ^ 63 ≤ other → other < 2 ^ 64 → 10000 ∣ other → ofInt other ≠ ofInt n := by
  obtain ⟨least,most⟩ := roundQuotient_bounds large bounded
  have own := holds_roundQuotient large bounded
  have near := @roundQuotient_near n
  obtain ⟨shown,written,holds,thousand,unique,close⟩ := exists_chars_wide least most
  rw [← ofInt_of_large large bounded] at written
  rw [written]
  constructor
  · intro same
    have exact : shown = n := ofNat_injective same
    subst exact
    rcases close with multiple | ⟨below,above⟩
    · exact .inl multiple
    · by_cases multiple : 10000 ∣ shown
      · exact .inl multiple
      · refine .inr ⟨thousand,(near_iff_mod (by omega) (by omega)).mp ⟨below,above⟩,?_⟩
        intro other otherLarge otherBounded otherMultiple rounds
        have otherHolds := holds_roundQuotient otherLarge otherBounded
        rw [(ofInt_eq_iff_of_large otherLarge otherBounded large bounded).mp rounds] at otherHolds
        rw [unique other otherMultiple otherHolds] at multiple
        exact multiple otherMultiple
  · rintro (multiple | ⟨thousands,nearby,none⟩)
    · rw [unique n multiple own]
    · have shownLarge := le_of_holds_of_dvd least holds thousand
      have apart : ¬ 10000 ∣ shown := by
        intro multiple
        have shownBounded := lt_of_holds_of_dvd most holds multiple
        apply none shown shownLarge shownBounded multiple
        rw [ofInt_eq_iff_of_large shownLarge shownBounded large bounded]
        exact roundQuotient_eq_of_holds shownLarge shownBounded most holds
      obtain ⟨below,above⟩ := close.resolve_left apart
      have nearest : n < 2048 * roundQuotient n 2048 + 500 ∧ 2048 * roundQuotient n 2048 < n + 500 :=
        (near_iff_mod (by omega) (by omega)).mpr nearby
      have same : shown = n := by omega
      rw [same]

end Wide

end Double

end FlatQuery.Decimal
