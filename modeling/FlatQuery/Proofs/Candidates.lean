import FlatQuery.Decimal.Shortest
import Mathlib.Algebra.GroupWithZero.Nat
import Mathlib.Data.List.DropRight

/-! The shortest texts of doubles that are integers. The search tries fewer digits first, and with each
number of digits the two neighbours of the double. So it finds an integer of the interval that is a
multiple of the greatest power of ten, and the nearest one of those. -/

namespace FlatQuery.Decimal

private theorem ofNat_mul_pow_ten {n : Nat} (positive : 0 < n) (power : Nat) :
    ofNat (n * 10 ^ power) = ofNat n ++ List.replicate power '0' := by
  induction power with
  | zero => simp
  | succ power ih =>
    have large : 0 < n * 10 ^ power := Nat.mul_pos positive (Nat.pow_pos (by decide))
    have shifted : n * 10 ^ (power + 1) = 10 * (n * 10 ^ power) + 0 := by
      rw [Nat.pow_succ,← Nat.mul_assoc,Nat.mul_comm,Nat.add_zero]
    rw [shifted,ofNat,← Nat.toDigits_append_toDigits (by decide) large (by decide)]
    change ofNat (n * 10 ^ power) ++ ['0'] = _
    rw [ih,List.append_assoc,← List.replicate_succ']

namespace Double

theorem Candidate.chars_eq_ofNat {candidate : Candidate} {power : Nat}
    (positive : 0 < candidate.coefficient) (whole : candidate.power = power) :
    candidate.chars = ofNat (candidate.coefficient * 10 ^ power) := by
  have some : 0 < (ofNat candidate.coefficient).length := Nat.length_toDigits_pos
  rw [ofNat_mul_pow_ten positive]
  simp only [Candidate.chars,whole]
  generalize ofNat candidate.coefficient = digits at some ⊢
  have zeros : digits.rtakeWhile (· == '0') =
      List.replicate (digits.rtakeWhile (· == '0')).length '0' := by
    apply List.eq_replicate_of_mem
    intro c inside
    simpa using List.mem_rtakeWhile_imp inside
  have split := List.rdropWhile_append_rtakeWhile (p := (· == '0')) (l := digits)
  change positional (digits.rdropWhile (· == '0')) _ = _
  generalize digits.rdropWhile (· == '0') = kept at split ⊢
  generalize (digits.rtakeWhile (· == '0')).length = count at zeros
  have counted := congrArg List.length split
  rw [zeros,List.length_append,List.length_replicate] at counted
  have point : ((digits.length : Int) + power).natAbs = kept.length + (count + power) := by omega
  rw [positional,if_neg (by omega),point,if_pos (by omega),Nat.add_sub_cancel_left,
    ← List.replicate_append_replicate,← zeros,← List.append_assoc,split]

namespace Interval

/-- The integers of an interval of integers. -/
def Holds (i : Interval) (n : Nat) : Prop :=
  if i.closed then i.low ≤ n ∧ n ≤ i.high else i.low < n ∧ n < i.high

def choose (i : Interval) (lower upper : Candidate) : Option Candidate :=
  match lower.inside i, upper.inside i with
  | true, true => if lower.distance i < upper.distance i then some lower else some upper
  | true, false => some lower
  | false, true => some upper
  | false, false => none

def gap (i : Interval) (n : Nat) : Nat := (n - i.middle) + (i.middle - n)

def shortest (i : Interval) : Candidate :=
  ((List.range 17).findSome? fun n => candidate? i (n + 1)).getD ⟨0,0⟩

variable {i : Interval} {lower upper candidate : Candidate}

theorem Holds.between {first n last : Nat} (below : i.Holds first) (above : i.Holds last)
    (least : first ≤ n) (most : n ≤ last) : i.Holds n := by
  unfold Holds at below above ⊢
  cases closed : i.closed with
  | true =>
    simp only [closed,if_true] at below above ⊢
    omega
  | false =>
    simp only [closed,Bool.false_eq_true,if_false] at below above ⊢
    omega

private theorem choose_spec (chosen : i.choose lower upper = some candidate) :
    (candidate = lower ∨ candidate = upper) ∧ candidate.inside i = true ∧
      (lower.inside i = true → candidate.distance i ≤ lower.distance i) ∧
      (upper.inside i = true → candidate.distance i ≤ upper.distance i) := by
  unfold choose at chosen
  grind

private theorem exists_choose (inside : lower.inside i = true ∨ upper.inside i = true) :
    ∃ candidate, i.choose lower upper = some candidate := by
  rw [← Option.isSome_iff_exists,choose]
  split
  · split <;> rfl
  · rfl
  · rfl
  · rename_i lowerOutside upperOutside
    simp [lowerOutside,upperOutside] at inside

end Interval

section Whole

variable {i : Interval} {candidate : Candidate} {count power n : Nat}

theorem inside_iff_holds (whole : i.denominator = 1) {coefficient : Nat} :
    Candidate.inside ⟨coefficient,power⟩ i = true ↔ i.Holds (coefficient * 10 ^ power) := by
  have unsigned : ¬ (power : Int) < 0 := by omega
  unfold Candidate.inside Interval.Holds Candidate.numerator Candidate.scale
  simp only [whole,unsigned,if_false,Int.natAbs_natCast,Nat.pow_eq,Nat.mul_one]
  split <;> simp

private theorem distance_eq_gap (whole : i.denominator = 1) {coefficient : Nat} :
    Candidate.distance ⟨coefficient,power⟩ i = i.gap (coefficient * 10 ^ power) := by
  have unsigned : ¬ (power : Int) < 0 := by omega
  unfold Candidate.distance Interval.gap Candidate.numerator Candidate.scale
  simp only [whole,unsigned,if_false,Int.natAbs_natCast,Nat.pow_eq,Nat.mul_one]

private theorem candidate?_eq_choose (whole : i.denominator = 1)
    (exponent : magnitude i.middle i.denominator - count = power) :
    candidate? i count =
      i.choose ⟨i.middle / 10 ^ power,power⟩ ⟨i.middle / 10 ^ power + 1,power⟩ := by
  have unsigned : ¬ (power : Int) < 0 := by omega
  unfold candidate?
  simp only [exponent,unsigned,if_false,Int.natAbs_natCast,Nat.pow_eq]
  rw [whole,Nat.one_mul]
  rfl

private theorem neighbour_of_dvd (held : i.Holds i.middle) (multiple : 10 ^ power ∣ n)
    (holds : i.Holds n) :
    (i.Holds (i.middle / 10 ^ power * 10 ^ power) ∧
      i.gap (i.middle / 10 ^ power * 10 ^ power) ≤ i.gap n) ∨
    (i.Holds ((i.middle / 10 ^ power + 1) * 10 ^ power) ∧
      i.gap ((i.middle / 10 ^ power + 1) * 10 ^ power) ≤ i.gap n) := by
  obtain ⟨factor,same⟩ := multiple
  rw [Nat.mul_comm] at same
  subst same
  have positive : 0 < 10 ^ power := Nat.pow_pos (by decide)
  have lower : i.middle / 10 ^ power * 10 ^ power ≤ i.middle := Nat.div_mul_le_self _ _
  have upper : i.middle ≤ (i.middle / 10 ^ power + 1) * 10 ^ power := by
    rw [Nat.mul_comm]
    exact Nat.le_of_lt (Nat.lt_mul_div_succ _ positive)
  unfold Interval.gap
  rcases Nat.lt_or_ge (i.middle / 10 ^ power) factor with above | below
  · have closer : (i.middle / 10 ^ power + 1) * 10 ^ power ≤ factor * 10 ^ power :=
      Nat.mul_le_mul_right _ above
    exact .inr ⟨held.between holds upper closer,by omega⟩
  · have closer : factor * 10 ^ power ≤ i.middle / 10 ^ power * 10 ^ power :=
      Nat.mul_le_mul_right _ below
    exact .inl ⟨holds.between held closer lower,by omega⟩

private theorem exists_candidate?_of_dvd (whole : i.denominator = 1) (held : i.Holds i.middle)
    (exponent : magnitude i.middle i.denominator - count = power) (multiple : 10 ^ power ∣ n)
    (holds : i.Holds n) : ∃ candidate, candidate? i count = some candidate := by
  rw [candidate?_eq_choose whole exponent]
  apply Interval.exists_choose
  rw [inside_iff_holds whole,inside_iff_holds whole]
  exact (neighbour_of_dvd held multiple holds).imp And.left And.left

/-- A candidate lies in the interval, and no multiple of its power of ten there is nearer. -/
theorem candidate?_spec (whole : i.denominator = 1) (held : i.Holds i.middle)
    (exponent : magnitude i.middle i.denominator - count = power)
    (found : candidate? i count = some candidate) :
    candidate.power = power ∧ i.Holds (candidate.coefficient * 10 ^ power) ∧
      ∀ n, 10 ^ power ∣ n → i.Holds n → i.gap (candidate.coefficient * 10 ^ power) ≤ i.gap n := by
  rw [candidate?_eq_choose whole exponent] at found
  obtain ⟨either,inside,lower,upper⟩ := Interval.choose_spec found
  obtain ⟨coefficient,same⟩ : ∃ coefficient, candidate = ⟨coefficient,power⟩ := by
    rcases either with rfl | rfl
    · exact ⟨_,rfl⟩
    · exact ⟨_,rfl⟩
  subst same
  rw [inside_iff_holds whole] at inside
  rw [inside_iff_holds whole,distance_eq_gap whole,distance_eq_gap whole] at lower upper
  refine ⟨rfl,inside,?_⟩
  intro n multiple holds
  rcases neighbour_of_dvd held multiple holds with ⟨near,closer⟩ | ⟨near,closer⟩
  · exact Nat.le_trans (lower near) closer
  · exact Nat.le_trans (upper near) closer

private theorem exists_first_of_range {α : Type} (find : Nat → Option α) {bound index : Nat}
    {hit : α} (inside : index < bound) (found : find index = some hit) :
    ∃ first result, first ≤ index ∧ find first = some result ∧
      (List.range bound).findSome? find = some result := by
  have inRange : index ∈ List.range bound := List.mem_range.mpr inside
  obtain ⟨result,chosen⟩ : ∃ result, (List.range bound).findSome? find = some result := by
    rw [← Option.isSome_iff_exists,List.findSome?_isSome_iff]
    exact ⟨index,inRange,Option.isSome_iff_exists.mpr ⟨hit,found⟩⟩
  obtain ⟨before,first,after,split,here,missed⟩ := List.findSome?_eq_some_iff.mp chosen
  refine ⟨first,result,?_,here,chosen⟩
  have ordered := List.pairwise_lt_range (n := bound)
  rw [split] at inRange ordered
  rcases List.mem_append.mp inRange with skipped | later
  · have none := missed index skipped
    rw [found] at none
    cases none
  · rcases List.mem_cons.mp later with rfl | behind
    · exact Nat.le_refl index
    · have increasing := (List.pairwise_cons.mp (List.pairwise_append.mp ordered).2.1).1
      exact Nat.le_of_lt (increasing index behind)

/-- The shortest candidate has no more digits than any integer of the interval, and it is the nearest of
those that have as few. -/
theorem shortest_spec (whole : i.denominator = 1) (held : i.Holds i.middle)
    (fewer : (power : Int) < magnitude i.middle i.denominator)
    (enough : magnitude i.middle i.denominator ≤ power + 17) (multiple : 10 ^ power ∣ n)
    (holds : i.Holds n) : ∃ larger : Nat, power ≤ larger ∧ i.shortest.power = larger ∧
      i.Holds (i.shortest.coefficient * 10 ^ larger) ∧
      ∀ n, 10 ^ larger ∣ n → i.Holds n → i.gap (i.shortest.coefficient * 10 ^ larger) ≤ i.gap n := by
  obtain ⟨digits,length⟩ : ∃ digits : Nat, magnitude i.middle i.denominator = digits :=
    ⟨_,(Int.toNat_of_nonneg (by omega)).symm⟩
  obtain ⟨_,hit⟩ : ∃ candidate, candidate? i (digits - power - 1 + 1) = some candidate :=
    exists_candidate?_of_dvd whole held (by omega) multiple holds
  have inside : digits - power - 1 < 17 := by omega
  obtain ⟨index,candidate,early,here,chosen⟩ :=
    exists_first_of_range (fun n => candidate? i (n + 1)) inside hit
  have shortest : i.shortest = candidate := by
    rw [Interval.shortest,chosen,Option.getD_some]
  have exponent : magnitude i.middle i.denominator - (index + 1 : Nat) =
      (digits - (index + 1) : Nat) := by omega
  rw [shortest]
  exact ⟨digits - (index + 1),by omega,candidate?_spec whole held exponent here⟩

end Whole

end Double

end FlatQuery.Decimal
