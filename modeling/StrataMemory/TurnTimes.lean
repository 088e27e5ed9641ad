import Mathlib.Data.List.Basic

set_option autoImplicit false

namespace StrataMemory.TurnTimes

variable {ι : Type} [DecidableEq ι]

def turnAt (i : ι) : ℕ → List ι → ℕ
  | 0, _ => 0
  | _ + 1, [] => 1
  | k + 1, j :: rest => turnAt i (if j = i then k else k + 1) rest + 1

def turnsBy (i : ι) (schedule : List ι) (n : ℕ) : ℕ := (schedule.take n).count i

variable {i j : ι} {schedule : List ι} {k l n : ℕ}

theorem turnAt_le_iff (hn : n ≤ schedule.length) :
    turnAt i k schedule ≤ n ↔ k ≤ turnsBy i schedule n := by
  induction schedule generalizing k n with
  | nil =>
    have hzero : n = 0 := by simpa using hn
    subst hzero
    cases k <;> simp [turnAt, turnsBy]
  | cons a rest ih =>
    cases k with
    | zero => simp [turnAt]
    | succ k =>
      cases n with
      | zero => simp [turnAt, turnsBy]
      | succ n =>
        have htail := @ih (if a = i then k else k + 1) n (by simpa using hn)
        unfold turnsBy at htail ⊢
        rw [turnAt, Nat.add_le_add_iff_right, htail, List.take_succ_cons, List.count_cons]
        by_cases ha : a = i
        · simp [ha]
        · simp [ha]

theorem turnsBy_zero (i : ι) (schedule : List ι) : turnsBy i schedule 0 = 0 := by
  simp [turnsBy]

theorem turnsBy_self (h : schedule[n]? = some i) :
    turnsBy i schedule (n + 1) = turnsBy i schedule n + 1 := by
  simp [turnsBy, List.take_add_one, h]

theorem turnsBy_other (h : schedule[n]? = some j) (hj : j ≠ i) :
    turnsBy i schedule (n + 1) = turnsBy i schedule n := by
  simp [turnsBy, List.take_add_one, h, hj]

theorem mover_of_turnAt (hn : n < schedule.length) (h : turnAt i k schedule = n + 1) :
    schedule[n]? = some i := by
  have hafter : k ≤ turnsBy i schedule (n + 1) := (turnAt_le_iff hn).mp (by omega)
  have hbefore : ¬ k ≤ turnsBy i schedule n := fun hk => by
    have hle := (turnAt_le_iff (Nat.le_of_lt hn)).mpr hk
    omega
  have hmover : schedule[n]? = some schedule[n] := List.getElem?_eq_getElem hn
  by_cases hi : schedule[n] = i
  · rw [hmover, hi]
  · have hsame := turnsBy_other (i := i) hmover hi
    omega

theorem turnAt_ne (hij : i ≠ j) (hk : 0 < k) (hi : turnAt i k schedule ≤ schedule.length) :
    turnAt i k schedule ≠ turnAt j l schedule := by
  intro hsame
  cases ht : turnAt i k schedule with
  | zero =>
    have hle := (turnAt_le_iff (Nat.zero_le _)).mp (Nat.le_of_eq ht)
    rw [turnsBy_zero] at hle
    omega
  | succ n =>
    have hmover := mover_of_turnAt (by omega) ht
    rw [mover_of_turnAt (by omega) (hsame.symm.trans ht)] at hmover
    exact hij (Option.some.inj hmover).symm

end StrataMemory.TurnTimes
