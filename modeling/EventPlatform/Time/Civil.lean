import Mathlib.Data.Int.Notation
import Mathlib.Data.Nat.Notation
import Mathlib.Tactic.IntervalCases
import Mathlib.Tactic.SplitIfs

namespace EventPlatform.Time

def IsLeap (year : ℤ) : Prop := year % 4 = 0 ∧ (year % 100 ≠ 0 ∨ year % 400 = 0)

instance (year : ℤ) : Decidable (IsLeap year) := inferInstanceAs (Decidable (_ ∧ _))

def daysIn (month : ℕ) (year : ℤ) : ℕ :=
  if month = 2 then if IsLeap year then 29 else 28
  else 30 + (month + month / 8) % 2

/-- A day of the Gregorian calendar, which is taken as valid for all years. -/
structure Date where
  year : ℤ
  month : ℕ
  day : ℕ
  month_mem : 1 ≤ month ∧ month ≤ 12
  day_mem : 1 ≤ day ∧ day ≤ daysIn month year

/-- The days from the first of March of the year 0, with January and February counted at the end of a year. -/
def dayNumber (year : ℤ) (month day : ℕ) : ℤ :=
  let y := if month ≤ 2 then year - 1 else year
  let m : ℤ := (month + 9) % 12
  365 * y + y / 4 - y / 100 + y / 400 + (153 * m + 2) / 5 + day - 1

def Date.days (d : Date) : ℤ := dayNumber d.year d.month d.day

/-- The year and its day, for a day of a cycle of 400 years that start in March. The last century of the cycle and the
last of four years are one day longer than the others. -/
def yearDay (n : ℤ) : ℤ × ℤ :=
  let century := n / 36524 - n / 36524 / 4
  let n := n - 36524 * century
  let four := n / 1461
  let n := n - 1461 * four
  let year := n / 365 - n / 365 / 4
  (100 * century + 4 * four + year, n - 365 * year)

structure YearDay (n year day : ℤ) : Prop where
  year_mem : 0 ≤ year ∧ year < 400
  day_mem : 0 ≤ day ∧ day ≤ 365
  sum : 365 * year + year / 4 - year / 100 + day = n
  leap : day = 365 → IsLeap (year + 1)

theorem yearDay_spec {n : ℤ} (h₀ : 0 ≤ n) (h₁ : n < 146097) : YearDay n (yearDay n).1 (yearDay n).2 := by
  dsimp only [yearDay]
  generalize hc : n / 36524 - n / 36524 / 4 = century
  have hcentury : 0 ≤ century ∧ century ≤ 3 := by omega
  obtain ⟨k, hk⟩ : ∃ k, n - 36524 * century = k := ⟨_, rfl⟩
  have hkmem : 0 ≤ k ∧ k ≤ 36524 ∧ (k = 36524 → century = 3) := by omega
  rw [hk]
  clear hc h₀ h₁
  generalize hf : k / 1461 = four
  have hfour : 0 ≤ four ∧ four ≤ 24 := by omega
  obtain ⟨m, hm⟩ : ∃ m, k - 1461 * four = m := ⟨_, rfl⟩
  have hmmem : 0 ≤ m ∧ m ≤ 1460 := by omega
  rw [hm]
  clear hf
  generalize hy : m / 365 - m / 365 / 4 = year
  have hyear : 0 ≤ year ∧ year ≤ 3 ∧ 0 ≤ m - 365 * year ∧ m - 365 * year ≤ 365 ∧
      (m - 365 * year = 365 → year = 3) := by omega
  clear hy
  have hdiv : (100 * century + 4 * four + year) / 4 = 25 * century + four ∧
      (100 * century + 4 * four + year) / 100 = century := by omega
  refine ⟨by omega, by omega, by omega, fun hlast ↦ ?_⟩
  -- the last day belongs to the fourth of four years, and these end a century only if they end the cycle
  have hend : four = 24 → century = 3 := by omega
  unfold IsLeap
  omega

/-- The month of a day of a year that starts in March. -/
def marchMonth (day : ℤ) : ℤ := (5 * day + 2) / 153

/-- The days of such a year before a month. -/
def marchDays (month : ℤ) : ℤ := (153 * month + 2) / 5

theorem marchMonth_mem {day : ℤ} (h : 0 ≤ day ∧ day ≤ 365) : 0 ≤ marchMonth day ∧ marchMonth day ≤ 11 := by
  unfold marchMonth
  omega

theorem marchDays_le (day : ℤ) : marchDays (marchMonth day) ≤ day := by
  unfold marchDays marchMonth
  omega

/-- A month ends before the next one begins, and February does so by its leap day. -/
theorem sub_marchDays_lt {day year : ℤ} (h : 0 ≤ day ∧ day ≤ 365) (hleap : day = 365 → IsLeap (year + 1)) :
    day - marchDays (marchMonth day) < if marchMonth day < 10 then daysIn (marchMonth day + 3).toNat year
      else daysIn (marchMonth day - 9).toNat (year + 1) := by
  obtain ⟨hlow, hhigh⟩ := marchMonth_mem h
  have hday : 5 * day + 2 < 153 * marchMonth day + 153 := by
    unfold marchMonth
    omega
  generalize marchMonth day = month at *
  unfold marchDays daysIn
  interval_cases month
  case «11» =>
    simp only [Int.reduceLT, Int.reduceSub, Int.reduceToNat, if_true, if_false]
    by_cases hd : day = 365
    · rw [if_pos (hleap hd)]
      omega
    · split_ifs <;> omega
  all_goals
    simp
    omega

/-- The date of a day of a year that starts in March. -/
def Date.ofMarch (year day : ℤ) (h : 0 ≤ day ∧ day ≤ 365) (hleap : day = 365 → IsLeap (year + 1)) : Date where
  year := if marchMonth day < 10 then year else year + 1
  month := (if marchMonth day < 10 then marchMonth day + 3 else marchMonth day - 9).toNat
  day := (day - marchDays (marchMonth day) + 1).toNat
  month_mem := by
    have hmem := marchMonth_mem h
    split_ifs <;> omega
  day_mem := by
    have hle := marchDays_le day
    have hlt := sub_marchDays_lt h hleap
    split_ifs at * <;> omega

def Date.ofDays (z : ℤ) : Date :=
  have h : YearDay (z % 146097) _ _ := yearDay_spec (by omega) (by omega)
  .ofMarch ((yearDay (z % 146097)).1 + 400 * (z / 146097)) (yearDay (z % 146097)).2 h.day_mem (by
    intro hday
    have hleap := h.leap hday
    unfold IsLeap at *
    omega)

theorem Date.days_ofMarch (year day : ℤ) (h : 0 ≤ day ∧ day ≤ 365) (hleap : day = 365 → IsLeap (year + 1)) :
    (ofMarch year day h hleap).days = 365 * year + year / 4 - year / 100 + year / 400 + day := by
  have hmem := marchMonth_mem h
  have hle := marchDays_le day
  have hday : ((day - marchDays (marchMonth day) + 1).toNat : ℤ) = day - marchDays (marchMonth day) + 1 := by omega
  dsimp only [Date.days, dayNumber, ofMarch]
  rw [hday]
  by_cases hm : marchMonth day < 10
  · have hlate : ¬ (marchMonth day + 3).toNat ≤ 2 := by omega
    have hmod : ((marchMonth day + 3).toNat + 9 : ℤ) % 12 = marchMonth day := by omega
    simp only [hm, if_true, hlate, if_false, hmod]
    unfold marchDays
    omega
  · have hearly : (marchMonth day - 9).toNat ≤ 2 := by omega
    have hmod : ((marchMonth day - 9).toNat + 9 : ℤ) % 12 = marchMonth day := by omega
    simp only [hm, if_false, hearly, if_true, hmod, Int.add_sub_cancel]
    unfold marchDays
    omega

theorem Date.days_ofDays (z : ℤ) : (ofDays z).days = z := by
  have h : YearDay (z % 146097) _ _ := yearDay_spec (by omega) (by omega)
  have hsum := h.sum
  have hyear := h.year_mem
  rw [ofDays, days_ofMarch]
  omega

end EventPlatform.Time
