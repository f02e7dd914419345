import EventPlatform.BigRat.Rounding
import EventPlatform.Time.Civil

namespace EventPlatform.Time

open BigRat

/-- The day of the Unix epoch. -/
def epoch : ℤ := 719468

def nanosPerSecond : ℕ := 10 ^ 9

def nanosPerDay : ℕ := 86400 * nanosPerSecond

/-- The date of an instant, which is given in nanoseconds from the Unix epoch. -/
def date (t : ℤ) : Date := .ofDays (t / nanosPerDay + epoch)

/-- The nanoseconds of its day. -/
def clock (t : ℤ) : ℕ := (t % nanosPerDay).toNat

/-- `appendNano`: nine digits without the zeros at the end, and nothing if none is left. -/
def fraction (nanos : ℕ) : List Char :=
  match (padded 9 nanos).rdropWhile (· = '0') with
  | [] => []
  | ds => '.' :: ds

def formatDate (d : Date) : List Char :=
  padded 4 d.year.toNat ++ '-' :: (padded 2 d.month ++ '-' :: padded 2 d.day)

def formatClock (second : ℕ) : List Char :=
  padded 2 (second / 3600) ++ ':' :: (padded 2 (second / 60 % 60) ++ ':' :: padded 2 (second % 60))

/-- `appendFormatRFC3339` for an instant in UTC. -/
def formatRFC3339 (t : ℤ) : List Char :=
  formatDate (date t) ++ 'T' :: (formatClock (clock t / nanosPerSecond) ++
    (fraction (clock t % nanosPerSecond) ++ ['Z']))

/-- The instants whose year has four digits. -/
def InRange (t : ℤ) : Prop := 0 ≤ (date t).year ∧ (date t).year ≤ 9999

instance (t : ℤ) : Decidable (InRange t) := inferInstanceAs (Decidable (_ ∧ _))

/-- `Time.MarshalJSON`. -/
def marshalJSON (t : ℤ) : Except String (List Char) :=
  if InRange t then .ok ('"' :: formatRFC3339 t ++ ['"'])
  else .error "Time.MarshalJSON: year outside of range [0,9999]"

section Reading

/-- `parseUint` on the first `width` characters. -/
def parseUint (width min max : ℕ) (s : List Char) : Option (ℕ × List Char) :=
  let ds := s.take width
  let n := Nat.ofDigitChars 10 ds 0
  if ds.length = width ∧ ds.all Char.isDigit ∧ min ≤ n ∧ n ≤ max then some (n, s.drop width) else none

def literal (c : Char) : List Char → Option (List Char)
  | [] => none
  | d :: s => if d = c then some s else none

/-- Digits beyond the ninth are dropped. -/
def parseNanoseconds (ds : List Char) : ℕ :=
  Nat.ofDigitChars 10 (ds.take 9) 0 * 10 ^ (9 - (ds.take 9).length)

def parseFraction : List Char → ℕ × List Char
  | '.' :: s =>
    match s.span Char.isDigit with
    | ([], _) => (0, '.' :: s)
    | (ds, rest) => (parseNanoseconds ds, rest)
  | s => (0, s)

/-- The offset in seconds. -/
def parseZone : List Char → Option ℤ
  | ['Z'] => some 0
  | sign :: s => do
    let (hr, s) ← parseUint 2 0 23 s
    let s ← literal ':' s
    let (mm, s) ← parseUint 2 0 59 s
    if s ≠ [] then none
    let offset : ℤ := (hr * 60 + mm) * 60
    if sign = '-' then some (-offset) else if sign = '+' then some offset else none
  | [] => none

def parseDate (s : List Char) : Option (ℤ × List Char) := do
  let (year, s) ← parseUint 4 0 9999 s
  let s ← literal '-' s
  let (month, s) ← parseUint 2 1 12 s
  let s ← literal '-' s
  let (day, s) ← parseUint 2 1 (daysIn month year) s
  return (dayNumber year month day, s)

def parseClock (s : List Char) : Option (ℕ × List Char) := do
  let (hour, s) ← parseUint 2 0 23 s
  let s ← literal ':' s
  let (min, s) ← parseUint 2 0 59 s
  let s ← literal ':' s
  let (sec, s) ← parseUint 2 0 59 s
  return ((hour * 60 + min) * 60 + sec, s)

def parseRFC3339 (s : List Char) : Option ℤ := do
  let (day, s) ← parseDate s
  let s ← literal 'T' s
  let (second, s) ← parseClock s
  let (nsec, s) := parseFraction s
  let offset ← parseZone s
  return ((day - epoch) * 86400 + second - offset) * nanosPerSecond + nsec

end Reading

/-- `time.Parse` with the layout `RFC3339`, which is asked when the quick reader gives up. -/
class GoTime where
  parse : List Char → Option ℤ

/-- `Time.UnmarshalJSON` on the text of a value, for a time that was `t`. Escapes in the text are not undone. -/
def unmarshalJSON [GoTime] (t : ℤ) (data : List Char) : Option ℤ :=
  if data = "null".toList then some t else
  match data with
  | '"' :: rest =>
    if rest.getLast? = some '"' then parseRFC3339 rest.dropLast <|> GoTime.parse rest.dropLast else none
  | _ => none

section RoundTrip

theorem parseUint_padded {width min max n : ℕ} (hw : width ≠ 0) (hn : n < 10 ^ width) (hmin : min ≤ n) (hmax : n ≤ max)
    (s : List Char) : parseUint width min max (padded width n ++ s) = some (n, s) := by
  have hlength := padded_length hw hn
  have hdigits : (padded width n).all Char.isDigit = true := List.all_eq_true.mpr fun _ hc ↦ isDigit_of_mem_padded hc
  have htake : (padded width n ++ s).take width = padded width n := by rw [List.take_left' hlength]
  have hdrop : (padded width n ++ s).drop width = s := by rw [List.drop_left' hlength]
  dsimp only [parseUint]
  rw [htake, hdrop, ofDigitChars_padded]
  exact if_pos ⟨hlength, hdigits, hmin, hmax⟩

@[simp] theorem literal_cons (c : Char) (s : List Char) : literal c (c :: s) = some s := if_pos rfl

/-- The digits that are dropped from a fraction are zeros. -/
theorem exists_padded_eq (width n : ℕ) : ∃ ds k, (padded width n).rdropWhile (· = '0') = ds ∧
    padded width n = ds ++ List.replicate k '0' := by
  have hzeros : ∀ c ∈ (padded width n).rtakeWhile (· = '0'), c = '0' := fun c hc ↦ by
    simpa using List.mem_rtakeWhile_imp hc
  have hsplit : _ = padded width n := List.rdropWhile_append_rtakeWhile (p := (· = '0'))
  rw [List.eq_replicate_of_mem hzeros] at hsplit
  exact ⟨_, _, rfl, hsplit.symm⟩

theorem span_append {p : Char → Bool} {ds : List Char} (hds : ∀ c ∈ ds, p c) {c : Char} (hc : p c = false)
    (s : List Char) : (ds ++ c :: s).span p = (ds, c :: s) := by
  rw [List.span_eq_takeWhile_dropWhile, List.takeWhile_append_of_pos hds, List.dropWhile_append_of_pos hds,
    List.takeWhile_cons_of_neg (by simp [hc]), List.dropWhile_cons_of_neg (by simp [hc]), List.append_nil]

theorem parseFraction_fraction {nanos : ℕ} (h : nanos < 10 ^ 9) :
    parseFraction (fraction nanos ++ ['Z']) = (nanos, ['Z']) := by
  obtain ⟨ds, k, hds, hk⟩ := exists_padded_eq 9 nanos
  have hlength := padded_length (by decide) h
  have hvalue := ofDigitChars_padded 9 nanos
  have hdigits : ∀ c ∈ padded 9 nanos, c.isDigit := fun c hc ↦ isDigit_of_mem_padded hc
  rw [hk] at hlength hvalue hdigits
  rw [List.length_append, List.length_replicate] at hlength
  rw [Nat.ofDigitChars_append, Nat.ofDigitChars_replicate_zero] at hvalue
  rw [fraction, hds]
  cases ds with
  | nil =>
    rw [← hvalue]
    simp [parseFraction]
  | cons d ds =>
    have htake : (d :: ds).take 9 = d :: ds := List.take_of_length_le (by omega)
    have hk' : 9 - (d :: ds).length = k := by omega
    have hspan : (d :: ds ++ ['Z']).span Char.isDigit = (d :: ds, ['Z']) :=
      span_append (fun c hc ↦ hdigits c (List.mem_append_left _ hc)) (by decide) []
    change parseFraction ('.' :: (d :: ds ++ ['Z'])) = _
    rw [parseFraction, hspan]
    dsimp only
    rw [parseNanoseconds, htake, hk', Nat.mul_comm, hvalue]

theorem parseDate_formatDate {d : Date} (h : 0 ≤ d.year ∧ d.year ≤ 9999) (s : List Char) :
    parseDate (formatDate d ++ s) = some (d.days, s) := by
  have hyear : (d.year.toNat : ℤ) = d.year := Int.toNat_of_nonneg h.1
  have hmonth := d.month_mem
  have hday : d.day ≤ 31 := by
    refine d.day_mem.2.trans ?_
    unfold daysIn
    split_ifs <;> omega
  have hy (s : List Char) : parseUint 4 0 9999 (padded 4 d.year.toNat ++ s) = some (d.year.toNat, s) :=
    parseUint_padded (by decide) (by omega) (by omega) (by omega) s
  have hm (s : List Char) : parseUint 2 1 12 (padded 2 d.month ++ s) = some (d.month, s) :=
    parseUint_padded (by decide) (by omega) hmonth.1 hmonth.2 s
  have hd (s : List Char) : parseUint 2 1 (daysIn d.month d.year) (padded 2 d.day ++ s) = some (d.day, s) :=
    parseUint_padded (by decide) (by omega) d.day_mem.1 d.day_mem.2 s
  simp [parseDate, formatDate, hy, hm, hyear, hd, Date.days]

theorem parseClock_formatClock {second : ℕ} (h : second < 86400) (s : List Char) :
    parseClock (formatClock second ++ s) = some (second, s) := by
  have hh (s : List Char) : parseUint 2 0 23 (padded 2 (second / 3600) ++ s) = some (second / 3600, s) :=
    parseUint_padded (by decide) (by omega) (by omega) (by omega) s
  have hm (s : List Char) : parseUint 2 0 59 (padded 2 (second / 60 % 60) ++ s) = some (second / 60 % 60, s) :=
    parseUint_padded (by decide) (by omega) (by omega) (by omega) s
  have hs (s : List Char) : parseUint 2 0 59 (padded 2 (second % 60) ++ s) = some (second % 60, s) :=
    parseUint_padded (by decide) (by omega) (by omega) (by omega) s
  have hsum : (second / 3600 * 60 + second / 60 % 60) * 60 + second % 60 = second := by omega
  simp [parseClock, formatClock, hh, hm, hs, hsum]

/-- An instant is the sum of its day, its second of the day and its nanosecond. -/
theorem instant_eq (t : ℤ) : ((t / nanosPerDay) * 86400 + (clock t / nanosPerSecond : ℕ)) * nanosPerSecond +
    (clock t % nanosPerSecond : ℕ) = t := by
  unfold clock nanosPerDay nanosPerSecond
  omega

theorem parseRFC3339_formatRFC3339 {t : ℤ} (h : InRange t) : parseRFC3339 (formatRFC3339 t) = some t := by
  have hsecond : clock t / nanosPerSecond < 86400 := by
    unfold clock nanosPerDay nanosPerSecond
    omega
  have hnanos : clock t % nanosPerSecond < 10 ^ 9 := Nat.mod_lt _ (by decide)
  have hdays : (date t).days - epoch = t / nanosPerDay := by
    rw [date, Date.days_ofDays, add_sub_cancel_right]
  have hinstant := instant_eq t
  push_cast at hinstant
  simp [parseRFC3339, formatRFC3339, parseDate_formatDate h, parseClock_formatClock hsecond,
    parseFraction_fraction hnanos, parseZone, hdays, hinstant]

/-- What is written for a time is read back, whatever the time was before. -/
theorem unmarshalJSON_marshalJSON [GoTime] {t : ℤ} {text : List Char} (h : marshalJSON t = .ok text) (t₀ : ℤ) :
    unmarshalJSON t₀ text = some t := by
  unfold marshalJSON at h
  split at h
  · rename_i hrange
    cases h
    simp [unmarshalJSON, parseRFC3339_formatRFC3339 hrange]
  · cases h

end RoundTrip

end EventPlatform.Time
