import Mathlib
import EventPlatform.Keyed

namespace EventPlatform.Gateway

/-- One call of `Allow`, with the instant that it reads from the clock, in seconds. -/
structure AllowCall where
  key : String
  now : ℚ
  deriving DecidableEq

/-- The interface `Limiter`. -/
structure Limiter (L : Type) where
  allow : L → AllowCall → Bool × L

structure Bucket where
  tokens : ℚ
  last : ℚ
  deriving DecidableEq

structure RateLimiter where
  rate : ℚ
  burst : ℚ
  buckets : Std.ExtTreeMap String Bucket

namespace RateLimiter

def newRateLimiter (rate burst : ℚ) : RateLimiter := ⟨rate, burst, ∅⟩

def allow (rl : RateLimiter) (c : AllowCall) : Bool × RateLimiter :=
  match rl.buckets[c.key]? with
  | none => (true, { rl with buckets := rl.buckets.insert c.key ⟨rl.burst - 1, c.now⟩ })
  | some b =>
    let tokens := min rl.burst (b.tokens + (c.now - b.last) * rl.rate)
    if tokens < 1 then
      (false, { rl with buckets := rl.buckets.insert c.key ⟨tokens, c.now⟩ })
    else
      (true, { rl with buckets := rl.buckets.insert c.key ⟨tokens - 1, c.now⟩ })

def limiter : Limiter RateLimiter := ⟨allow⟩

end RateLimiter

def Bucket.take (rate burst : ℚ) (b : Option Bucket) (c : AllowCall) : Bool × Option Bucket :=
  match b with
  | none => (true, some ⟨burst - 1, c.now⟩)
  | some b =>
    let tokens := min burst (b.tokens + (c.now - b.last) * rate)
    if tokens < 1 then (false, some ⟨tokens, c.now⟩) else (true, some ⟨tokens - 1, c.now⟩)

namespace RateLimiter

theorem allow_eq (rl : RateLimiter) (c : AllowCall) : ∃ b,
    Bucket.take rl.rate rl.burst rl.buckets[c.key]? c = ((rl.allow c).1, some b) ∧
    (rl.allow c).2 = { rl with buckets := rl.buckets.insert c.key b } := by
  unfold allow Bucket.take
  cases rl.buckets[c.key]? with
  | none => exact ⟨_, rfl, rfl⟩
  | some b =>
    dsimp only
    split
    · exact ⟨_, rfl, rfl⟩
    · exact ⟨_, rfl, rfl⟩

def bank : Bank AllowCall.key RateLimiter (ℚ × ℚ × Option Bucket) Bool where
  step := allow
  cell rl k := (rl.rate, rl.burst, rl.buckets[k]?)
  answer x c := ((Bucket.take x.1 x.2.1 x.2.2 c).1, x.1, x.2.1, (Bucket.take x.1 x.2.1 x.2.2 c).2)
  step_eq rl c := by
    obtain ⟨b, hb, -⟩ := rl.allow_eq c
    rw [hb]
  cell_step rl c := by
    obtain ⟨b, hb, hrl⟩ := rl.allow_eq c
    rw [hrl, hb]
    simp
  cell_step_of_ne rl c k hk := by
    obtain ⟨b, -, hrl⟩ := rl.allow_eq c
    rw [hrl]
    simp [Std.ExtTreeMap.getElem?_insert, Ne.symm hk]

@[simp] theorem allow_rate (rl : RateLimiter) (c : AllowCall) : (rl.allow c).2.rate = rl.rate := by
  obtain ⟨b, -, hrl⟩ := rl.allow_eq c
  rw [hrl]

@[simp] theorem allow_burst (rl : RateLimiter) (c : AllowCall) : (rl.allow c).2.burst = rl.burst := by
  obtain ⟨b, -, hrl⟩ := rl.allow_eq c
  rw [hrl]

end RateLimiter

/-- The tokens that a call finds. A key that has not been seen has a full bucket. -/
def Bucket.level (rate burst : ℚ) (b : Option Bucket) (now : ℚ) : ℚ :=
  match b with
  | none => burst
  | some b => min burst (b.tokens + (now - b.last) * rate)

/-- The bucket has been filled up to an instant no later than `t`, and not above the brim. -/
structure Bucket.Sound (burst t : ℚ) (b : Bucket) : Prop where
  nonneg : 0 ≤ b.tokens
  le_burst : b.tokens ≤ burst
  last_le : b.last ≤ t

theorem Bucket.level_le_burst (rate burst : ℚ) (b : Option Bucket) (now : ℚ) :
    Bucket.level rate burst b now ≤ burst := by
  cases b with
  | none => exact le_rfl
  | some b => exact min_le_left _ _

theorem Bucket.level_nonneg {rate burst now : ℚ} (hr : 0 ≤ rate) (hb : 1 ≤ burst) {b : Option Bucket}
    (h : ∀ x ∈ b, x.Sound burst now) : 0 ≤ Bucket.level rate burst b now := by
  have hb' : 0 ≤ burst := zero_le_one.trans hb
  cases b with
  | none => exact hb'
  | some b =>
    have hs := h b rfl
    exact le_min hb' (add_nonneg hs.nonneg (mul_nonneg (sub_nonneg.mpr hs.last_le) hr))

/-- A call is allowed when it finds a token, and takes it then; otherwise it takes nothing. -/
theorem Bucket.take_eq {rate burst : ℚ} (hb : 1 ≤ burst) (b : Option Bucket) (c : AllowCall) :
    Bucket.take rate burst b c = (decide (1 ≤ Bucket.level rate burst b c.now),
      some ⟨Bucket.level rate burst b c.now - if 1 ≤ Bucket.level rate burst b c.now then 1 else 0, c.now⟩) := by
  cases b with
  | none => simp [Bucket.take, Bucket.level, hb]
  | some b =>
    by_cases hx : 1 ≤ Bucket.level rate burst (some b) c.now
    · rw [decide_eq_true hx, if_pos hx]
      exact if_neg (not_lt.mpr hx)
    · rw [decide_eq_false hx, if_neg hx, sub_zero]
      exact if_pos (not_le.mp hx)

namespace RateLimiter

variable {rl : RateLimiter}

theorem allow_spec (hb : 1 ≤ rl.burst) (c : AllowCall) :
    let x := Bucket.level rl.rate rl.burst rl.buckets[c.key]? c.now
    rl.allow c = (decide (1 ≤ x), { rl with
      buckets := rl.buckets.insert c.key ⟨x - if 1 ≤ x then 1 else 0, c.now⟩ }) := by
  obtain ⟨b, htake, hrl⟩ := rl.allow_eq c
  rw [Bucket.take_eq hb, Prod.mk.injEq, Option.some.injEq] at htake
  obtain ⟨hans, rfl⟩ := htake
  exact Prod.ext hans.symm hrl

/-- The bucket that a call leaves: the tokens that it found, less the one that it took. -/
theorem allow_bucket (hb : 1 ≤ rl.burst) (c : AllowCall) :
    ∃ b, (rl.allow c).2.buckets[c.key]? = some b ∧ b.last = c.now ∧
    b.tokens + (if (rl.allow c).1 then 1 else 0) = Bucket.level rl.rate rl.burst rl.buckets[c.key]? c.now := by
  rw [allow_spec hb]
  exact ⟨_, Std.ExtTreeMap.getElem?_insert_self, rfl, by simp⟩

def Sound (t : ℚ) (rl : RateLimiter) : Prop :=
  ∀ (k : String) (b : Bucket), rl.buckets[k]? = some b → b.Sound rl.burst t

theorem Sound.mono {t t' : ℚ} (h : rl.Sound t) (ht : t ≤ t') : rl.Sound t' := by
  intro k b hk
  obtain ⟨h₀, h₁, h₂⟩ := h k b hk
  exact ⟨h₀, h₁, h₂.trans ht⟩

theorem Sound.allow {c : AllowCall} (h : rl.Sound c.now) (hr : 0 ≤ rl.rate) (hb : 1 ≤ rl.burst) :
    (rl.allow c).2.Sound c.now := by
  intro k b hk
  rw [allow_spec hb, Std.ExtTreeMap.getElem?_insert] at hk
  rw [allow_burst]
  split at hk
  · cases hk
    have hle := Bucket.level_le_burst rl.rate rl.burst rl.buckets[c.key]? c.now
    have hge := Bucket.level_nonneg hr hb (h c.key)
    refine ⟨?_, ?_, le_rfl⟩ <;> dsimp only <;> split <;> linarith
  · exact h k b hk

theorem sound_newRateLimiter (rate burst t : ℚ) : (newRateLimiter rate burst).Sound t := by
  intro k b hk
  simp [newRateLimiter] at hk

/-- Calls at non-decreasing times keep every bucket sound. -/
theorem Sound.after {t : ℚ} (calls : List AllowCall) (hs : calls.Pairwise (·.now ≤ ·.now))
    (h : ∀ c ∈ calls, rl.Sound c.now) (ht : rl.Sound t) (hle : ∀ c ∈ calls, c.now ≤ t)
    (hr : 0 ≤ rl.rate) (hb : 1 ≤ rl.burst) : (bank.after rl calls).Sound t := by
  induction calls generalizing rl with
  | nil => exact ht
  | cons c calls ih =>
    rw [List.pairwise_cons] at hs
    rw [List.forall_mem_cons] at h hle
    have hnext := h.1.allow hr hb
    exact ih hs.2 (fun d hd ↦ hnext.mono (hs.1 d hd)) (hnext.mono hle.1) hle.2 (rl.allow_rate c ▸ hr)
      (rl.allow_burst c ▸ hb)

theorem after_rate (calls : List AllowCall) (rl : RateLimiter) : (bank.after rl calls).rate = rl.rate := by
  induction calls generalizing rl with
  | nil => rfl
  | cons c calls ih => exact (ih _).trans (rl.allow_rate c)

theorem after_burst (calls : List AllowCall) (rl : RateLimiter) : (bank.after rl calls).burst = rl.burst := by
  induction calls generalizing rl with
  | nil => rfl
  | cons c calls ih => exact (ih _).trans (rl.allow_burst c)

/-- One token has flowed in since the call before. -/
theorem allow_of_spaced {between : List AllowCall} {prev c : AllowCall} (h : rl.Sound prev.now) (hb : 1 ≤ rl.burst)
    (hr : 0 < rl.rate) (hkey : prev.key = c.key) (hbetween : ∀ d ∈ between, d.key ≠ c.key)
    (hgap : 1 / rl.rate ≤ c.now - prev.now) : ((bank.after (rl.allow prev).2 between).allow c).1 = true := by
  obtain ⟨b, hcell, hlast, -⟩ := allow_bucket hb prev
  have hkept := congrArg (fun x ↦ x.2.2) (bank.cell_after_of_ne between hbetween (rl.allow prev).2)
  have hnow : (bank.after (rl.allow prev).2 between).buckets[c.key]? = some b := by
    rw [← hcell, hkey]
    exact hkept
  have hrate : (bank.after (rl.allow prev).2 between).rate = rl.rate := by rw [after_rate, allow_rate]
  have hburst : (bank.after (rl.allow prev).2 between).burst = rl.burst := by rw [after_burst, allow_burst]
  rw [allow_spec (hburst ▸ hb), hnow, hrate, hburst]
  have hflow : 1 ≤ (c.now - b.last) * rl.rate := by
    rw [hlast]
    exact (div_le_iff₀ hr).mp hgap
  have hleft := (h.allow hr.le hb _ b hcell).nonneg
  exact decide_eq_true (le_min hb (by linarith))

section Interval

variable {k : String} {c : AllowCall} {calls : List AllowCall} {s e : ℚ}

theorem mem_of_mem_served {r : AllowCall × Bool} (h : r ∈ bank.served rl calls) : r.1 ∈ calls := by
  induction calls generalizing rl with
  | nil => cases h
  | cons c calls ih =>
    obtain rfl | h := List.mem_cons.mp h
    · exact List.mem_cons_self
    · exact List.mem_cons_of_mem _ (ih h)

theorem countP_served_eq_zero (h : ∀ c ∈ calls, e < c.now) :
    (bank.served rl calls).countP (fun r ↦ r.2 && decide (r.1.now ≤ e)) = 0 := by
  rw [List.countP_eq_zero]
  intro r hr
  simp [not_le.mpr (h _ (mem_of_mem_served hr))]

theorem countP_served_cons (hce : c.now ≤ e) :
    ((bank.served rl (c :: calls)).countP (fun r ↦ r.2 && decide (r.1.now ≤ e)) : ℚ) =
      (bank.served (rl.allow c).2 calls).countP (fun r ↦ r.2 && decide (r.1.now ≤ e)) +
        if (rl.allow c).1 then 1 else 0 := by
  simp [Bank.served, bank, List.countP_cons, hce]

theorem late_of_sorted (hs : (c :: calls).Pairwise (·.now ≤ ·.now)) (hce : e < c.now) :
    ∀ d ∈ c :: calls, e < d.now := by
  rw [List.forall_mem_cons]
  exact ⟨hce, fun d hd ↦ hce.trans_le (List.rel_of_pairwise_cons hs hd)⟩

/-- From a call on, no more calls are allowed than there are tokens at hand and tokens to flow in. -/
theorem allowed_le (hs : (c :: calls).Pairwise (·.now ≤ ·.now)) (hk : ∀ d ∈ calls, d.key = c.key) (hce : c.now ≤ e)
    (h : rl.Sound c.now) (hr : 0 ≤ rl.rate) (hb : 1 ≤ rl.burst) :
    ((bank.served rl (c :: calls)).countP (fun r ↦ r.2 && decide (r.1.now ≤ e)) : ℚ) ≤
      Bucket.level rl.rate rl.burst rl.buckets[c.key]? c.now + rl.rate * (e - c.now) := by
  induction calls generalizing c rl with
  | nil =>
    obtain ⟨b, hcell, -, htokens⟩ := allow_bucket hb c
    have hnext := h.allow hr hb
    have hleft := (hnext _ b hcell).nonneg
    have hflow := mul_nonneg hr (sub_nonneg.mpr hce)
    rw [countP_served_cons hce, ← htokens]
    simp only [Bank.served, List.countP_nil, Nat.cast_zero]
    linarith
  | cons d calls ih =>
    obtain ⟨b, hcell, hlast, htokens⟩ := allow_bucket hb c
    have hnext := h.allow hr hb
    have hleft := (hnext _ b hcell).nonneg
    have hflow := mul_nonneg hr (sub_nonneg.mpr hce)
    rw [List.pairwise_cons] at hs
    rw [List.forall_mem_cons] at hk
    rw [countP_served_cons hce, ← htokens]
    by_cases hde : d.now ≤ e
    · have hcd := hs.1 d List.mem_cons_self
      have hrate := rl.allow_rate c
      have hburst := rl.allow_burst c
      have hrest := ih hs.2 (fun x hx ↦ (hk.2 x hx).trans hk.1.symm) hde (hnext.mono hcd) (hrate ▸ hr) (hburst ▸ hb)
      have hlevel : Bucket.level rl.rate rl.burst (rl.allow c).2.buckets[d.key]? d.now ≤
          b.tokens + (d.now - c.now) * rl.rate := by
        rw [hk.1, hcell, ← hlast]
        exact min_le_right _ _
      rw [hrate, hburst] at hrest
      linarith
    · rw [countP_served_eq_zero (late_of_sorted hs.2 (not_le.mp hde)), Nat.cast_zero]
      linarith

/-- An interval starts with a bucket that is at most full. -/
theorem allowed_between_le (hs : calls.Pairwise (·.now ≤ ·.now)) (hk : ∀ c ∈ calls, c.key = k)
    (h : ∀ c ∈ calls, rl.Sound c.now) (hr : 0 ≤ rl.rate) (hb : 1 ≤ rl.burst) (hse : s ≤ e) :
    ((bank.served rl calls).countP (fun r ↦ r.2 && (decide (s ≤ r.1.now) && decide (r.1.now ≤ e))) : ℚ) ≤
      rl.burst + rl.rate * (e - s) := by
  have hcap : 0 ≤ rl.burst + rl.rate * (e - s) :=
    add_nonneg (zero_le_one.trans hb) (mul_nonneg hr (sub_nonneg.mpr hse))
  induction calls generalizing rl with
  | nil => simpa [Bank.served] using hcap
  | cons c calls ih =>
    by_cases hsc : s ≤ c.now
    · have hall : ∀ d ∈ c :: calls, s ≤ d.now := by
        rw [List.forall_mem_cons]
        exact ⟨hsc, fun d hd ↦ hsc.trans (List.rel_of_pairwise_cons hs hd)⟩
      have hcongr : (bank.served rl (c :: calls)).countP
            (fun r ↦ r.2 && (decide (s ≤ r.1.now) && decide (r.1.now ≤ e))) =
          (bank.served rl (c :: calls)).countP (fun r ↦ r.2 && decide (r.1.now ≤ e)) := by
        refine List.countP_congr fun r hr ↦ ?_
        simp [hall _ (mem_of_mem_served hr)]
      rw [hcongr]
      by_cases hce : c.now ≤ e
      · rw [List.forall_mem_cons] at hk h
        have hle := allowed_le hs (fun d hd ↦ (hk.2 d hd).trans hk.1.symm) hce h.1 hr hb
        have hfull := Bucket.level_le_burst rl.rate rl.burst rl.buckets[c.key]? c.now
        have hflow := mul_le_mul_of_nonneg_left (sub_le_sub_left hsc e) hr
        linarith
      · rw [countP_served_eq_zero (late_of_sorted hs (not_le.mp hce))]
        exact_mod_cast hcap
    · rw [List.pairwise_cons] at hs
      rw [List.forall_mem_cons] at hk h
      have hnext := h.1.allow hr hb
      have hrate := rl.allow_rate c
      have hburst := rl.allow_burst c
      have hrest := ih hs.2 hk.2 (fun d hd ↦ hnext.mono (hs.1 d hd)) (hrate ▸ hr) (hburst ▸ hb) (by rwa [hrate, hburst])
      rw [hrate, hburst] at hrest
      simpa [Bank.served, bank, List.countP_cons, hsc] using hrest

end Interval

/-- Over any schedule of calls at non-decreasing times: a key is served as if it were alone, every bucket holds between
none and `burst` tokens, an interval of length `T` admits at most `burst + rate * T` calls of a key, and a call that
comes `1 / rate` or more after the one before it is admitted. -/
theorem admission (rate burst : ℚ) (hr : 0 ≤ rate) (hb : 1 ≤ burst) (calls : List AllowCall)
    (hs : calls.Pairwise (·.now ≤ ·.now)) (k : String) :
    let fresh := newRateLimiter rate burst
    (bank.served fresh calls).filter (fun r ↦ r.1.key = k) = bank.served fresh (calls.filter fun c ↦ c.key = k) ∧
    (∀ (key : String) (b : Bucket), (bank.after fresh calls).buckets[key]? = some b → 0 ≤ b.tokens ∧ b.tokens ≤ burst) ∧
    (∀ s T : ℚ, 0 ≤ T → ((bank.served fresh calls).countP
      (fun r ↦ r.1.key = k ∧ r.2 = true ∧ s ≤ r.1.now ∧ r.1.now ≤ s + T) : ℚ) ≤ burst + rate * T) ∧
    (0 < rate → ∀ (before between after : List AllowCall) (prev c : AllowCall),
      calls = before ++ prev :: (between ++ c :: after) → prev.key = k → c.key = k → (∀ d ∈ between, d.key ≠ k) →
      1 / rate ≤ c.now - prev.now → ((bank.after fresh (before ++ prev :: between)).allow c).1 = true) := by
  intro fresh
  have hsound : ∀ t, fresh.Sound t := sound_newRateLimiter rate burst
  have halone : (bank.served fresh calls).filter (fun r ↦ r.1.key = k) =
      bank.served fresh (calls.filter fun c ↦ c.key = k) :=
    bank.served_filter (fun key ↦ key = k) calls fun _ _ ↦ rfl
  refine ⟨halone, ?_, ?_, ?_⟩
  · intro key b hkey
    obtain ⟨t, ht⟩ := (calls.map (·.now)).toFinset.exists_le
    have hle : ∀ c ∈ calls, c.now ≤ t := fun c hc ↦ ht _ (by simpa using ⟨c, hc, rfl⟩)
    obtain ⟨h₀, h₁, -⟩ := Sound.after calls hs (fun c _ ↦ hsound c.now) (hsound t) hle hr hb key b hkey
    rw [after_burst] at h₁
    exact ⟨h₀, h₁⟩
  · intro s T hT
    have hkey : ∀ c ∈ calls.filter (fun c ↦ c.key = k), c.key = k := fun c hc ↦ by simpa using (List.mem_filter.mp hc).2
    have hcount := allowed_between_le (hs.filter _) hkey (fun c _ ↦ hsound c.now) hr hb (le_add_of_nonneg_right hT)
      (s := s) (e := s + T)
    rw [← halone, List.countP_filter, add_sub_cancel_left] at hcount
    refine le_of_eq_of_le ?_ hcount
    congr 2
    funext r
    rw [Bool.eq_iff_iff]
    simp
    tauto
  · rintro hpos before between after prev c rfl hprev hc hbetween hgap
    rw [List.pairwise_append] at hs
    have hbefore : (bank.after fresh before).Sound prev.now :=
      Sound.after before hs.1 (fun d _ ↦ hsound d.now) (hsound prev.now)
        (fun d hd ↦ hs.2.2 d hd prev List.mem_cons_self) hr hb
    rw [Bank.after_append]
    refine allow_of_spaced hbefore ?_ ?_ (hprev.trans hc.symm) (by rwa [hc]) ?_
    · rwa [after_burst]
    · rwa [after_rate]
    · rwa [after_rate]

theorem admission_twoKeys :
    let calls : List AllowCall := [⟨"a", 0⟩, ⟨"b", 0⟩, ⟨"a", 1 / 4⟩, ⟨"a", 1 / 2⟩, ⟨"a", 3 / 2⟩]
    (bank.served (newRateLimiter 1 2) calls).map (·.2) = [true, true, true, false, true] ∧
    ((bank.served (newRateLimiter 1 2) calls).countP
      (fun r ↦ r.1.key = "a" ∧ r.2 = true ∧ 0 ≤ r.1.now ∧ r.1.now ≤ 0 + 2) : ℚ) ≤ 2 + 1 * 2 := by
  refine ⟨by decide +kernel, ?_⟩
  exact (admission 1 2 (by norm_num) (by norm_num) _ (by decide +kernel) "a").2.2.1 0 2 (by norm_num)

end RateLimiter

end EventPlatform.Gateway
