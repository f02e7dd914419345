import EventPlatform.Gateway.RateLimit

namespace EventPlatform.Gateway

/-- Filling a bucket in two steps fills it as one step does, since the brim only cuts off what stays cut off. -/
theorem Bucket.level_level {rate burst now later : ℚ} (hr : 0 ≤ rate) (h : now ≤ later) (b : Option Bucket) :
    min burst (Bucket.level rate burst b now + (later - now) * rate) = Bucket.level rate burst b later := by
  have hflow : 0 ≤ (later - now) * rate := mul_nonneg (sub_nonneg.mpr h) hr
  cases b with
  | none => exact min_eq_left (le_add_of_nonneg_right hflow)
  | some b =>
    have hsum : b.tokens + (now - b.last) * rate + (later - now) * rate = b.tokens + (later - b.last) * rate := by ring
    rw [Bucket.level, ← min_add_add_right, hsum, ← min_assoc, min_eq_left (le_add_of_nonneg_right hflow)]
    rfl

namespace RateLimiter

/-- The tokens that a call for `k` would find. -/
def level (rl : RateLimiter) (k : String) (now : ℚ) : ℚ := Bucket.level rl.rate rl.burst rl.buckets[k]? now

variable {rl rl' : RateLimiter} {c : AllowCall} {k : String} {t now : ℚ}

theorem allow_eq_level (hb : 1 ≤ rl.burst) (c : AllowCall) : (rl.allow c).1 = decide (1 ≤ rl.level c.key c.now) := by
  rw [allow_spec hb]
  rfl

theorem level_allow_of_ne (h : k ≠ c.key) : (rl.allow c).2.level k now = rl.level k now :=
  congrArg (fun x : ℚ × ℚ × Option Bucket ↦ Bucket.level x.1 x.2.1 x.2.2 now) (bank.cell_step_of_ne rl c k h)

theorem level_allow_self (hb : 1 ≤ rl.burst) : (rl.allow c).2.level c.key now = min rl.burst
    (rl.level c.key c.now - (if 1 ≤ rl.level c.key c.now then 1 else 0) + (now - c.now) * rl.rate) := by
  rw [allow_spec hb, level, Std.ExtTreeMap.getElem?_insert_self]
  rfl

/-- A denied call takes nothing, so that all later calls find what they would have found without it. -/
theorem level_allow_of_denied (hr : 0 ≤ rl.rate) (hb : 1 ≤ rl.burst) (hdenied : (rl.allow c).1 = false)
    (hnow : c.now ≤ now) : (rl.allow c).2.level k now = rl.level k now := by
  by_cases hk : k = c.key
  · subst hk
    rw [allow_eq_level hb, decide_eq_false_iff_not] at hdenied
    rw [level_allow_self hb, if_neg hdenied, sub_zero]
    exact Bucket.level_level hr hnow _
  · exact level_allow_of_ne hk

/-- From `t` on, calls find the same tokens in both. -/
structure Alike (t : ℚ) (rl rl' : RateLimiter) : Prop where
  rate : rl.rate = rl'.rate
  burst : rl.burst = rl'.burst
  level : ∀ (k : String) (now : ℚ), t ≤ now → rl.level k now = rl'.level k now

theorem Alike.allow_fst (h : Alike t rl rl') (hb : 1 ≤ rl.burst) (ht : t ≤ c.now) :
    (rl.allow c).1 = (rl'.allow c).1 := by
  rw [allow_eq_level hb, allow_eq_level (h.burst ▸ hb), h.level _ _ ht]

theorem Alike.allow (h : Alike t rl rl') (hb : 1 ≤ rl.burst) (ht : t ≤ c.now) :
    Alike c.now (rl.allow c).2 (rl'.allow c).2 := by
  have hb' : 1 ≤ rl'.burst := h.burst ▸ hb
  refine ⟨by simpa using h.rate, by simpa using h.burst, ?_⟩
  intro k now hnow
  by_cases hk : k = c.key
  · subst hk
    rw [level_allow_self hb, level_allow_self hb', h.level _ _ ht, h.rate, h.burst]
  · rw [level_allow_of_ne hk, level_allow_of_ne hk, h.level _ _ (ht.trans hnow)]

theorem Alike.skip (h : Alike t rl rl') (hr : 0 ≤ rl.rate) (hb : 1 ≤ rl.burst) (ht : t ≤ c.now)
    (hdenied : (rl.allow c).1 = false) : Alike c.now (rl.allow c).2 rl' := by
  refine ⟨by simpa using h.rate, by simpa using h.burst, ?_⟩
  intro k now hnow
  rw [level_allow_of_denied hr hb hdenied hnow, h.level _ _ (ht.trans hnow)]

theorem served_cons (rl : RateLimiter) (c : AllowCall) (calls : List AllowCall) :
    bank.served rl (c :: calls) = (c, (rl.allow c).1) :: bank.served (rl.allow c).2 calls := rfl

/-- The induction goes along the whole schedule, with a second limiter that sees only the calls that are kept. -/
theorem Alike.served {kept : List (AllowCall × Bool)} {calls : List AllowCall} (h : Alike t rl rl') (hr : 0 ≤ rl.rate)
    (hb : 1 ≤ rl.burst) (hs : calls.Pairwise (·.now ≤ ·.now)) (ht : ∀ c ∈ calls, t ≤ c.now)
    (hsub : kept.Sublist (bank.served rl calls)) (hall : kept.filter (·.2) = (bank.served rl calls).filter (·.2)) :
    bank.served rl' (kept.map (·.1)) = kept := by
  induction calls generalizing rl rl' t kept with
  | nil =>
    rw [List.sublist_nil.mp hsub]
    rfl
  | cons c calls ih =>
    rw [List.pairwise_cons] at hs
    rw [List.forall_mem_cons] at ht
    have hr' : 0 ≤ (rl.allow c).2.rate := by rwa [allow_rate]
    have hb' : 1 ≤ (rl.allow c).2.burst := by rwa [allow_burst]
    rw [served_cons] at hsub hall
    cases hanswer : (rl.allow c).1 with
    | false =>
      rw [hanswer] at hsub hall
      cases hsub with
      | cons _ hsub =>
        rw [List.filter_cons_of_neg Bool.false_ne_true] at hall
        exact ih (h.skip hr hb ht.1 hanswer) hr' hb' hs.2 hs.1 hsub hall
      | cons_cons _ hsub =>
        rw [List.filter_cons_of_neg Bool.false_ne_true, List.filter_cons_of_neg Bool.false_ne_true] at hall
        rw [List.map_cons, served_cons, ← h.allow_fst hb ht.1, hanswer,
          ih (h.allow hb ht.1) hr' hb' hs.2 hs.1 hsub hall]
    | true =>
      rw [hanswer] at hsub hall
      rw [List.filter_cons_of_pos rfl] at hall
      cases hsub with
      | cons _ hsub =>
        have hlength := (hsub.filter (·.2)).length_le
        rw [hall, List.length_cons] at hlength
        omega
      | cons_cons _ hsub =>
        rw [List.filter_cons_of_pos rfl, List.cons.injEq] at hall
        rw [List.map_cons, served_cons, ← h.allow_fst hb ht.1, hanswer,
          ih (h.allow hb ht.1) hr' hb' hs.2 hs.1 hsub hall.2]

/-- Calls that were denied can be taken out of a schedule: the calls that are kept are answered as they were. -/
theorem served_without_denied (rate burst : ℚ) (hr : 0 ≤ rate) (hb : 1 ≤ burst) (calls : List AllowCall)
    (hs : calls.Pairwise (·.now ≤ ·.now)) (kept : List (AllowCall × Bool))
    (hsub : kept.Sublist (bank.served (newRateLimiter rate burst) calls))
    (hall : kept.filter (·.2) = (bank.served (newRateLimiter rate burst) calls).filter (·.2)) :
    bank.served (newRateLimiter rate burst) (kept.map (·.1)) = kept := by
  cases calls with
  | nil =>
    rw [List.sublist_nil.mp hsub]
    rfl
  | cons c calls =>
    have hfirst : ∀ d ∈ c :: calls, c.now ≤ d.now :=
      List.forall_mem_cons.mpr ⟨le_rfl, (List.pairwise_cons.mp hs).1⟩
    exact Alike.served (t := c.now) ⟨rfl, rfl, fun _ _ _ ↦ rfl⟩ hr hb hs hfirst hsub hall

theorem served_without_denied_hammering :
    let calls : List AllowCall := [⟨"a", 0⟩, ⟨"a", 1 / 4⟩, ⟨"a", 1 / 2⟩, ⟨"a", 1⟩]
    (bank.served (newRateLimiter 1 1) calls).map (·.2) = [true, false, false, true] ∧
    bank.served (newRateLimiter 1 1) [⟨"a", 0⟩, ⟨"a", 1⟩] = [(⟨"a", 0⟩, true), (⟨"a", 1⟩, true)] := by
  refine ⟨by decide +kernel, ?_⟩
  exact served_without_denied 1 1 (by norm_num) (by norm_num) [⟨"a", 0⟩, ⟨"a", 1 / 4⟩, ⟨"a", 1 / 2⟩, ⟨"a", 1⟩]
    (by decide +kernel) [(⟨"a", 0⟩, true), (⟨"a", 1⟩, true)] (by decide +kernel) (by decide +kernel)

end RateLimiter

end EventPlatform.Gateway
