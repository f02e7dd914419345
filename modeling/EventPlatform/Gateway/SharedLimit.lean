import EventPlatform.Gateway.RedisRateLimit

namespace EventPlatform.Gateway

open Interaction Prog Pool RedisRateLimiter

abbrev RedisAct (T : Type) := Act T RedisWorld String RedisCall.Reply

section Stages

variable {T : Type} {r : RedisRateLimiter} {t : T} {k : String}

/-- How far a call has come, by the calls that it has made. -/
inductive Stage (r : RedisRateLimiter) (k : String) (t : T) :
    List (RedisAct T) → Prog String RedisCall.Reply Bool → Prop
  | idle : Stage r k t [] (r.allow k)
  | read (w : RedisWorld) :
      Stage r k t [⟨t, w, .now, .ok w.now, w⟩]
        (.call (.incr (redisKey k (r.windowIdx w.now))) (r.settle (redisKey k (r.windowIdx w.now))))
  | counted (w w₁ w₂ : RedisWorld) (n : Except String ℕ) :
      Stage r k t [⟨t, w, .now, .ok w.now, w⟩, ⟨t, w₁, .incr (redisKey k (r.windowIdx w.now)), n, w₂⟩]
        (r.settle (redisKey k (r.windowIdx w.now)) n)
  | expired (w w₁ w₂ w₃ w₄ : RedisWorld) (n : ℕ) (x : Except String Unit) :
      Stage r k t [⟨t, w, .now, .ok w.now, w⟩, ⟨t, w₁, .incr (redisKey k (r.windowIdx w.now)), .ok n, w₂⟩,
          ⟨t, w₃, .expire (redisKey k (r.windowIdx w.now)) r.window, x, w₄⟩]
        (.ret (decide ((n : ℤ) ≤ r.limit)))

theorem Stage.step (hr : r.window / second ≠ 0) {l : List (RedisAct T)} {c : RedisCall}
    {p : Prog String RedisCall.Reply Bool} {f : Except String c.Reply → Prog String RedisCall.Reply Bool}
    {x : Except String c.Reply} {w w' : RedisWorld} (h : Stage r k t l p) (hp : p = .call c f)
    (hs : RedisWorld.Answers w c x w') : Stage r k t (l ++ [⟨t, w, c, x, w'⟩]) (f x) := by
  cases h with
  | idle =>
    rw [allow_eq hr] at hp
    cases hp
    cases hs
    exact .read w
  | read w₀ =>
    cases hp
    exact .counted w₀ w w' x
  | counted w₀ w₁ w₂ n =>
    cases n with
    | error e => cases hp
    | ok n =>
      rw [settle_ok] at hp
      split at hp
      · cases hp
        exact .expired w₀ w₁ w₂ w w' n x
      · cases hp
  | expired w₀ w₁ w₂ w₃ w₄ n y => cases hp

/-- A call reads the clock once, and all its commands name the key computed from it. -/
theorem Stage.made {l : List (RedisAct T)} {p : Prog String RedisCall.Reply Bool} (h : Stage r k t l p)
    {a : RedisAct T} (ha : a ∈ l) :
    ∃ w₁, ⟨t, w₁, .now, .ok w₁.now, w₁⟩ ∈ l ∧ (∀ v n v', (⟨t, v, .now, .ok n, v'⟩ : RedisAct T) ∈ l → n = w₁.now) ∧
      (a.op = .now ∨ a.op = .incr (redisKey k (r.windowIdx w₁.now)) ∨
        a.op = .expire (redisKey k (r.windowIdx w₁.now)) r.window) := by
  cases h with
  | idle => cases ha
  | read w₁ =>
    refine ⟨w₁, by simp, by simp +contextual, ?_⟩
    obtain rfl := List.mem_singleton.mp ha
    exact .inl rfl
  | counted w₁ w₂ w₃ x =>
    refine ⟨w₁, by simp, by simp +contextual, ?_⟩
    simp only [List.mem_cons, List.not_mem_nil, or_false] at ha
    obtain rfl | rfl := ha
    · exact .inl rfl
    · exact .inr (.inl rfl)
  | expired w₁ w₂ w₃ w₄ w₅ n x =>
    refine ⟨w₁, by simp, by simp +contextual, ?_⟩
    simp only [List.mem_cons, List.not_mem_nil, or_false] at ha
    obtain rfl | rfl | rfl := ha
    · exact .inl rfl
    · exact .inr (.inl rfl)
    · exact .inr (.inr rfl)

end Stages

/-- Redis has counted `n` calls under a key, and will not forget them before `deadline`. -/
def Tallied (deadline n : ℕ) : Option RedisEntry → Prop
  | none => n = 0
  | some e => e.count = n ∧ ∀ x ∈ e.expireAt, deadline ≤ x

section Tallied

variable {w : RedisWorld} {k : String} {deadline n d : ℕ}

theorem Tallied.live (h : Tallied deadline n w.redis[k]?) (hw : w.now < deadline) : w.live k = w.redis[k]? := by
  unfold RedisWorld.live
  cases he : w.redis[k]? with
  | none => rfl
  | some e =>
    rw [he] at h
    refine Option.filter_eq_some_iff.mpr ⟨rfl, ?_⟩
    rw [Option.all_eq_true]
    exact fun x hx ↦ decide_eq_true (hw.trans_le (h.2 x hx))

theorem Tallied.incr (h : Tallied deadline n w.redis[k]?) (hw : w.now < deadline) :
    (w.incr k).1 = n + 1 ∧ Tallied deadline (n + 1) (w.incr k).2.redis[k]? := by
  simp only [RedisWorld.incr, h.live hw, Std.ExtTreeMap.getElem?_insert_self]
  cases he : w.redis[k]? with
  | none =>
    rw [he] at h
    cases h
    exact ⟨rfl, rfl, by simp⟩
  | some e =>
    rw [he] at h
    exact ⟨congrArg (· + 1) h.1, congrArg (· + 1) h.1, h.2⟩

theorem Tallied.expire (h : Tallied deadline n w.redis[k]?) (hd : deadline ≤ w.now + d) :
    Tallied deadline n (w.expire k d).redis[k]? := by
  unfold RedisWorld.expire
  split
  · exact h
  · rename_i e he
    rw [(Option.filter_eq_some_iff.mp he).1] at h
    rw [Std.ExtTreeMap.getElem?_insert_self]
    exact ⟨h.1, fun x hx ↦ (Option.mem_some_iff.mp hx) ▸ hd⟩

end Tallied

section Counts

variable {T : Type} {tr : List (RedisAct T)} {rk rk' : String} {t : T} {w w' : RedisWorld}

def countOf (rk : String) : RedisAct T → Option (T × Except String ℕ)
  | ⟨t, _, .incr k, x, _⟩ => if k = rk then some (t, x) else none
  | ⟨_, _, .now, _, _⟩ | ⟨_, _, .expire _ _, _, _⟩ => none

/-- The callers that have made their `INCR` of `rk`, in its order, with the replies. -/
def counts (rk : String) (tr : List (RedisAct T)) : List (T × Except String ℕ) := tr.filterMap (countOf rk)

theorem counts_append_eq (x : Except String ℕ) :
    counts rk (tr ++ [⟨t, w, .incr rk, x, w'⟩]) = counts rk tr ++ [(t, x)] := by
  simp [counts, countOf]

theorem counts_append_of_ne (h : rk' ≠ rk) (x : Except String ℕ) :
    counts rk (tr ++ [⟨t, w, .incr rk', x, w'⟩]) = counts rk tr := by
  simp [counts, countOf, h]

theorem counts_append_now (x : Except String ℕ) : counts rk (tr ++ [⟨t, w, .now, x, w'⟩]) = counts rk tr := by
  simp [counts, countOf]

theorem counts_append_expire (d : ℕ) (x : Except String Unit) :
    counts rk (tr ++ [⟨t, w, .expire rk' d, x, w'⟩]) = counts rk tr := by
  simp [counts, countOf]

theorem mem_counts {x : Except String ℕ} :
    (t, x) ∈ counts rk tr ↔ ∃ w w', (⟨t, w, .incr rk, x, w'⟩ : RedisAct T) ∈ tr := by
  rw [counts, List.mem_filterMap]
  constructor
  · rintro ⟨⟨s, w, c, y, w'⟩, ha, hc⟩
    cases c with
    | now | expire => cases hc
    | incr k =>
      simp only [countOf, Option.ite_none_right_eq_some, Option.some.injEq, Prod.mk.injEq] at hc
      obtain ⟨rfl, rfl, rfl⟩ := hc
      exact ⟨w, w', ha⟩
  · rintro ⟨w, w', ha⟩
    exact ⟨_, ha, by simp [countOf]⟩

/-- The replies are one, two, three and so on. -/
def Numbered (l : List (T × Except String ℕ)) : Prop :=
  ∀ (n : ℕ) (t : T) (x : Except String ℕ), l[n]? = some (t, x) → x = .ok (n + 1)

theorem Numbered.concat {l : List (T × Except String ℕ)} (h : Numbered l) (t : T) :
    Numbered (l ++ [(t, .ok (l.length + 1))]) := by
  intro n s x hn
  obtain hlt | rfl | hgt := lt_trichotomy n l.length
  · rw [List.getElem?_append_left hlt] at hn
    exact h n s x hn
  · rw [List.getElem?_concat_length] at hn
    cases hn
    rfl
  · rw [List.getElem?_eq_none (by simpa using hgt)] at hn
    cases hn

/-- Redis reports no error on an `INCR`, and each `INCR` arrives before the end of the
window whose index its call has computed. -/
structure Prompt (r : RedisRateLimiter) (tr : List (RedisAct T)) : Prop where
  answered : ∀ t w rk e w', (⟨t, w, .incr rk, .error e, w'⟩ : RedisAct T) ∉ tr
  inWindow : ∀ t w n w' w₁ rk x w₂, (⟨t, w, .now, .ok n, w'⟩ : RedisAct T) ∈ tr →
    (⟨t, w₁, .incr rk, x, w₂⟩ : RedisAct T) ∈ tr → w₁.now < (r.windowIdx n + 1) * r.window

theorem Prompt.of_append {r : RedisRateLimiter} {l : List (RedisAct T)} (h : Prompt r (tr ++ l)) : Prompt r tr where
  answered t w rk e w' ha := h.answered t w rk e w' (List.mem_append_left _ ha)
  inWindow t w n w' w₁ rk x w₂ ha hb :=
    h.inWindow t w n w' w₁ rk x w₂ (List.mem_append_left _ ha) (List.mem_append_left _ hb)

end Counts

section AllowRuns

variable {T : Type} [DecidableEq T] {r : RedisRateLimiter} {key : T → String} {w₀ w : RedisWorld}
  {tr : List (RedisAct T)} {rest : T → Prog String RedisCall.Reply Bool} {t : T}

/-- The runs of any number of calls of `Allow`, one for each member of `T`, on any number of replicas. -/
abbrev AllowRuns (r : RedisRateLimiter) (key : T → String) (w₀ : RedisWorld) :=
  Runs RedisWorld.Answers RedisWorld.Passes (fun t ↦ r.allow (key t)) w₀

theorem stage (hr : r.window / second ≠ 0) (h : AllowRuns r key w₀ tr rest w) (t : T) :
    Stage r (key t) t (own t tr) (rest t) := by
  refine h.own_invariant (I := fun t l p ↦ Stage r (key t) t l p) (fun t ↦ .idle) ?_ t
  intro t l c k x w w' hl hs
  exact hl.step hr rfl hs

theorem now_le (h : AllowRuns r key w₀ tr rest w) {a : RedisAct T} (ha : a ∈ tr) : a.before.now ≤ w.now := by
  induction h with
  | init => cases ha
  | @call tr rest w w' t c k x _ _ hs ih =>
    have hw : w.now = w'.now := by
      cases hs <;> simp
    rw [← hw]
    rw [List.mem_append, List.mem_singleton] at ha
    obtain ha | rfl := ha
    · exact ih ha
    · exact le_rfl
  | env _ he ih => exact (ih ha).trans he.1

theorem next (hr : r.window / second ≠ 0) (h : AllowRuns r key w₀ tr rest w) {c : RedisCall}
    {f : Except String c.Reply → Prog String RedisCall.Reply Bool} (hc : rest t = .call c f) :
    c = .now ∨ ∃ w₁, (⟨t, w₁, .now, .ok w₁.now, w₁⟩ : RedisAct T) ∈ tr ∧
      (c = .incr (redisKey (key t) (r.windowIdx w₁.now)) ∧ (∀ rk, t ∉ (counts rk tr).map Prod.fst) ∨
        c = .expire (redisKey (key t) (r.windowIdx w₁.now)) r.window) := by
  have hst := stage hr h t
  generalize hl : own t tr = l at hst
  generalize rest t = p at hst hc
  have hmem : ∀ a ∈ l, a ∈ tr := fun a ha ↦ ((mem_of_own hl a).mp ha).1
  cases hst with
  | idle =>
    rw [allow_eq hr] at hc
    cases hc
    exact .inl rfl
  | read w₁ =>
    cases hc
    refine .inr ⟨w₁, hmem _ List.mem_cons_self, .inl ⟨rfl, fun rk ht ↦ ?_⟩⟩
    obtain ⟨⟨s, x⟩, hx, rfl⟩ := List.mem_map.mp ht
    obtain ⟨w, w', ha⟩ := mem_counts.mp hx
    have hown := mem_own.mpr ⟨ha, rfl⟩
    rw [hl] at hown
    simp at hown
  | counted w₁ w₂ w₃ n =>
    cases n with
    | error e => cases hc
    | ok n =>
      rw [settle_ok] at hc
      split at hc
      · cases hc
        exact .inr ⟨w₁, hmem _ List.mem_cons_self, .inr rfl⟩
      · cases hc
  | expired => cases hc

/-- What Redis and the callers know of the calls for one key in one window. -/
structure Tally (r : RedisRateLimiter) (k : String) (i : ℕ) (tr : List (RedisAct T)) (w : RedisWorld) : Prop where
  entry : Tallied ((i + 1) * r.window) (counts (redisKey k i) tr).length w.redis[redisKey k i]?
  nodup : ((counts (redisKey k i) tr).map Prod.fst).Nodup
  numbered : Numbered (counts (redisKey k i) tr)

omit [DecidableEq T] in
theorem window_ne {s : ℕ} (hs : 0 < s) (hw : r.window = s * second) : r.window / second ≠ 0 := by
  rw [hw, Nat.mul_div_cancel _ (by decide)]
  exact hs.ne'

theorem windowIdx_eq {s : ℕ} (hw : r.window = s * second) (n : ℕ) : r.windowIdx n = n / r.window := by
  have hs : 0 < second := by decide
  rw [RedisRateLimiter.windowIdx, hw, Nat.mul_div_cancel _ hs, Nat.div_div_eq_div_mul, mul_comm]

theorem tally {s : ℕ} (hs : 0 < s) (hw : r.window = s * second) (h₀ : w₀.redis = ∅)
    (h : AllowRuns r key w₀ tr rest w) (hp : Prompt r tr) (k : String) (i : ℕ) : Tally r k i tr w := by
  have hr := window_ne hs hw
  induction h with
  | init => exact ⟨by simp [h₀, counts, Tallied], List.nodup_nil, by simp [counts, Numbered]⟩
  | env _ he ih => exact ⟨he.2 ▸ (ih hp).entry, (ih hp).nodup, (ih hp).numbered⟩
  | @call tr rest w w' t c f x hrun hc hstep ih =>
    have ih := ih hp.of_append
    obtain rfl | ⟨w₁, hread, ⟨rfl, hnew⟩ | rfl⟩ := next hr hrun hc
    · cases hstep
      exact ⟨by simpa only [counts_append_now] using ih.entry, by simpa only [counts_append_now] using ih.nodup,
        by simpa only [counts_append_now] using ih.numbered⟩
    · -- the only step that adds a count, and it comes before the counter can expire
      have hlast := List.mem_append_right tr (List.mem_singleton_self (⟨t, w, _, x, w'⟩ : RedisAct T))
      have hin := hp.inWindow _ _ _ _ _ _ _ _ (List.mem_append_left _ hread) hlast
      cases hstep with
      | incrLost e => exact absurd hlast (hp.answered _ _ _ _ _)
      | incrFailed e => exact absurd hlast (hp.answered _ _ _ _ _)
      | incr =>
        by_cases hk : redisKey (key t) (r.windowIdx w₁.now) = redisKey k i
        · obtain ⟨rfl, rfl⟩ := redisKey_injective hk
          obtain ⟨hcount, hentry⟩ := ih.entry.incr hin
          refine ⟨?_, ?_, ?_⟩
          · simpa [counts_append_eq] using hentry
          · rw [counts_append_eq, List.map_append, List.map_singleton, ← List.concat_eq_append]
            exact ih.nodup.concat (hnew _)
          · rw [counts_append_eq, hcount]
            exact ih.numbered.concat t
        · have hframe := RedisWorld.incr_of_ne (w := w) (Ne.symm hk)
          exact ⟨by simpa only [counts_append_of_ne hk, hframe] using ih.entry,
            by simpa only [counts_append_of_ne hk] using ih.nodup,
            by simpa only [counts_append_of_ne hk] using ih.numbered⟩
    · refine ⟨?_, by simpa only [counts_append_expire] using ih.nodup,
        by simpa only [counts_append_expire] using ih.numbered⟩
      rw [counts_append_expire]
      have hexp : Tallied ((i + 1) * r.window) (counts (redisKey k i) tr).length
          (w.expire (redisKey (key t) (r.windowIdx w₁.now)) r.window).redis[redisKey k i]? := by
        by_cases hk : redisKey (key t) (r.windowIdx w₁.now) = redisKey k i
        · obtain ⟨rfl, rfl⟩ := redisKey_injective hk
          have hlow : r.windowIdx w₁.now * r.window ≤ w₁.now := by
            rw [windowIdx_eq hw]
            exact Nat.div_mul_le_self _ _
          have hpast := hlow.trans (now_le hrun hread)
          refine ih.entry.expire ?_
          rw [Nat.add_mul, Nat.one_mul]
          exact Nat.add_le_add_right hpast _
        · rw [RedisWorld.expire_of_ne (Ne.symm hk)]
          exact ih.entry
      cases hstep with
      | expire => exact hexp
      | expireLost => exact hexp
      | expireFailed => exact ih.entry

theorem made (hr : r.window / second ≠ 0) (h : AllowRuns r key w₀ tr rest w) {a : RedisAct T} (ha : a ∈ tr) :
    ∃ w₁, (⟨a.who, w₁, .now, .ok w₁.now, w₁⟩ : RedisAct T) ∈ tr ∧
      (∀ v n v', (⟨a.who, v, .now, .ok n, v'⟩ : RedisAct T) ∈ tr → n = w₁.now) ∧
      (a.op = .now ∨ a.op = .incr (redisKey (key a.who) (r.windowIdx w₁.now)) ∨
        a.op = .expire (redisKey (key a.who) (r.windowIdx w₁.now)) r.window) := by
  obtain ⟨w₁, hread, hunique, hop⟩ := (stage hr h a.who).made (mem_own.mpr ⟨ha, rfl⟩)
  exact ⟨w₁, (mem_own.mp hread).1, fun v n v' hn ↦ hunique v n v' (mem_own.mpr ⟨hn, rfl⟩), hop⟩

/-- The call has read the clock and computed the window index `i`. -/
def Computes (r : RedisRateLimiter) (tr : List (RedisAct T)) (t : T) (i : ℕ) : Prop :=
  ∃ w n w', (⟨t, w, .now, .ok n, w'⟩ : RedisAct T) ∈ tr ∧ r.windowIdx n = i

/-- The instant lies between the call's reading of the clock and its `INCR`. -/
def Spans (tr : List (RedisAct T)) (t : T) (x : ℕ) : Prop :=
  ∃ w n w' w₁ rk y w₂, (⟨t, w, .now, .ok n, w'⟩ : RedisAct T) ∈ tr ∧ (⟨t, w₁, .incr rk, y, w₂⟩ : RedisAct T) ∈ tr ∧
    n ≤ x ∧ x ≤ w₁.now

theorem decided_iff (hr : r.window / second ≠ 0) (h : AllowRuns r key w₀ tr rest w) (hp : Prompt r tr)
    {k : String} {i : ℕ} {b : Bool} :
    (key t = k ∧ Computes r tr t i ∧ Decided (rest t) b) ↔
      ∃ n : ℕ, (t, .ok n) ∈ counts (redisKey k i) tr ∧ b = decide ((n : ℤ) ≤ r.limit) := by
  have hst := stage hr h t
  generalize hl : own t tr = l at hst
  generalize rest t = p at hst
  have hmem := mem_of_own hl
  constructor
  · rintro ⟨rfl, ⟨v, n, v', hread, rfl⟩, hd⟩
    have hread' := (hmem _).mpr ⟨hread, rfl⟩
    cases hst with
    | idle => cases hread'
    | read w₁ =>
      obtain hd | ⟨_, _, hd⟩ := hd
      · cases hd
      · cases hd
    | counted w₁ w₂ w₃ y =>
      have hinc := ((hmem _).mp (List.mem_cons_of_mem _ List.mem_cons_self)).1
      cases y with
      | error e => exact absurd hinc (hp.answered _ _ _ _ _)
      | ok m =>
        obtain ⟨-, rfl, -⟩ : v = w₁ ∧ n = w₁.now ∧ v' = w₁ := by simpa using hread'
        exact ⟨m, mem_counts.mpr ⟨_, _, hinc⟩, hd.unique (decided_settle r _ m)⟩
    | expired w₁ w₂ w₃ w₄ w₅ m y =>
      have hinc := ((hmem _).mp (List.mem_cons_of_mem _ List.mem_cons_self)).1
      obtain ⟨-, rfl, -⟩ : v = w₁ ∧ n = w₁.now ∧ v' = w₁ := by simpa using hread'
      exact ⟨m, mem_counts.mpr ⟨_, _, hinc⟩, hd.unique (.inl rfl)⟩
  · rintro ⟨n, hn, rfl⟩
    obtain ⟨v, v', hinc⟩ := mem_counts.mp hn
    have hinc' := (hmem _).mpr ⟨hinc, rfl⟩
    cases hst with
    | idle => cases hinc'
    | read w₁ => simp at hinc'
    | counted w₁ w₂ w₃ y =>
      obtain ⟨-, hk, rfl, -⟩ : v = w₂ ∧ redisKey k i = redisKey (key t) (r.windowIdx w₁.now) ∧ .ok n = y ∧ v' = w₃ := by
        simpa using hinc'
      obtain ⟨rfl, rfl⟩ := redisKey_injective hk
      exact ⟨rfl, ⟨_, _, _, ((hmem _).mp List.mem_cons_self).1, rfl⟩, decided_settle r _ n⟩
    | expired w₁ w₂ w₃ w₄ w₅ m y =>
      obtain ⟨-, hk, rfl, -⟩ : v = w₂ ∧ redisKey k i = redisKey (key t) (r.windowIdx w₁.now) ∧ n = m ∧ v' = w₃ := by
        simpa using hinc'
      obtain ⟨rfl, rfl⟩ := redisKey_injective hk
      exact ⟨rfl, ⟨_, _, _, ((hmem _).mp List.mem_cons_self).1, rfl⟩, .inl rfl⟩

theorem encard_list {l : List T} (h : l.Nodup) : {t | t ∈ l}.encard = l.length := by
  rw [← List.coe_toFinset, Set.encard_coe_eq_coe_finsetCard, List.toFinset_card_of_nodup h]

section Sharing

variable {s : ℕ} {k : String} {i : ℕ}

theorem Tally.callers (ht : Tally r k i tr w) (hr : r.window / second ≠ 0) (h : AllowRuns r key w₀ tr rest w)
    (hp : Prompt r tr) : {t | key t = k ∧ Computes r tr t i ∧ ∃ b, Decided (rest t) b} =
      {t | t ∈ (counts (redisKey k i) tr).map Prod.fst} := by
  ext t
  rw [Set.mem_ofPred_eq, Set.mem_ofPred_eq, List.mem_map]
  constructor
  · rintro ⟨hk, hc, b, hb⟩
    obtain ⟨n, hn, -⟩ := (decided_iff hr h hp).mp ⟨hk, hc, hb⟩
    exact ⟨_, hn, rfl⟩
  · rintro ⟨⟨t, x⟩, hx, rfl⟩
    obtain ⟨n, hn⟩ := List.mem_iff_getElem?.mp hx
    obtain rfl := ht.numbered n t x hn
    obtain ⟨hk, hc, hd⟩ := (decided_iff hr h hp).mpr ⟨n + 1, hx, rfl⟩
    exact ⟨hk, hc, _, hd⟩

/-- The calls that are allowed are the first ones to be counted. -/
theorem Tally.allowed (ht : Tally r k i tr w) (hr : r.window / second ≠ 0) (hl : 0 ≤ r.limit)
    (h : AllowRuns r key w₀ tr rest w) (hp : Prompt r tr) :
    {t | key t = k ∧ Computes r tr t i ∧ Decided (rest t) true} =
      {t | t ∈ ((counts (redisKey k i) tr).map Prod.fst).take r.limit.toNat} := by
  ext t
  rw [Set.mem_ofPred_eq, Set.mem_ofPred_eq, decided_iff hr h hp, ← List.map_take, List.mem_map]
  constructor
  · rintro ⟨n, hn, hle⟩
    obtain ⟨j, hj⟩ := List.mem_iff_getElem?.mp hn
    cases ht.numbered j t _ hj
    have hlimit := of_decide_eq_true hle.symm
    have hlt : j < r.limit.toNat := by omega
    exact ⟨_, List.mem_iff_getElem?.mpr ⟨j, (List.getElem?_take_of_lt hlt).trans hj⟩, rfl⟩
  · rintro ⟨⟨t, x⟩, hx, rfl⟩
    obtain ⟨j, hj⟩ := List.mem_iff_getElem?.mp hx
    rw [List.getElem?_take, Option.ite_none_right_eq_some] at hj
    cases ht.numbered j t x hj.2
    refine ⟨j + 1, List.mem_iff_getElem?.mpr ⟨j, hj.2⟩, (decide_eq_true ?_).symm⟩
    have hlt := hj.1
    omega

theorem encard_allowed (hs : 0 < s) (hw : r.window = s * second) (hl : 0 ≤ r.limit) (h₀ : w₀.redis = ∅)
    (h : AllowRuns r key w₀ tr rest w) (hp : Prompt r tr) (k : String) (i : ℕ) :
    {t | key t = k ∧ Computes r tr t i ∧ Decided (rest t) true}.encard =
      min {t | key t = k ∧ Computes r tr t i ∧ ∃ b, Decided (rest t) b}.encard r.limit.toNat := by
  have ht := tally hs hw h₀ h hp k i
  have hr := window_ne hs hw
  rw [ht.allowed hr hl h hp, ht.callers hr h hp, encard_list ht.nodup,
    encard_list (ht.nodup.sublist (List.take_sublist _ _)), List.length_take, min_comm]
  exact Nat.mono_cast.map_min

/-- Two windows meet an interval that is no longer than one. -/
theorem encard_interval (hs : 0 < s) (hw : r.window = s * second) (hl : 0 ≤ r.limit) (h₀ : w₀.redis = ∅)
    (h : AllowRuns r key w₀ tr rest w) (hp : Prompt r tr) (k : String) {a b : ℕ} (hab : b ≤ a + r.window) :
    {t | key t = k ∧ Decided (rest t) true ∧ ∃ x, a ≤ x ∧ x ≤ b ∧ Spans tr t x}.encard ≤
      2 * r.limit.toNat := by
  let A := fun i ↦ {t | key t = k ∧ Computes r tr t i ∧ Decided (rest t) true}
  have hA : ∀ i, (A i).encard ≤ r.limit.toNat := fun i ↦
    (encard_allowed hs hw hl h₀ h hp k i).trans_le (min_le_right _ _)
  have hpos : 0 < r.window := by
    rw [hw]
    exact Nat.mul_pos hs (by decide)
  refine le_trans (Set.encard_le_encard (t := A (a / r.window) ∪ A (a / r.window + 1)) ?_) ?_
  · rintro t ⟨hk, hd, x, hax, hxb, v, n, v', v₁, rk, y, v₂, hread, hinc, hnx, hxv⟩
    have hin := hp.inWindow _ _ _ _ _ _ _ _ hread hinc
    rw [windowIdx_eq hw] at hin
    have hx : x / r.window = n / r.window :=
      le_antisymm (Nat.lt_succ_iff.mp ((Nat.div_lt_iff_lt_mul hpos).mpr (hxv.trans_lt hin))) (Nat.div_le_div_right hnx)
    have hlow : a / r.window ≤ n / r.window := hx ▸ Nat.div_le_div_right hax
    have hhigh : n / r.window ≤ a / r.window + 1 := by
      rw [← hx, ← Nat.add_div_right a hpos]
      exact Nat.div_le_div_right (hxb.trans hab)
    have hcomp : Computes r tr t (n / r.window) := ⟨v, n, v', hread, windowIdx_eq hw n⟩
    obtain heq | heq := Nat.le_and_le_add_one_iff.mp ⟨hlow, hhigh⟩
    · exact .inl ⟨hk, heq ▸ hcomp, hd⟩
    · exact .inr ⟨hk, heq ▸ hcomp, hd⟩
  · rw [two_mul]
    exact (Set.encard_union_le _ _).trans (add_le_add (hA _) (hA _))

/-- The calls for one key in one window run as they would alone. -/
theorem exists_alone (hr : r.window / second ≠ 0) (h : AllowRuns r key w₀ tr rest w) (k : String) (i : ℕ)
    [DecidablePred fun t ↦ key t = k ∧ Computes r tr t i] :
    ∃ tr' w', AllowRuns r key w₀ tr' (fun t ↦ if key t = k ∧ Computes r tr t i then rest t else r.allow (key t)) w' ∧
      RedisWorld.Agree (redisKey k i) w w' ∧
      List.Forall₂ (Alike (RedisWorld.Agree (redisKey k i)))
        (tr.filter fun a ↦ key a.who = k ∧ Computes r tr a.who i) tr' := by
  refine h.restrict (fun t ↦ key t = k ∧ Computes r tr t i)
    (RedisWorld.OnKey (redisKey k i)) (RedisWorld.OffKey (redisKey k i))
    (fun _ _ _ _ _ hc hs hR ↦ hR.onKey hc hs) (fun _ _ _ _ _ hc hs hR ↦ hR.offKey hc hs)
    (fun _ _ _ hs hR ↦ hR.passes hs) ⟨rfl, rfl⟩ ?_ ?_
  · rintro a ha ⟨rfl, v, n, v', hread, rfl⟩
    obtain ⟨w₁, -, hunique, hop⟩ := made hr h ha
    rw [hunique v n v' hread]
    exact hop.imp_right fun hop ↦ hop.imp_right fun hop ↦ ⟨_, hop⟩
  · intro a ha hne
    obtain ⟨w₁, hread, -, hop⟩ := made hr h ha
    refine hop.imp_right fun hop ↦ ⟨_, fun hk ↦ hne ?_, hop.imp_right fun hop ↦ ⟨_, hop⟩⟩
    obtain ⟨rfl, rfl⟩ := redisKey_injective hk
    exact ⟨rfl, _, _, _, hread, rfl⟩

open Classical in
/-- One limit for all replicas. Of the calls for a key in a window exactly the first `limit`
to be counted are allowed, whatever calls there are for other keys and windows. -/
theorem shared_limit (hs : 0 < s) (hw : r.window = s * second) (hl : 0 ≤ r.limit) (h₀ : w₀.redis = ∅)
    (h : AllowRuns r key w₀ tr rest w) (hp : Prompt r tr) :
    (∀ k i k' i', redisKey k i = redisKey k' i' → k = k' ∧ i = i') ∧
    (∀ k i, {t | key t = k ∧ Computes r tr t i ∧ Decided (rest t) true}.encard =
      min {t | key t = k ∧ Computes r tr t i ∧ ∃ b, Decided (rest t) b}.encard r.limit.toNat) ∧
    (∀ k i, (∀ t, key t = k → Computes r tr t i → ∃ b, rest t = .ret b) →
      {t | key t = k ∧ Computes r tr t i ∧ rest t = .ret true}.encard =
        min {t | key t = k ∧ Computes r tr t i}.encard r.limit.toNat) ∧
    (∀ k i, ∃ tr' w',
      AllowRuns r key w₀ tr' (fun t ↦ if key t = k ∧ Computes r tr t i then rest t else r.allow (key t)) w' ∧
      RedisWorld.Agree (redisKey k i) w w' ∧
      List.Forall₂ (Alike (RedisWorld.Agree (redisKey k i)))
        (tr.filter fun a ↦ key a.who = k ∧ Computes r tr a.who i) tr') ∧
    (∀ k a b, b ≤ a + r.window →
      {t | key t = k ∧ Decided (rest t) true ∧ ∃ x, a ≤ x ∧ x ≤ b ∧ Spans tr t x}.encard ≤ 2 * r.limit.toNat) := by
  have hcount := encard_allowed hs hw hl h₀ h hp
  refine ⟨fun _ _ _ _ ↦ redisKey_injective, hcount, fun k i hret ↦ ?_,
    fun k i ↦ exists_alone (window_ne hs hw) h k i, fun k a b ↦ encard_interval hs hw hl h₀ h hp k⟩
  have hallowed : {t | key t = k ∧ Computes r tr t i ∧ rest t = .ret true} =
      {t | key t = k ∧ Computes r tr t i ∧ Decided (rest t) true} := by
    ext t
    refine and_congr_right fun hk ↦ and_congr_right fun hc ↦ ⟨.inl, fun hd ↦ ?_⟩
    obtain ⟨b, hb⟩ := hret t hk hc
    rw [hb, hd.unique (.inl hb)]
  have hall : {t | key t = k ∧ Computes r tr t i} =
      {t | key t = k ∧ Computes r tr t i ∧ ∃ b, Decided (rest t) b} := by
    ext t
    refine and_congr_right fun hk ↦ ⟨fun hc ↦ ⟨hc, ?_⟩, And.left⟩
    obtain ⟨b, hb⟩ := hret t hk hc
    exact ⟨b, .inl hb⟩
  rw [hallowed, hall, hcount]

end Sharing

end AllowRuns

def minutely : RedisRateLimiter := newRedisRateLimiter 1 (60 * second)

def oneClient : Bool → String := fun _ ↦ "a:1"

/-- Half a minute before the end of a window, with `n` calls counted. -/
def halfPast : ℕ → RedisWorld
  | 0 => ⟨90 * second, ∅⟩
  | n + 1 => ⟨90 * second, (halfPast n).redis.insert "rl:a:1:1" ⟨n + 1, none⟩⟩

/-- Two replicas read the clock before either of them counts, and the `EXPIRE` fails. -/
def twoReplicas : List (RedisAct Bool) :=
  [⟨false, halfPast 0, .now, .ok (90 * second), halfPast 0⟩, ⟨true, halfPast 0, .now, .ok (90 * second), halfPast 0⟩,
    ⟨false, halfPast 0, .incr "rl:a:1:1", .ok 1, halfPast 1⟩, ⟨true, halfPast 1, .incr "rl:a:1:1", .ok 2, halfPast 2⟩,
    ⟨false, halfPast 2, .expire "rl:a:1:1" (60 * second), .error "i/o timeout", halfPast 2⟩]

theorem shared_limit_minutely : ∃ rest,
    AllowRuns minutely oneClient (halfPast 0) twoReplicas rest (halfPast 2) ∧ Prompt minutely twoReplicas ∧
    rest false = .ret true ∧ rest true = .ret false ∧
    {t | oneClient t = "a:1" ∧ Computes minutely twoReplicas t 1 ∧ rest t = .ret true}.encard =
      min {t | oneClient t = "a:1" ∧ Computes minutely twoReplicas t 1}.encard 1 := by
  have hincr : ∀ n, RedisWorld.Answers (halfPast n) (.incr "rl:a:1:1") (.ok (n + 1)) (halfPast (n + 1)) := by
    intro n
    have hn : (halfPast n).incr "rl:a:1:1" = (n + 1, halfPast (n + 1)) := by
      cases n with
      | zero => simp [RedisWorld.incr, RedisWorld.live, halfPast]
      | succ n => simp [RedisWorld.incr, RedisWorld.live, halfPast, Option.filter]
    have h := RedisWorld.Answers.incr (halfPast n) "rl:a:1:1"
    rwa [hn] at h
  have h₀ : AllowRuns minutely oneClient (halfPast 0) [] _ (halfPast 0) := .init
  have h₁ := h₀.call (t := false) (allow_eq (by decide) _) (.now _)
  have h₂ := h₁.call (t := true) (allow_eq (by decide) _) (.now _)
  have h₃ := h₂.call (t := false) (c := .incr "rl:a:1:1") rfl (hincr 0)
  have h₄ := h₃.call (t := true) (c := .incr "rl:a:1:1") rfl (hincr 1)
  have h₅ : AllowRuns minutely oneClient (halfPast 0) twoReplicas _ (halfPast 2) :=
    h₄.call (t := false) rfl (.expireFailed _ _ "i/o timeout" _)
  have hp : Prompt minutely twoReplicas := by
    refine ⟨by simp [twoReplicas], ?_⟩
    intro t w n w' w₁ rk x w₂ hread hinc
    have hn : n = 90 * second := by
      simp only [twoReplicas, List.mem_cons, Act.mk.injEq] at hread
      aesop
    have hw : ∀ a ∈ twoReplicas, a.before.now = 90 * second := by simp [twoReplicas, halfPast]
    rw [hn, hw _ hinc]
    decide
  refine ⟨_, h₅, hp, rfl, rfl, ?_⟩
  refine (shared_limit (s := 60) (by decide) rfl (by decide) rfl h₅ hp).2.2.1 "a:1" 1 fun t _ _ ↦ ?_
  cases t with
  | false => exact ⟨true, rfl⟩
  | true => exact ⟨false, rfl⟩

end EventPlatform.Gateway
