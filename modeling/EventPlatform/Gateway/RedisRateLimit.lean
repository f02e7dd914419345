import Mathlib
import EventPlatform.Interaction.Pool

namespace EventPlatform.Gateway

open Interaction Prog Pool

/-- The calls of `Allow` on the clock and on Redis. -/
inductive RedisCall
  | now
  | incr (key : String)
  | expire (key : String) (expiration : ℕ)
  deriving DecidableEq

@[reducible] def RedisCall.Reply : RedisCall → Type
  | .now | .incr _ => ℕ
  | .expire _ _ => Unit

/-- Durations and instants in nanoseconds, the latter from the Unix epoch. -/
structure RedisRateLimiter where
  limit : ℤ
  window : ℕ

def second : ℕ := 10 ^ 9

def redisKey (key : String) (windowIdx : ℕ) : String := "rl:" ++ key ++ ":" ++ toString windowIdx

namespace RedisRateLimiter

def newRedisRateLimiter (limit : ℤ) (window : ℕ) : RedisRateLimiter := ⟨limit, window⟩

def allow (r : RedisRateLimiter) (key : String) : Prog String RedisCall.Reply Bool := do
  let now ← perform RedisCall.now
  -- a window below one second is no divisor
  if r.window / second = 0 then .fail "runtime error: integer divide by zero" else
  let windowIdx := now / second / (r.window / second)
  let rkey := redisKey key windowIdx
  match ← attempt (perform (RedisCall.incr rkey)) with
  | .error _ => return true
  | .ok count =>
    if count = 1 then
      let _ ← attempt (perform (RedisCall.expire rkey r.window))
    return decide ((count : ℤ) ≤ r.limit)

end RedisRateLimiter

structure RedisEntry where
  count : ℕ
  expireAt : Option ℕ
  deriving DecidableEq

/-- Redis and the clock that it shares with all replicas. -/
structure RedisWorld where
  now : ℕ
  redis : Std.ExtTreeMap String RedisEntry

namespace RedisWorld

def live (w : RedisWorld) (key : String) : Option RedisEntry :=
  w.redis[key]?.filter fun e ↦ e.expireAt.all fun t ↦ w.now < t

/-- `INCR` counts from zero for a key without an entry. -/
def incr (w : RedisWorld) (key : String) : ℕ × RedisWorld :=
  let e := (w.live key).getD ⟨0, none⟩
  (e.count + 1, { w with redis := w.redis.insert key { e with count := e.count + 1 } })

/-- `EXPIRE` does nothing for a key without an entry. -/
def expire (w : RedisWorld) (key : String) (expiration : ℕ) : RedisWorld :=
  match w.live key with
  | none => w
  | some e => { w with redis := w.redis.insert key { e with expireAt := some (w.now + expiration) } }

/-- What a replica sees of a call. A command that reports an error may still have been carried out. -/
inductive Answers : Handler String RedisCall.Reply RedisWorld
  | now (w : RedisWorld) : Answers w .now (.ok w.now) w
  | incr (w : RedisWorld) (k : String) : Answers w (.incr k) (.ok (w.incr k).1) (w.incr k).2
  | incrLost (w : RedisWorld) (k e : String) : Answers w (.incr k) (.error e) (w.incr k).2
  | incrFailed (w : RedisWorld) (k e : String) : Answers w (.incr k) (.error e) w
  | expire (w : RedisWorld) (k : String) (d : ℕ) : Answers w (.expire k d) (.ok ()) (w.expire k d)
  | expireLost (w : RedisWorld) (k e : String) (d : ℕ) : Answers w (.expire k d) (.error e) (w.expire k d)
  | expireFailed (w : RedisWorld) (k e : String) (d : ℕ) : Answers w (.expire k d) (.error e) w

def Passes (w w' : RedisWorld) : Prop := w.now ≤ w'.now ∧ w'.redis = w.redis

end RedisWorld

theorem append_cons_inj {α : Type} {a : α} {x x' z z' : List α} (hx : a ∉ x) (hx' : a ∉ x')
    (h : x ++ a :: z = x' ++ a :: z') : x = x' ∧ z = z' := by
  induction x generalizing x' with
  | nil =>
    cases x' with
    | nil => exact ⟨rfl, (List.cons.inj h).2⟩
    | cons b x' => exact absurd (List.cons.inj h).1 (List.ne_of_not_mem_cons hx')
  | cons b x ih =>
    cases x' with
    | nil => exact absurd (List.cons.inj h).1.symm (List.ne_of_not_mem_cons hx)
    | cons c x' =>
      obtain ⟨rfl, hrest⟩ := List.cons.inj h
      obtain ⟨rfl, rfl⟩ := ih (List.not_mem_of_not_mem_cons hx) (List.not_mem_of_not_mem_cons hx') hrest
      exact ⟨rfl, rfl⟩

/-- The index has no colon, so the last colon of a key is the one before it. -/
theorem redisKey_injective {k k' : String} {i i' : ℕ} (h : redisKey k i = redisKey k' i') : k = k' ∧ i = i' := by
  have hdigits : ∀ n : ℕ, ':' ∉ (toString n).toList.reverse := by
    intro n hn
    rw [List.mem_reverse, Nat.toString_eq_repr, Nat.toList_repr] at hn
    exact absurd (Nat.isDigit_of_mem_toDigits (by decide) (by decide) hn) (by decide)
  have hlist := congrArg (fun s ↦ s.toList.reverse) h
  simp only [redisKey, String.toList_append, List.reverse_append] at hlist
  obtain ⟨hi, hk⟩ := append_cons_inj (hdigits i) (hdigits i') hlist
  refine ⟨String.toList_inj.mp (List.reverse_injective (List.append_cancel_right hk)), ?_⟩
  exact Nat.repr_injective (String.toList_inj.mp (List.reverse_injective hi))

namespace RedisWorld

variable {w w' : RedisWorld} {k k' : String}

@[simp] theorem incr_now (w : RedisWorld) (k : String) : (w.incr k).2.now = w.now := rfl

@[simp] theorem expire_now (w : RedisWorld) (k : String) (d : ℕ) : (w.expire k d).now = w.now := by
  unfold expire
  split
  · rfl
  · rfl

theorem incr_of_ne (h : k' ≠ k) : (w.incr k).2.redis[k']? = w.redis[k']? := by
  simp [incr, Std.ExtTreeMap.getElem?_insert, Ne.symm h]

theorem expire_of_ne (h : k' ≠ k) (d : ℕ) : (w.expire k d).redis[k']? = w.redis[k']? := by
  unfold expire
  split
  · rfl
  · simp [Std.ExtTreeMap.getElem?_insert, Ne.symm h]

theorem live_congr (hnow : w.now = w'.now) (h : w.redis[k]? = w'.redis[k]?) : w.live k = w'.live k := by
  rw [live, live, hnow, h]

structure Agree (rk : String) (w w' : RedisWorld) : Prop where
  now : w.now = w'.now
  entry : w.redis[rk]? = w'.redis[rk]?

theorem Agree.incr (h : Agree k w w') : (w.incr k).1 = (w'.incr k).1 ∧ Agree k (w.incr k).2 (w'.incr k).2 := by
  have hlive := live_congr h.now h.entry
  refine ⟨by simp only [RedisWorld.incr, hlive], h.now, by simp [RedisWorld.incr, hlive]⟩

theorem Agree.expire (h : Agree k w w') (d : ℕ) : Agree k (w.expire k d) (w'.expire k d) := by
  have hlive := live_congr h.now h.entry
  refine ⟨by simp [h.now], ?_⟩
  unfold RedisWorld.expire
  rw [← hlive]
  cases w.live k with
  | none => exact h.entry
  | some e => simp [h.now]

/-- A call of `Allow` that concerns the counter `rk`. -/
def OnKey (rk : String) (c : RedisCall) : Prop := c = .now ∨ c = .incr rk ∨ ∃ d, c = .expire rk d

/-- A call of `Allow` that concerns another counter. -/
def OffKey (rk : String) (c : RedisCall) : Prop := c = .now ∨ ∃ rk', rk ≠ rk' ∧ (c = .incr rk' ∨ ∃ d, c = .expire rk' d)

variable {v : RedisWorld} {rk : String} {c : RedisCall} {x : Except String c.Reply}

theorem Agree.onKey (hc : OnKey rk c) (hs : Answers w c x w') (h : Agree rk w v) :
    ∃ v', Answers v c x v' ∧ Agree rk w' v' := by
  obtain rfl | rfl | ⟨d, rfl⟩ := hc
  · cases hs
    exact ⟨v, h.now ▸ .now v, h⟩
  · cases hs with
    | incr => exact ⟨_, h.incr.1 ▸ .incr v rk, h.incr.2⟩
    | incrLost => exact ⟨_, .incrLost v rk _, h.incr.2⟩
    | incrFailed => exact ⟨v, .incrFailed v rk _, h⟩
  · cases hs with
    | expire => exact ⟨_, .expire v rk d, h.expire d⟩
    | expireLost => exact ⟨_, .expireLost v rk _ d, h.expire d⟩
    | expireFailed => exact ⟨v, .expireFailed v rk _ d, h⟩

theorem Agree.offKey (hc : OffKey rk c) (hs : Answers w c x w') (h : Agree rk w v) : Agree rk w' v := by
  obtain rfl | ⟨rk', hne, rfl | ⟨d, rfl⟩⟩ := hc
  · cases hs
    exact h
  · cases hs with
    | incr => exact ⟨h.now, (incr_of_ne hne).trans h.entry⟩
    | incrLost => exact ⟨h.now, (incr_of_ne hne).trans h.entry⟩
    | incrFailed => exact h
  · have hexp : Agree rk (w.expire rk' d) v := ⟨by simp [h.now], (expire_of_ne hne d).trans h.entry⟩
    cases hs with
    | expire => exact hexp
    | expireLost => exact hexp
    | expireFailed => exact h

theorem Agree.passes (hs : Passes w w') (h : Agree rk w v) : ∃ v', Passes v v' ∧ Agree rk w' v' :=
  ⟨⟨w'.now, v.redis⟩, ⟨h.now ▸ hs.1, rfl⟩, rfl, hs.2 ▸ h.entry⟩

end RedisWorld

namespace RedisRateLimiter

def windowIdx (r : RedisRateLimiter) (now : ℕ) : ℕ := now / second / (r.window / second)

/-- What is left of a call once its `INCR` is back. -/
def settle (r : RedisRateLimiter) (rkey : String) : Except String ℕ → Prog String RedisCall.Reply Bool
  | .error _ => .ret true
  | .ok count =>
    if count = 1 then .call (.expire rkey r.window) fun _ ↦ .ret (decide ((count : ℤ) ≤ r.limit))
    else .ret (decide ((count : ℤ) ≤ r.limit))

theorem settle_ok (r : RedisRateLimiter) (rkey : String) (n : ℕ) : r.settle rkey (.ok n) =
    if n = 1 then .call (.expire rkey r.window) fun _ ↦ .ret (decide ((n : ℤ) ≤ r.limit))
    else .ret (decide ((n : ℤ) ≤ r.limit)) := rfl

theorem allow_eq {r : RedisRateLimiter} (h : r.window / second ≠ 0) (key : String) :
    r.allow key = .call .now fun
      | .ok now => .call (.incr (redisKey key (r.windowIdx now))) (r.settle (redisKey key (r.windowIdx now)))
      | .error e => .fail e := by
  unfold allow
  simp only [if_neg h]
  refine congrArg (Prog.call RedisCall.now) (funext fun x ↦ ?_)
  cases x with
  | error e => rfl
  | ok now =>
    refine congrArg (Prog.call _) (funext fun y ↦ ?_)
    cases y with
    | error e => rfl
    | ok count =>
      by_cases hc : count = 1
      · subst hc
        refine congrArg (Prog.call _) (funext fun z ↦ ?_)
        cases z with
        | error e => rfl
        | ok u => rfl
      · change (if count = 1 then _ else Prog.ret _ : Prog String RedisCall.Reply Bool) = _
        rw [if_neg hc, settle_ok, if_neg hc]

/-- The call has its answer: no outcome of an `EXPIRE` still to come changes it. -/
def Decided (p : Prog String RedisCall.Reply Bool) (b : Bool) : Prop :=
  p = .ret b ∨ ∃ rkey d, p = .call (.expire rkey d) fun _ ↦ .ret b

theorem Decided.unique {p : Prog String RedisCall.Reply Bool} {b b' : Bool} (h : Decided p b) (h' : Decided p b') :
    b = b' := by
  obtain rfl | ⟨rkey, d, rfl⟩ := h
  · obtain h' | ⟨_, _, h'⟩ := h'
    · exact Prog.ret.inj h'
    · cases h'
  · obtain h' | ⟨_, _, h'⟩ := h'
    · cases h'
    · injection h' with hc hk
      exact Prog.ret.inj (congrFun hk (.ok ()))

theorem decided_settle (r : RedisRateLimiter) (rkey : String) (n : ℕ) :
    Decided (r.settle rkey (.ok n)) (decide ((n : ℤ) ≤ r.limit)) := by
  rw [settle_ok]
  split
  · exact .inr ⟨_, _, rfl⟩
  · exact .inl rfl

end RedisRateLimiter

end EventPlatform.Gateway
