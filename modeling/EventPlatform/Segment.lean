import Mathlib.Data.List.Chain
import Mathlib.Data.Nat.Notation

namespace EventPlatform.Segment

variable {α : Type} (num : α → ℕ) (link : α → α → Prop)

/-- A run of consecutive numbers, newest first, each member linked to the one below. -/
def Linked (l : List α) : Prop := l.IsChain fun a b ↦ num a = num b + 1 ∧ link a b

variable {num link} {l : List α}

theorem Linked.nil : Linked num link [] := List.isChain_nil

theorem Linked.cons {a : α} (h : Linked num link l)
    (ha : ∀ b, l.head? = some b → num a = num b + 1 ∧ link a b) : Linked num link (a :: l) :=
  List.isChain_cons.mpr ⟨ha, h⟩

theorem Linked.tail {a : α} (h : Linked num link (a :: l)) : Linked num link l :=
  (List.isChain_cons.mp h).2

theorem Linked.lt_head {a : α} (h : Linked num link (a :: l)) : ∀ b ∈ l, num b < num a := by
  induction l generalizing a with
  | nil => simp
  | cons c l ih =>
    have hc := ((List.isChain_cons.mp h).1 c rfl).1
    intro b hb
    rcases List.mem_cons.mp hb with rfl | hb
    · omega
    · have := ih h.tail b hb
      omega

theorem Linked.desc (h : Linked num link l) : l.Pairwise fun a b ↦ num b < num a := by
  induction l with
  | nil => exact List.Pairwise.nil
  | cons a l ih => exact List.pairwise_cons.mpr ⟨h.lt_head, ih h.tail⟩

theorem Linked.head_max {a b : α} (h : Linked num link l) (ha : l.head? = some a) (hb : b ∈ l) :
    num b ≤ num a := by
  cases l with
  | nil => cases ha
  | cons c l =>
    cases ha
    rcases List.mem_cons.mp hb with rfl | hb
    · exact le_rfl
    · exact (h.lt_head b hb).le

theorem Linked.last_min {a b : α} (h : Linked num link l) (hb : l.getLast? = some b) (ha : a ∈ l) :
    num b ≤ num a := by
  obtain ⟨l', rfl⟩ := List.getLast?_eq_some_iff.mp hb
  rcases List.mem_append.mp ha with ha | ha
  · exact ((List.pairwise_append.mp h.desc).2.2 a ha b (by simp)).le
  · rw [List.mem_singleton.mp ha]

theorem Linked.num_inj {a b : α} (h : Linked num link l) (ha : a ∈ l) (hb : b ∈ l)
    (hn : num a = num b) : a = b := by
  induction l with
  | nil => cases ha
  | cons c l ih =>
    have hc := h.lt_head
    rcases List.mem_cons.mp ha with rfl | ha' <;> rcases List.mem_cons.mp hb with rfl | hb'
    · rfl
    · have := hc b hb'
      omega
    · have := hc a ha'
      omega
    · exact ih h.tail ha' hb'

/-- There is no gap between two members. -/
theorem Linked.between {a b : α} (h : Linked num link l) (ha : a ∈ l) (hb : b ∈ l) {k : ℕ}
    (hbk : num b ≤ k) (hka : k ≤ num a) : ∃ c ∈ l, num c = k := by
  induction l generalizing a with
  | nil => cases ha
  | cons c l ih =>
    have hc := h.lt_head
    by_cases hk : k = num c
    · exact ⟨c, List.mem_cons_self, hk.symm⟩
    have hlt : k < num c := by
      rcases List.mem_cons.mp ha with rfl | ha
      · omega
      · have := hc a ha
        omega
    have hb' : b ∈ l := by
      rcases List.mem_cons.mp hb with rfl | hb
      · omega
      · exact hb
    cases l with
    | nil => cases hb'
    | cons d l =>
      have hd := ((List.isChain_cons.mp h).1 d rfl).1
      obtain ⟨e, he, hk'⟩ := ih h.tail List.mem_cons_self hb' (by omega)
      exact ⟨e, List.mem_cons_of_mem _ he, hk'⟩

theorem Linked.link_of_mem {a b : α} (h : Linked num link l) (ha : a ∈ l) (hb : b ∈ l)
    (hn : num a = num b + 1) : link a b := by
  induction l with
  | nil => cases ha
  | cons c l ih =>
    have hc := h.lt_head
    rcases List.mem_cons.mp ha with rfl | ha' <;> rcases List.mem_cons.mp hb with rfl | hb'
    · omega
    · cases l with
      | nil => cases hb'
      | cons d l =>
        obtain ⟨hd, hl⟩ := (List.isChain_cons.mp h).1 d rfl
        rwa [h.tail.num_inj hb' List.mem_cons_self (by omega)]
    · have := hc a ha'
      omega
    · exact ih h.tail ha' hb'

/-- A descending sequence without gaps whose neighbours are linked. -/
theorem Linked.of_desc (hd : l.Pairwise fun a b ↦ num b < num a)
    (hg : ∀ a ∈ l, ∀ b ∈ l, ∀ k, num b ≤ k → k ≤ num a → ∃ c ∈ l, num c = k)
    (hl : ∀ a ∈ l, ∀ b ∈ l, num a = num b + 1 → link a b) : Linked num link l := by
  induction l with
  | nil => exact .nil
  | cons a l ih =>
    obtain ⟨ha, hd⟩ := List.pairwise_cons.mp hd
    refine (ih hd ?_ ?_).cons ?_
    · intro b hb c hc k hck hkb
      obtain ⟨e, he, hk⟩ := hg b (List.mem_cons_of_mem _ hb) c (List.mem_cons_of_mem _ hc) k hck hkb
      rcases List.mem_cons.mp he with rfl | he
      · have := ha b hb
        omega
      · exact ⟨e, he, hk⟩
    · exact fun b hb c hc ↦ hl b (List.mem_cons_of_mem _ hb) c (List.mem_cons_of_mem _ hc)
    · intro b hb
      cases l with
      | nil => cases hb
      | cons c l =>
        cases hb
        have hb := ha b List.mem_cons_self
        obtain ⟨e, he, hk⟩ := hg a List.mem_cons_self b (by simp) (num a - 1) (by omega) (by omega)
        have hn : num a = num b + 1 := by
          rcases List.mem_cons.mp he with rfl | he
          · omega
          rcases List.mem_cons.mp he with rfl | he
          · omega
          · have := (List.pairwise_cons.mp hd).1 e he
            omega
        exact ⟨hn, hl a List.mem_cons_self b (by simp) hn⟩

/-- What passes down every link holds below any member that has it. -/
theorem Linked.downward {P : α → Prop} {a : α} (h : Linked num link (a :: l))
    (hP : ∀ b ∈ a :: l, ∀ c ∈ a :: l, num b = num c + 1 → link b c → P b → P c) (hp : P a) :
    ∀ b ∈ l, P b := by
  induction l generalizing a with
  | nil => simp
  | cons c l ih =>
    obtain ⟨hn, hk⟩ := (List.isChain_cons.mp h).1 c rfl
    have hc : P c := hP a List.mem_cons_self c (by simp) hn hk hp
    intro b hb
    rcases List.mem_cons.mp hb with rfl | hb
    · exact hc
    · refine ih h.tail ?_ hc b hb
      exact fun x hx y hy ↦ hP x (List.mem_cons_of_mem _ hx) y (List.mem_cons_of_mem _ hy)

/-- What passes down every link fails exactly on an upper part. -/
theorem Linked.not_iff_lt_countP {P : α → Prop} [DecidablePred P] (h : Linked num link l)
    (hP : ∀ b ∈ l, ∀ c ∈ l, num b = num c + 1 → link b c → P b → P c) {i : ℕ} {a : α}
    (ha : l[i]? = some a) : ¬ P a ↔ i < l.countP fun b ↦ ¬ P b := by
  induction l generalizing i with
  | nil => simp at ha
  | cons b l ih =>
    by_cases hb : P b
    · have hall : ∀ c ∈ b :: l, P c := by
        intro c hc
        rcases List.mem_cons.mp hc with rfl | hc
        · exact hb
        · exact h.downward hP hb c hc
      have hz : (b :: l).countP (fun b ↦ ¬ P b) = 0 := by
        rw [List.countP_eq_zero]
        simpa using hall
      rw [hz]
      simp [hall a (List.mem_of_getElem? ha)]
    · rw [List.countP_cons_of_pos (by simpa using hb)]
      cases i with
      | zero =>
        cases ha
        simp [hb]
      | succ i =>
        rw [ih h.tail (fun x hx y hy ↦ hP x (List.mem_cons_of_mem _ hx) y (List.mem_cons_of_mem _ hy)) ha]
        omega

end EventPlatform.Segment
