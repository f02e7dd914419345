import Mathlib.Data.List.Basic

namespace EventPlatform

/-- A machine whose state falls into cells, one for each key. A call is answered from
the cell of its key and writes that cell alone. -/
structure Bank {ι κ : Type} (key : ι → κ) (S σ ο : Type) where
  step : S → ι → ο × S
  cell : S → κ → σ
  answer : σ → ι → ο × σ
  step_eq : ∀ s i, (step s i).1 = (answer (cell s (key i)) i).1
  cell_step : ∀ s i, cell (step s i).2 (key i) = (answer (cell s (key i)) i).2
  cell_step_of_ne : ∀ s i k, k ≠ key i → cell (step s i).2 k = cell s k

namespace Bank

variable {ι κ S σ ο : Type} {key : ι → κ} (m : Bank key S σ ο)

def served : S → List ι → List (ι × ο)
  | _, [] => []
  | s, i :: is => (i, (m.step s i).1) :: served (m.step s i).2 is

def after (s : S) (is : List ι) : S := is.foldl (fun s i ↦ (m.step s i).2) s

variable {m}

theorem after_append (s : S) (is js : List ι) : m.after s (is ++ js) = m.after (m.after s is) js := by
  rw [after, List.foldl_append]
  rfl

theorem cell_after_of_ne {k : κ} (is : List ι) (h : ∀ i ∈ is, key i ≠ k) (s : S) :
    m.cell (m.after s is) k = m.cell s k := by
  induction is generalizing s with
  | nil => rfl
  | cons i is ih =>
    rw [List.forall_mem_cons] at h
    exact (ih h.2 _).trans (m.cell_step_of_ne s i k (Ne.symm h.1))

/-- The calls whose keys lie in `P` are answered as if no others were made. -/
theorem served_filter (P : κ → Bool) (is : List ι) {s s' : S} (h : ∀ k, P k = true → m.cell s k = m.cell s' k) :
    (m.served s is).filter (fun r ↦ P (key r.1)) = m.served s' (is.filter fun i ↦ P (key i)) := by
  induction is generalizing s s' with
  | nil => rfl
  | cons i is ih =>
    cases hi : P (key i) with
    | true =>
      have hnext : ∀ k, P k = true → m.cell (m.step s i).2 k = m.cell (m.step s' i).2 k := by
        intro k hk
        by_cases hki : k = key i
        · rw [hki, m.cell_step, m.cell_step, h _ hi]
        · rw [m.cell_step_of_ne _ _ _ hki, m.cell_step_of_ne _ _ _ hki, h k hk]
      have hans : (m.step s i).1 = (m.step s' i).1 := by rw [m.step_eq, m.step_eq, h _ hi]
      simp only [served, List.filter_cons, hi, if_true, ih hnext, hans]
    | false =>
      have hnext : ∀ k, P k = true → m.cell (m.step s i).2 k = m.cell s' k := by
        intro k hk
        have hki : k ≠ key i := by
          rintro rfl
          simp [hi] at hk
        rw [m.cell_step_of_ne _ _ _ hki, h k hk]
      simp only [served, List.filter_cons, hi, Bool.false_eq_true, if_false, ih hnext]

end Bank

end EventPlatform
