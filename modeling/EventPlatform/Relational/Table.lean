import Mathlib.Data.List.Nodup
import Mathlib.Data.List.Perm.Basic

namespace EventPlatform.Relational

/-- A table whose rows are told apart by the columns `key`. -/
@[ext] structure Table {ρ κ : Type} (key : ρ → κ) where
  rows : List ρ
  unique : (rows.map key).Nodup

namespace Table

variable {ρ κ : Type} {key : ρ → κ}

def empty : Table key := ⟨[], List.nodup_nil⟩

/-- Some row has the key `k`. -/
def Taken (k : κ) (t : Table key) : Prop := k ∈ t.rows.map key

/-- `SELECT … WHERE`. -/
def select (p : ρ → Bool) (t : Table key) : List ρ := t.rows.filter p

/-- `DELETE … WHERE`. -/
def delete (p : ρ → Bool) (t : Table key) : Table key where
  rows := t.rows.filter fun r ↦ !p r
  unique := t.unique.sublist (List.filter_sublist.map key)

theorem rewrite_unique (t : Table key) {f : ρ → ρ} (hf : ∀ r, key (f r) = key r) : ((t.rows.map f).map key).Nodup := by
  have hkey : key ∘ f = key := funext hf
  rw [List.map_map, hkey]
  exact t.unique

/-- `UPDATE … SET … WHERE`, of columns outside the key. -/
def update (p : ρ → Bool) (f : ρ → ρ) (hf : ∀ r, key (f r) = key r) (t : Table key) : Table key where
  rows := t.rows.map fun r ↦ if p r then f r else r
  unique := t.rewrite_unique fun r ↦ by
    split
    · exact hf r
    · rfl

theorem insert_unique {t : Table key} {r : ρ} (h : ¬ t.Taken (key r)) : ((t.rows ++ [r]).map key).Nodup := by
  rw [List.map_append, List.map_singleton, ← List.concat_eq_append]
  exact t.unique.concat h

section Insert

variable [DecidableEq κ]

instance (k : κ) (t : Table key) : Decidable (t.Taken k) := inferInstanceAs (Decidable (k ∈ t.rows.map key))

/-- `INSERT … ON CONFLICT DO NOTHING`. -/
def insertOrIgnore (r : ρ) (t : Table key) : Table key :=
  if h : t.Taken (key r) then t else ⟨t.rows ++ [r], insert_unique h⟩

/-- `INSERT … ON CONFLICT DO UPDATE`, of all columns outside the key. -/
def upsert (r : ρ) (t : Table key) : Table key :=
  if h : t.Taken (key r) then
    { rows := t.rows.map fun x ↦ if key x = key r then r else x
      unique := t.rewrite_unique fun x ↦ by
        split
        · rename_i hx
          exact hx.symm
        · rfl }
  else ⟨t.rows ++ [r], insert_unique h⟩

variable {t : Table key} {r : ρ} {k : κ}

theorem insertOrIgnore_rows (h : ¬ t.Taken (key r)) : (t.insertOrIgnore r).rows = t.rows ++ [r] := by
  rw [insertOrIgnore, dif_neg h]

theorem insertOrIgnore_of_taken (h : t.Taken (key r)) : t.insertOrIgnore r = t := dif_pos h

theorem upsert_rows (h : ¬ t.Taken (key r)) : (t.upsert r).rows = t.rows ++ [r] := by
  rw [upsert, dif_neg h]

theorem Taken.upsert (h : t.Taken k) : (t.upsert r).Taken k := by
  unfold Table.upsert
  split
  · obtain ⟨x, hx, rfl⟩ := List.mem_map.mp h
    refine List.mem_map.mpr ⟨_, List.mem_map.mpr ⟨x, hx, rfl⟩, ?_⟩
    split
    · rename_i hk
      exact hk.symm
    · rfl
  · exact List.mem_map.mpr (by simpa [or_and_right, exists_or] using .inl (List.mem_map.mp h))

theorem filter_key_eq_nil {l : List ρ} (h : k ∉ l.map key) : (l.filter fun x ↦ key x = k) = [] := by
  refine List.filter_eq_nil_iff.mpr fun x hx hk ↦ h ?_
  exact of_decide_eq_true hk ▸ List.mem_map_of_mem hx

theorem select_key_eq_nil (h : ¬ t.Taken k) : (t.select fun x ↦ key x = k) = [] := filter_key_eq_nil h

/-- A key selects its row alone. -/
theorem select_key (hr : r ∈ t.rows) : (t.select fun x ↦ key x = key r) = [r] := by
  obtain ⟨l₁, l₂, hl⟩ := List.append_of_mem hr
  have hu := t.unique
  rw [hl, List.map_append, List.map_cons, List.nodup_middle, List.nodup_cons, List.mem_append, not_or] at hu
  simp [select, hl, filter_key_eq_nil hu.1.1, filter_key_eq_nil hu.1.2]

theorem mem_upsert_self : r ∈ (t.upsert r).rows := by
  unfold upsert
  split
  · rename_i h
    obtain ⟨x, hx, hk⟩ := List.mem_map.mp h
    exact List.mem_map.mpr ⟨x, hx, if_pos hk⟩
  · simp

theorem select_upsert_of_ne (h : k ≠ key r) : ((t.upsert r).select fun x ↦ key x = k) = t.select fun x ↦ key x = k := by
  unfold upsert
  split
  · simp only [select, List.filter_map]
    have hsame : t.rows.filter ((fun x ↦ decide (key x = k)) ∘ fun x ↦ if key x = key r then r else x) =
        t.rows.filter fun x ↦ key x = k := by
      apply List.filter_congr
      intro x _
      by_cases hx : key x = key r <;> simp [hx]
    rw [hsame]
    conv_rhs => rw [← List.map_id (t.rows.filter fun x ↦ key x = k)]
    apply List.map_congr_left
    intro x hx
    have hk : key x = k := of_decide_eq_true (List.mem_filter.mp hx).2
    exact if_neg (hk ▸ h)
  · simp [select, List.filter_append, h.symm]

/-- A row is the only one with its key, so writing it again changes nothing. -/
theorem upsert_of_mem (h : r ∈ t.rows) : t.upsert r = t := by
  have htaken : t.Taken (key r) := List.mem_map_of_mem h
  apply Table.ext
  rw [upsert, dif_pos htaken]
  conv_rhs => rw [← List.map_id t.rows]
  apply List.map_congr_left
  intro x hx
  by_cases hk : key x = key r
  · rw [if_pos hk]
    exact List.inj_on_of_nodup_map t.unique h hx hk.symm
  · exact if_neg hk

end Insert

end Table

end EventPlatform.Relational
