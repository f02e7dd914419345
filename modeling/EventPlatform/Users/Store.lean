import Mathlib
import EventPlatform.Relational.Table

namespace EventPlatform.Users

/-- Instants in nanoseconds from the Unix epoch. -/
structure User where
  id : String
  email : String
  createdAt : ℤ
  deriving DecidableEq

inductive Err
  | invalidEmail
  | notFound
  | conflict
  deriving DecidableEq

/-- The interface `Store`. The order of a listing is not fixed, so `list` says which answers
are possible; `stored` is what the store holds. -/
structure Store (S : Type) where
  empty : S
  stored : S → List User
  create : S → User → Except Err Unit × S
  get : S → String → Except Err User
  list : S → List User → Prop

/-- The map of users. Each user is filed under its own id. -/
structure MemStore where
  users : Std.ExtTreeMap String User
  keyed : ∀ (id : String) (u : User), users[id]? = some u → u.id = id

namespace MemStore

def newMemStore : MemStore := ⟨∅, by simp⟩

def stored (m : MemStore) : List User := m.users.toList.map Prod.snd

def file (m : MemStore) (u : User) : MemStore where
  users := m.users.insert u.id u
  keyed id v h := by
    rw [Std.ExtTreeMap.getElem?_insert] at h
    split at h
    · rename_i hid
      cases h
      exact Std.compare_eq_iff_eq.mp hid
    · exact m.keyed id v h

def create (m : MemStore) (u : User) : Except Err Unit × MemStore :=
  if m.stored.any fun existing ↦ existing.email = u.email then (.error .conflict, m) else (.ok (), m.file u)

def get (m : MemStore) (id : String) : Except Err User :=
  match m.users[id]? with
  | none => .error .notFound
  | some u => .ok u

/-- The map is gone through in any order. -/
def list (m : MemStore) (out : List User) : Prop := out.Perm m.stored

def store : Store MemStore := ⟨newMemStore, stored, create, get, list⟩

end MemStore

/-- A row of the table `users`. TIMESTAMPTZ keeps microseconds. -/
structure Row where
  id : String
  email : String
  createdAt : ℤ
  deriving DecidableEq

def Row.of (u : User) : Row := ⟨u.id, u.email, u.createdAt / 1000⟩

def Row.scan (r : Row) : User := ⟨r.id, r.email, r.createdAt * 1000⟩

/-- The table `users`, with its primary key and its unique column. -/
structure PostgresStore where
  users : Relational.Table Row.id
  email_unique : (users.rows.map Row.email).Nodup

namespace PostgresStore

def newPostgresStore : PostgresStore := ⟨.empty, List.nodup_nil⟩

def stored (s : PostgresStore) : List User := s.users.rows.map Row.scan

def EmailTaken (s : PostgresStore) (email : String) : Prop := email ∈ s.users.rows.map Row.email

instance (s : PostgresStore) (email : String) : Decidable (s.EmailTaken email) :=
  inferInstanceAs (Decidable (email ∈ s.users.rows.map Row.email))

/-- A unique violation, of either column, is reported as a conflict. -/
def create (s : PostgresStore) (u : User) : Except Err Unit × PostgresStore :=
  if h : s.users.Taken u.id ∨ s.EmailTaken u.email then (.error .conflict, s) else
  (.ok (), {
    users := ⟨s.users.rows ++ [Row.of u], Relational.Table.insert_unique (not_or.mp h).1⟩
    email_unique := by
      rw [List.map_append, List.map_singleton, ← List.concat_eq_append]
      exact s.email_unique.concat (not_or.mp h).2 })

def get (s : PostgresStore) (id : String) : Except Err User :=
  match s.users.select fun r ↦ r.id = id with
  | [] => .error .notFound
  | r :: _ => .ok r.scan

/-- `ORDER BY created_at` leaves the order of equal instants open. -/
def list (s : PostgresStore) (out : List User) : Prop :=
  out.Perm s.stored ∧ out.Pairwise fun u v ↦ u.createdAt ≤ v.createdAt

def store : Store PostgresStore := ⟨newPostgresStore, stored, create, get, list⟩

end PostgresStore

def User.micro (u : User) : User := { u with createdAt := u.createdAt / 1000 * 1000 }

@[simp] theorem User.micro_id (u : User) : u.micro.id = u.id := rfl

@[simp] theorem User.micro_micro (u : User) : u.micro.micro = u.micro := by
  simp [User.micro]

theorem Row.scan_of (u : User) : (Row.of u).scan = u.micro := rfl

/-- What both stores have in common. A store returns users as `keep` leaves them. -/
structure Store.Lawful {S : Type} (st : Store S) (keep : User → User) : Prop where
  keep_id : ∀ u, (keep u).id = u.id
  keep_email : ∀ u, (keep u).email = u.email
  keep_micro : ∀ u, (keep u).micro = u.micro
  empty : st.stored st.empty = []
  ids : ∀ s, ((st.stored s).map User.id).Nodup
  create_new : ∀ s u, u.id ∉ (st.stored s).map User.id → u.email ∉ (st.stored s).map User.email →
    ∃ s', st.create s u = (.ok (), s') ∧ (st.stored s').Perm (keep u :: st.stored s)
  create_taken : ∀ s u, u.email ∈ (st.stored s).map User.email → st.create s u = (.error .conflict, s)
  get_mem : ∀ s u, u ∈ st.stored s → st.get s u.id = .ok u
  get_missing : ∀ s id, id ∉ (st.stored s).map User.id → st.get s id = .error .notFound
  list_perm : ∀ s l, st.list s l → l.Perm (st.stored s)
  list_total : ∀ s, ∃ l, st.list s l

namespace MemStore

theorem mem_stored {m : MemStore} {u : User} : u ∈ m.stored ↔ m.users[u.id]? = some u := by
  rw [stored, List.mem_map]
  constructor
  · rintro ⟨⟨id, v⟩, hv, rfl⟩
    have hget := Std.ExtTreeMap.mem_toList_iff_getElem?_eq_some.mp hv
    rwa [m.keyed id v hget]
  · intro h
    exact ⟨(u.id, u), Std.ExtTreeMap.mem_toList_iff_getElem?_eq_some.mpr h, rfl⟩

theorem stored_ids (m : MemStore) : m.stored.map User.id = m.users.keys := by
  rw [stored, List.map_map, ← Std.ExtTreeMap.map_fst_toList_eq_keys]
  refine List.map_congr_left fun p hp ↦ ?_
  exact m.keyed p.1 p.2 (Std.ExtTreeMap.mem_toList_iff_getElem?_eq_some.mp hp)

theorem stored_nodup (m : MemStore) : m.stored.Nodup := by
  refine List.Nodup.of_map User.id ?_
  rw [stored_ids]
  exact Std.ExtTreeMap.nodup_keys

theorem any_email {m : MemStore} {email : String} :
    (m.stored.any fun existing ↦ existing.email = email) = true ↔ email ∈ m.stored.map User.email := by
  simp

theorem lawful : store.Lawful id where
  keep_id _ := rfl
  keep_email _ := rfl
  keep_micro _ := rfl
  empty := by simp [store, stored, newMemStore]
  ids m := by
    change (m.stored.map User.id).Nodup
    rw [stored_ids]
    exact Std.ExtTreeMap.nodup_keys
  create_new m u hid hemail := by
    refine ⟨m.file u, if_neg (mt any_email.mp hemail), ?_⟩
    have hu : u ∉ m.stored := fun h ↦ hid (List.mem_map_of_mem h)
    refine (List.perm_ext_iff_of_nodup (stored_nodup _) (List.nodup_cons.mpr ⟨hu, m.stored_nodup⟩)).mpr fun v ↦ ?_
    change v ∈ (m.file u).stored ↔ v ∈ id u :: m.stored
    rw [mem_stored, file, Std.ExtTreeMap.getElem?_insert, List.mem_cons, id, mem_stored]
    by_cases hv : u.id = v.id
    · have hv' : m.users[v.id]? ≠ some v := fun h ↦ hid (hv ▸ List.mem_map_of_mem (mem_stored.mpr h))
      simp [hv, hv', eq_comm]
    · have hv' : v ≠ u := fun h ↦ hv (h ▸ rfl)
      simp [hv, hv']
  create_taken m u h := if_pos (any_email.mpr h)
  get_mem m u h := by
    change m.get u.id = _
    rw [get, mem_stored.mp h]
  get_missing m id h := by
    change m.get id = _
    rw [store, stored_ids, Std.ExtTreeMap.mem_keys] at h
    rw [get, Std.ExtTreeMap.getElem?_eq_none h]
  list_perm m l h := h
  list_total m := ⟨_, .refl _⟩

end MemStore

namespace PostgresStore

theorem stored_ids (s : PostgresStore) : s.stored.map User.id = s.users.rows.map Row.id := by
  rw [stored, List.map_map]
  rfl

theorem stored_emails (s : PostgresStore) : s.stored.map User.email = s.users.rows.map Row.email := by
  rw [stored, List.map_map]
  rfl

theorem lawful : store.Lawful User.micro where
  keep_id _ := rfl
  keep_email _ := rfl
  keep_micro := User.micro_micro
  empty := rfl
  ids s := by
    change (s.stored.map User.id).Nodup
    rw [stored_ids]
    exact s.users.unique
  create_new s u hid hemail := by
    change u.id ∉ s.stored.map User.id at hid
    change u.email ∉ s.stored.map User.email at hemail
    rw [stored_ids] at hid
    rw [stored_emails] at hemail
    refine ⟨_, dif_neg (not_or.mpr ⟨hid, hemail⟩), ?_⟩
    simp only [store, stored, List.map_append, List.map_singleton, Row.scan_of]
    exact List.perm_append_singleton _ _
  create_taken s u h := by
    change u.email ∈ s.stored.map User.email at h
    rw [stored_emails] at h
    exact dif_pos (.inr h)
  get_mem s u h := by
    obtain ⟨r, hr, rfl⟩ := List.mem_map.mp h
    change s.get r.id = _
    rw [get, Relational.Table.select_key hr]
  get_missing s id h := by
    change id ∉ s.stored.map User.id at h
    rw [stored_ids] at h
    change s.get id = _
    rw [get, Relational.Table.select_key_eq_nil h]
  list_perm s l h := h.1
  list_total s := by
    have : Std.Total fun u v : User ↦ u.createdAt ≤ v.createdAt := ⟨fun u v ↦ le_total _ _⟩
    have : IsTrans User fun u v ↦ u.createdAt ≤ v.createdAt := ⟨fun _ _ _ ↦ le_trans⟩
    exact ⟨_, List.perm_insertionSort _ _, List.pairwise_insertionSort (fun u v : User ↦ u.createdAt ≤ v.createdAt) _⟩

end PostgresStore

end EventPlatform.Users
