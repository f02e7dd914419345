import Mathlib.Tactic.IntervalCases
import EventPlatform.Http.Proxy

namespace EventPlatform.Http

variable {c : UInt8} {u v w x y : List UInt8}

theorem unhex_upperhex {n : UInt8} (h : n.toNat < 16) : unhex (upperhex n) = some n := by
  obtain ⟨k, hk⟩ : ∃ k, n.toNat = k := ⟨_, rfl⟩
  have hn : n = UInt8.ofNat k := by rw [← hk, UInt8.ofNat_toNat]
  rw [hk] at h
  subst hn
  interval_cases k <;> rfl

/-- `unescape` as a relation: the bytes of a text, each of them plain or as two digits. -/
inductive Decodes : List UInt8 → List UInt8 → Prop
  | nil : Decodes [] []
  | plain {c : UInt8} {u x : List UInt8} (hc : c ≠ percent) (h : Decodes u x) : Decodes (c :: u) (c :: x)
  | digits {a b hi lo : UInt8} {u x : List UInt8} (ha : unhex a = some hi) (hb : unhex b = some lo) (h : Decodes u x) :
    Decodes (percent :: a :: b :: u) ((hi * 16 + lo) :: x)

theorem unescape_cons (h : c ≠ percent) (cs : List UInt8) : unescape (c :: cs) = (unescape cs).map (c :: ·) := by
  conv_lhs => unfold unescape
  exact if_neg h

theorem unescape_percent (a b : UInt8) (cs : List UInt8) : unescape (percent :: a :: b :: cs) =
    (unhex a).bind fun a ↦ (unhex b).bind fun b ↦ (unescape cs).map ((a * 16 + b) :: ·) := by
  conv_lhs => unfold unescape
  rw [if_pos rfl]
  dsimp only
  cases unhex a <;> cases unhex b <;> cases unescape cs <;> rfl

theorem decodes_of_unescape (h : unescape u = some x) : Decodes u x := by
  fun_induction unescape u generalizing x with
  | case1 =>
    cases h
    exact .nil
  | case2 a b cs ih =>
    obtain ⟨hi, ha, h⟩ := Option.bind_eq_some_iff.mp h
    obtain ⟨lo, hb, h⟩ := Option.bind_eq_some_iff.mp h
    obtain ⟨x', hx', h⟩ := Option.bind_eq_some_iff.mp h
    cases h
    exact .digits ha hb (ih hx')
  | case3 cs hcs => cases h
  | case4 c cs hc ih =>
    obtain ⟨x', hx', rfl⟩ := Option.map_eq_some_iff.mp h
    exact .plain hc (ih hx')

theorem unescape_eq_some_iff : unescape u = some x ↔ Decodes u x := by
  refine ⟨decodes_of_unescape, fun h ↦ ?_⟩
  induction h with
  | nil => rfl
  | plain hc _ ih => rw [unescape_cons hc, ih, Option.map_some]
  | digits ha hb _ ih => rw [unescape_percent, ha, hb, Option.bind_some, Option.bind_some, ih, Option.map_some]

namespace Decodes

theorem unique (h : Decodes u x) (h' : Decodes u y) : x = y := by
  rw [← unescape_eq_some_iff] at h h'
  exact Option.some.inj (h.symm.trans h')

/-- What follows a text that decodes is decoded by itself. -/
theorem append_iff (h : Decodes u x) : Decodes (u ++ v) w ↔ ∃ y, Decodes v y ∧ x ++ y = w := by
  have happend : unescape (u ++ v) = (unescape v).map (x ++ ·) := by
    induction h with
    | nil => exact Option.map_id'.symm
    | plain hc _ ih =>
      rw [List.cons_append, unescape_cons hc, ih, Option.map_map]
      rfl
    | digits ha hb _ ih =>
      rw [List.cons_append, List.cons_append, List.cons_append, unescape_percent, ha, hb, Option.bind_some,
        Option.bind_some, ih, Option.map_map]
      rfl
  rw [← unescape_eq_some_iff, happend, Option.map_eq_some_iff]
  simp only [unescape_eq_some_iff]

theorem append (h : Decodes u x) (h' : Decodes v y) : Decodes (u ++ v) (x ++ y) := h.append_iff.mpr ⟨y, h', rfl⟩

/-- A slash is no digit, so one at the end stands for itself. -/
theorem of_concat_slash (h : Decodes (u ++ [slash]) w) : ∃ x, w = x ++ [slash] ∧ Decodes u x := by
  generalize ht : u ++ [slash] = t at h
  induction h generalizing u with
  | nil => cases u <;> cases ht
  | @plain c t x hc h ih =>
    cases u with
    | nil =>
      cases ht
      cases h
      exact ⟨[], rfl, .nil⟩
    | cons d u =>
      cases ht
      obtain ⟨x', rfl, hx'⟩ := ih rfl
      exact ⟨_, rfl, .plain hc hx'⟩
  | @digits a b hi lo t x ha hb h ih =>
    match u, ht with
    | [_, _], ht =>
      cases ht
      cases hb
    | _ :: _ :: _ :: u, ht =>
      cases ht
      obtain ⟨x', rfl, hx'⟩ := ih rfl
      exact ⟨_, rfl, .digits ha hb hx'⟩

end Decodes

theorem shouldEscape_percent : shouldEscape percent = true := by decide

theorem escape_append (x y : List UInt8) : escape (x ++ y) = escape x ++ escape y := by
  induction x with
  | nil => rfl
  | cons c x ih =>
    by_cases hc : shouldEscape c
    · simp only [List.cons_append, escape, if_pos hc, ih]
    · simp only [List.cons_append, escape, if_neg hc, ih]

/-- A byte is the number that its two digits spell. -/
theorem Decodes.escaped (c : UInt8) (h : Decodes u x) :
    Decodes (percent :: upperhex (c / 16) :: upperhex (c % 16) :: u) (c :: x) := by
  have hc := c.toNat_lt
  have h16 : UInt8.toNat 16 = 16 := rfl
  have hhi : unhex (upperhex (c / 16)) = some (c / 16) := by
    apply unhex_upperhex
    rw [UInt8.toNat_div, h16]
    omega
  have hlo : unhex (upperhex (c % 16)) = some (c % 16) := by
    apply unhex_upperhex
    rw [UInt8.toNat_mod, h16]
    omega
  have hbyte : c / 16 * 16 + c % 16 = c := by
    apply UInt8.toNat_inj.mp
    rw [UInt8.toNat_add, UInt8.toNat_mul, UInt8.toNat_div, UInt8.toNat_mod, h16]
    omega
  have h' := Decodes.digits hhi hlo h
  rwa [hbyte] at h'

theorem decodes_escape (x : List UInt8) : Decodes (escape x) x := by
  induction x with
  | nil => exact .nil
  | cons c x ih =>
    rw [escape]
    split
    · exact ih.escaped c
    · rename_i hc
      refine .plain ?_ ih
      rintro rfl
      exact hc shouldEscape_percent

/-- A text that stands where the default encoding of what it decodes to stands is that encoding. -/
theorem Decodes.eq_escape (h : Decodes u x) (huv : u ++ v = escape x ++ w) : u = escape x ∧ v = w := by
  induction h with
  | nil => exact ⟨rfl, huv⟩
  | @plain c u x hc h ih =>
    rw [escape] at huv ⊢
    split at huv
    · exact absurd (List.cons.inj huv).1 hc
    · rename_i hplain
      obtain ⟨hu, hv⟩ := ih (List.cons.inj huv).2
      rw [if_neg hplain, hu]
      exact ⟨rfl, hv⟩
  | @digits a b hi lo u x ha hb h ih =>
    rw [escape] at huv ⊢
    split at huv
    · rename_i hc
      injection huv with _ huv
      injection huv with ha' huv
      injection huv with hb' huv
      obtain ⟨hu, hv⟩ := ih huv
      rw [if_pos hc, ha', hb', hu]
      exact ⟨rfl, hv⟩
    · rename_i hc
      have hp : percent = hi * 16 + lo := (List.cons.inj huv).1
      rw [← hp] at hc
      exact absurd shouldEscape_percent hc

theorem Url.decodes_escapedPath (u : Url) : Decodes u.escapedPath u.path := by
  rw [escapedPath]
  split
  · rename_i h
    exact unescape_eq_some_iff.mp h.2.2
  · split
    · rename_i h
      rw [h]
      exact unescape_eq_some_iff.mp rfl
    · exact decodes_escape u.path

def trimSlash (p : List UInt8) : List UInt8 := if p.getLast? = some slash then p.dropLast else p

theorem trimSlash_concat (p : List UInt8) : trimSlash (p ++ [slash]) = p := by
  rw [trimSlash, if_pos List.getLast?_concat, List.dropLast_concat]

theorem trimSlash_of_ne (h : u.getLast? ≠ some slash) : trimSlash u = u := if_neg h

theorem singleJoiningSlash_of_rooted (a : List UInt8) (h : u.head? = some slash) :
    singleJoiningSlash a u = trimSlash a ++ u := by
  obtain ⟨t, rfl⟩ := List.head?_eq_some_iff.mp h
  by_cases ha : a.getLast? = some slash
  · obtain ⟨p, rfl⟩ := List.getLast?_eq_some_iff.mp ha
    simp [singleJoiningSlash, trimSlash_concat]
  · simp [singleJoiningSlash, trimSlash_of_ne, ha]

theorem Decodes.rooted (h : Decodes u x) (hu : u.head? = some slash) : x.head? = some slash := by
  cases h with
  | nil => cases hu
  | plain _ _ => exact hu
  | digits _ _ _ => cases hu

theorem Decodes.trimSlash (h : Decodes u x) : ∃ y, Decodes (trimSlash u) y ∧
    (u.getLast? = some slash → x = y ++ [slash]) ∧ (u.getLast? ≠ some slash → x = y) := by
  by_cases hu : u.getLast? = some slash
  · obtain ⟨p, rfl⟩ := List.getLast?_eq_some_iff.mp hu
    obtain ⟨y, rfl, hy⟩ := h.of_concat_slash
    rw [trimSlash_concat]
    exact ⟨y, hy, fun _ ↦ rfl, fun hne ↦ absurd hu hne⟩
  · rw [trimSlash_of_ne hu]
    exact ⟨x, h, fun hs ↦ absurd hs hu, fun _ ↦ rfl⟩

theorem trimSlash_escape (x : List UInt8) : trimSlash (escape x) = escape (trimSlash x) := by
  by_cases hx : x.getLast? = some slash
  · obtain ⟨y, rfl⟩ := List.getLast?_eq_some_iff.mp hx
    have hslash : escape [slash] = [slash] := by decide
    rw [escape_append, hslash, trimSlash_concat, trimSlash_concat]
  · have hne : (escape x).getLast? ≠ some slash := by
      intro hu
      obtain ⟨u, hu⟩ := List.getLast?_eq_some_iff.mp hu
      have h := decodes_escape x
      rw [hu] at h
      obtain ⟨y, rfl, -⟩ := h.of_concat_slash
      exact hx List.getLast?_concat
    rw [trimSlash_of_ne hne, trimSlash_of_ne hx]

/-- A rooted path goes behind that of the target, less its slash, and so does its encoding where one is kept. -/
theorem exists_joinURLPath (a b : Url) (hb : b.escapedPath.head? = some slash) :
    ∃ x, Decodes (trimSlash a.escapedPath) x ∧ (joinURLPath a b).1 = x ++ b.path ∧
      ((joinURLPath a b).2 = [] ∨ (joinURLPath a b).2 = trimSlash a.escapedPath ++ b.escapedPath) := by
  have hpath : b.path.head? = some slash := b.decodes_escapedPath.rooted hb
  unfold joinURLPath
  split
  · rename_i hraw
    refine ⟨trimSlash a.path, ?_, singleJoiningSlash_of_rooted a.path hpath, .inl rfl⟩
    rw [Url.escapedPath, if_neg fun h ↦ h.1 hraw.1]
    split
    · rename_i hstar
      rw [hstar]
      exact unescape_eq_some_iff.mp rfl
    · rw [trimSlash_escape]
      exact decodes_escape _
  · obtain ⟨x, hx, hslash, hplain⟩ := a.decodes_escapedPath.trimSlash
    obtain ⟨t, ht⟩ := List.head?_eq_some_iff.mp hb
    obtain ⟨p, hp⟩ := List.head?_eq_some_iff.mp hpath
    refine ⟨x, hx, ?_⟩
    by_cases ha : a.escapedPath.getLast? = some slash
    · obtain ⟨u, hu⟩ := List.getLast?_eq_some_iff.mp ha
      simp [hslash ha, hp, ht, hu, trimSlash_concat]
    · simp [ha, hb, hplain ha, trimSlash_of_ne ha]

end EventPlatform.Http
