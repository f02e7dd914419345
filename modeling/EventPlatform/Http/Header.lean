import Mathlib

namespace EventPlatform.Http

def isTokenChar (c : Char) : Bool :=
  c.isAlphanum || "!#$%&'*+-.^_`|~".toList.contains c

/-- Upper case at the start and after every hyphen, lower case elsewhere. -/
def capitalise : Bool → List Char → List Char
  | _, [] => []
  | upper, c :: cs => (if upper then c.toUpper else c.toLower) :: capitalise (c = '-') cs

/-- `textproto.CanonicalMIMEHeaderKey`. What is no field name stays as it is. -/
def canonicalMIMEHeaderKey (s : String) : String :=
  if s.toList.all isTokenChar then String.ofList (capitalise true s.toList) else s

/-- `http.Header`: for each canonical name its values in order. -/
abbrev Header := Std.ExtTreeMap String (List String)

namespace Header

def values (h : Header) (key : String) : List String := h[key]?.getD []

def add (h : Header) (name value : String) : Header :=
  h.insert (canonicalMIMEHeaderKey name) (h.values (canonicalMIMEHeaderKey name) ++ [value])

def set (h : Header) (name value : String) : Header := h.insert (canonicalMIMEHeaderKey name) [value]

def del (h : Header) (name : String) : Header := h.erase (canonicalMIMEHeaderKey name)

def get (h : Header) (name : String) : String := (h.values (canonicalMIMEHeaderKey name)).headD ""

def ofLines (lines : List (String × String)) : Header := lines.foldl (fun h l ↦ h.add l.1 l.2) ∅

variable {h h' : Header} {k name value : String}

theorem getElem?_set : (h.set name value)[k]? = if canonicalMIMEHeaderKey name = k then some [value] else h[k]? := by
  simp [set, Std.ExtTreeMap.getElem?_insert]

theorem getElem?_del : (h.del name)[k]? = if canonicalMIMEHeaderKey name = k then none else h[k]? := by
  simp [del, Std.ExtTreeMap.getElem?_erase]

theorem getElem?_add_of_ne (hk : canonicalMIMEHeaderKey name ≠ k) : (h.add name value)[k]? = h[k]? := by
  simp [add, Std.ExtTreeMap.getElem?_insert, hk]

theorem add_congr (hk : h[k]? = h'[k]?) : (h.add name value)[k]? = (h'.add name value)[k]? := by
  by_cases hn : canonicalMIMEHeaderKey name = k
  · subst hn
    simp [add, values, hk]
  · rw [getElem?_add_of_ne hn, getElem?_add_of_ne hn, hk]

/-- The lines with other names do not show under a name. -/
theorem getElem?_ofLines_filter (P : String → Bool) (hP : P k = true) (lines : List (String × String)) :
    (ofLines lines)[k]? = (ofLines (lines.filter fun l ↦ P (canonicalMIMEHeaderKey l.1)))[k]? := by
  suffices hfold : ∀ h h' : Header, h[k]? = h'[k]? → (lines.foldl (fun h l ↦ h.add l.1 l.2) h)[k]? =
      ((lines.filter fun l ↦ P (canonicalMIMEHeaderKey l.1)).foldl (fun h l ↦ h.add l.1 l.2) h')[k]? from
    hfold ∅ ∅ rfl
  induction lines with
  | nil => exact fun h h' hk ↦ hk
  | cons l lines ih =>
    intro h h' hk
    cases hl : P (canonicalMIMEHeaderKey l.1) with
    | true =>
      simp only [List.filter_cons, hl, if_true]
      exact ih _ _ (add_congr hk)
    | false =>
      have hne : canonicalMIMEHeaderKey l.1 ≠ k := by
        rintro rfl
        simp [hl] at hP
      simp only [List.filter_cons, hl, Bool.false_eq_true, if_false]
      exact ih _ _ ((getElem?_add_of_ne hne).trans hk)

theorem getElem?_ofLines_cons_of_ne {l : String × String} (hk : canonicalMIMEHeaderKey l.1 ≠ k)
    (lines : List (String × String)) : (ofLines (l :: lines))[k]? = (ofLines lines)[k]? := by
  rw [getElem?_ofLines_filter (· = k) (by simp), List.filter_cons_of_neg (by simpa using hk),
    ← getElem?_ofLines_filter (· = k) (by simp)]

theorem getElem?_ofLines_cons_self {l : String × String} {lines : List (String × String)}
    (h : ∀ m ∈ lines, canonicalMIMEHeaderKey m.1 ≠ canonicalMIMEHeaderKey l.1) :
    (ofLines (l :: lines))[canonicalMIMEHeaderKey l.1]? = some [l.2] := by
  have hfilter : lines.filter (fun m ↦ decide (canonicalMIMEHeaderKey m.1 = canonicalMIMEHeaderKey l.1)) = [] := by
    simpa using h
  rw [getElem?_ofLines_filter (· = canonicalMIMEHeaderKey l.1) (by simp), List.filter_cons_of_pos (by simp), hfilter]
  simp [ofLines, add, values]

end Header

section Canonical

def recase (upper : Bool) (c : Char) : Char := if upper then c.toUpper else c.toLower

theorem recase_recase (upper : Bool) (c : Char) : recase upper (recase upper c) = recase upper c := by
  cases upper with
  | true => exact Char.toUpper_toUpper_eq_toUpper c
  | false => exact Char.toLower_toLower_eq_toLower c

theorem recase_cases (upper : Bool) (c : Char) : recase upper c = c ∨ c.isAlpha ∧ (recase upper c).isAlpha := by
  cases upper with
  | true =>
    cases hc : c.isLower with
    | true => exact .inr ⟨by simp [Char.isAlpha, hc], by simp [recase, Char.isAlpha, hc]⟩
    | false => exact .inl (Char.toUpper_eq_of_not_isLower (by simp [hc]))
  | false =>
    cases hc : c.isUpper with
    | true => exact .inr ⟨by simp [Char.isAlpha, hc], by simp [recase, Char.isAlpha, hc]⟩
    | false => exact .inl (Char.toLower_eq_of_not_isUpper (by simp [hc]))

theorem recase_eq_hyphen {upper : Bool} {c : Char} : recase upper c = '-' ↔ c = '-' := by
  constructor
  · intro h
    obtain hc | ⟨-, hc⟩ := recase_cases upper c
    · exact hc.symm.trans h
    · rw [h] at hc
      exact absurd hc (by decide)
  · rintro rfl
    cases upper <;> decide

theorem isTokenChar_recase (upper : Bool) (c : Char) : isTokenChar (recase upper c) = isTokenChar c := by
  obtain hc | ⟨hc, hc'⟩ := recase_cases upper c
  · rw [hc]
  · simp [isTokenChar, Char.isAlphanum, hc, hc']

theorem capitalise_cons (upper : Bool) (c : Char) (cs : List Char) :
    capitalise upper (c :: cs) = recase upper c :: capitalise (c = '-') cs := rfl

theorem capitalise_capitalise (upper : Bool) (cs : List Char) :
    capitalise upper (capitalise upper cs) = capitalise upper cs := by
  induction cs generalizing upper with
  | nil => rfl
  | cons c cs ih =>
    rw [capitalise_cons, capitalise_cons, recase_recase, decide_eq_decide.mpr recase_eq_hyphen, ih]

theorem all_capitalise (upper : Bool) (cs : List Char) :
    (capitalise upper cs).all isTokenChar = cs.all isTokenChar := by
  induction cs generalizing upper with
  | nil => rfl
  | cons c cs ih => rw [capitalise_cons, List.all_cons, List.all_cons, isTokenChar_recase, ih]

theorem canonical_canonical (s : String) :
    canonicalMIMEHeaderKey (canonicalMIMEHeaderKey s) = canonicalMIMEHeaderKey s := by
  by_cases hs : s.toList.all isTokenChar
  · have hs' : canonicalMIMEHeaderKey s = String.ofList (capitalise true s.toList) := if_pos hs
    rw [hs', canonicalMIMEHeaderKey, String.toList_ofList, all_capitalise, if_pos hs, capitalise_capitalise]
  · have hs' : canonicalMIMEHeaderKey s = s := if_neg hs
    rw [hs', hs']

end Canonical

namespace Header

variable {h : Header}

def Canonical (h : Header) : Prop := ∀ k ∈ h, canonicalMIMEHeaderKey k = k

theorem Canonical.add (hh : h.Canonical) (name value : String) : (h.add name value).Canonical := by
  intro k hk
  rw [Header.add, Std.ExtTreeMap.mem_insert] at hk
  obtain hk | hk := hk
  · rw [← Std.LawfulEqCmp.eq_of_compare hk, canonical_canonical]
  · exact hh k hk

theorem canonical_ofLines (lines : List (String × String)) : (ofLines lines).Canonical := by
  suffices hfold : ∀ h : Header, h.Canonical → (lines.foldl (fun h l ↦ h.add l.1 l.2) h).Canonical from
    hfold ∅ fun k hk ↦ absurd hk Std.ExtTreeMap.not_mem_empty
  induction lines with
  | nil => exact fun h hh ↦ hh
  | cons l lines ih => exact fun h hh ↦ ih _ (hh.add l.1 l.2)

/-- The fields one by one. -/
def lines (h : Header) : List (String × String) := h.toList.flatMap fun e ↦ e.2.map fun v ↦ (e.1, v)

def addAll (h : Header) (lines : List (String × String)) : Header := lines.foldl (fun h l ↦ h.add l.1 l.2) h

theorem values_add (h : Header) (name value k : String) :
    (h.add name value).values k = h.values k ++ if canonicalMIMEHeaderKey name = k then [value] else [] := by
  split_ifs with hk
  · subst hk
    simp [values, add]
  · rw [values, getElem?_add_of_ne hk, List.append_nil, values]

theorem values_addAll (h : Header) (lines : List (String × String)) (k : String) :
    (h.addAll lines).values k =
      h.values k ++ (lines.filter fun l ↦ canonicalMIMEHeaderKey l.1 = k).map (·.2) := by
  induction lines generalizing h with
  | nil => simp [addAll]
  | cons l lines ih =>
    change ((h.add l.1 l.2).addAll lines).values k = _
    rw [ih, values_add, List.append_assoc, List.filter_cons]
    split_ifs with hk hk' hk' <;> simp_all

theorem values_lines (hh : h.Canonical) (k : String) :
    (h.lines.filter fun l ↦ canonicalMIMEHeaderKey l.1 = k).map (·.2) = h.values k := by
  have hmem (e : String × List String) : e ∈ h.toList ↔ h[e.1]? = some e.2 :=
    Std.ExtTreeMap.mem_toList_iff_getElem?_eq_some
  have hfield : ∀ e ∈ h.toList, ((e.2.map fun v ↦ (e.1, v)).filter fun l ↦ canonicalMIMEHeaderKey l.1 = k).map (·.2) =
      if e.1 = k then e.2 else [] := by
    intro e he
    have hkey : canonicalMIMEHeaderKey e.1 = e.1 :=
      hh e.1 (Std.ExtTreeMap.mem_iff_isSome_getElem?.mpr (by simp [(hmem e).mp he]))
    split_ifs with hk
    · subst hk
      simp [List.filter_map, Function.comp_def, hkey]
    · simp [List.filter_map, Function.comp_def, hkey, hk]
  rw [lines, List.filter_flatMap, List.map_flatMap, List.flatMap_congr hfield, values]
  cases hk : h[k]? with
  | none =>
    refine List.flatMap_eq_nil_iff.mpr fun e he ↦ if_neg fun hek ↦ ?_
    rw [← hek, (hmem e).mp he] at hk
    cases hk
  | some vs =>
    -- The field stands once among the entries.
    obtain ⟨s, t, hst⟩ := List.append_of_mem ((hmem (k, vs)).mpr hk)
    have hpair := Std.ExtTreeMap.distinct_keys_toList (t := h)
    rw [hst, List.pairwise_append, List.pairwise_cons] at hpair
    have hs : s.flatMap (fun e ↦ if e.1 = k then e.2 else []) = [] := by
      refine List.flatMap_eq_nil_iff.mpr fun e he ↦ if_neg fun hek ↦ ?_
      exact hpair.2.2 e he _ List.mem_cons_self (by simp [hek])
    have ht : t.flatMap (fun e ↦ if e.1 = k then e.2 else []) = [] := by
      refine List.flatMap_eq_nil_iff.mpr fun e he ↦ if_neg fun hek ↦ ?_
      exact hpair.2.1.1 e he (by simp [hek])
    simp [hst, List.flatMap_append, hs, ht]

end Header

end EventPlatform.Http
