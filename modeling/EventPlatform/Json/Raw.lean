import EventPlatform.Json.Encode

namespace EventPlatform.Json

/-- The members of an object with the texts of their values, as they are handed to an unmarshaller. -/
def rawMembers : ℕ → List Char → Option (List (String × List Char) × List Char)
  | 0, _ => none
  | fuel + 1, cs =>
    match skipSpace cs with
    | '"' :: cs => do
      let (key, cs) ← stringTail cs
      match skipSpace cs with
      | ':' :: cs =>
        let text := skipSpace cs
        let (_, cs) ← value fuel text
        let m := (String.ofList key, text.take (text.length - cs.length))
        match skipSpace cs with
        | ',' :: cs =>
          let (ms, rest) ← rawMembers fuel cs
          return (m :: ms, rest)
        | '}' :: rest => return ([m], rest)
        | _ => none
      | _ => none
    | _ => none

def rawObject (text : String) : Option (List (String × List Char)) :=
  match skipSpace text.toList with
  | '{' :: cs =>
    match skipSpace cs with
    | '}' :: rest => if skipSpace rest = [] then some [] else none
    | cs =>
      match rawMembers (2 * text.length + 2) cs with
      | some (ms, rest) => if skipSpace rest = [] then some ms else none
      | none => none
  | _ => none

/-- A field that reads the text of its value by itself. -/
structure RawField (σ : Type) where
  name : String
  store : List Char → σ → Option σ

variable {σ : Type}

def rawString (name : String) (put : String → σ → σ) : RawField σ where
  name
  store t s := match parse (String.ofList t) with
    | some (.string x) => some (put x s)
    | some .null => some s
    | _ => none

/-- A field of type `json.RawMessage`. -/
def rawMessage (name : String) (put : List Char → σ → σ) : RawField σ := ⟨name, fun t s ↦ some (put t s)⟩

def rawField (fields : List (RawField σ)) (key : String) : Option (RawField σ) :=
  match fields.find? fun f ↦ f.name = key with
  | some f => some f
  | none => fields.find? fun f ↦ foldName f.name = foldName key

def storeRaw (fields : List (RawField σ)) (s : σ) (m : String × List Char) : Option σ :=
  match rawField fields m.1 with
  | some f => f.store m.2 s
  | none => some s

/-- `json.Unmarshal` into a record. The text is checked as a whole before anything is stored. -/
def unmarshal (fields : List (RawField σ)) (zero : σ) (text : String) : Option σ :=
  match parse text with
  | none => none
  | some .null => some zero
  | some _ => (rawObject text).bind fun ms ↦ ms.foldlM (storeRaw fields) zero

variable {t : List Char} {v : Value} {key : String} {fuel : ℕ}

theorem rawMembers_last (h : Reads t v) (hfuel : 2 * t.length ≤ fuel) (rest : List Char) :
    rawMembers (fuel + 1) (quote key ++ ':' :: (t ++ '}' :: rest)) = some ([(key, t)], rest) := by
  have hkey := stringTail_flatMap key.toList (':' :: (t ++ '}' :: rest))
  have hread := h.read fuel ('}' :: rest) hfuel (endsNumber_cons (by decide) rest)
  rw [quote, List.cons_append, List.append_assoc, List.singleton_append, rawMembers, skipSpace_cons rfl]
  simp only [hkey, Option.bind_eq_bind, Option.bind_some, skipSpace_cons (c := ':') rfl, h.skipSpace_append, hread,
    skipSpace_cons (c := '}') rfl, String.ofList_toList, List.length_append, Nat.add_sub_cancel, List.take_left]
  rfl

theorem rawMembers_more (h : Reads t v) (hfuel : 2 * t.length ≤ fuel) (cs : List Char) :
    rawMembers (fuel + 1) (quote key ++ ':' :: (t ++ ',' :: cs)) =
      (rawMembers fuel cs).map fun p ↦ ((key, t) :: p.1, p.2) := by
  have hkey := stringTail_flatMap key.toList (':' :: (t ++ ',' :: cs))
  have hread := h.read fuel (',' :: cs) hfuel (endsNumber_cons (by decide) cs)
  rw [quote, List.cons_append, List.append_assoc, List.singleton_append, rawMembers, skipSpace_cons rfl]
  simp only [hkey, Option.bind_eq_bind, Option.bind_some, skipSpace_cons (c := ':') rfl, h.skipSpace_append, hread,
    skipSpace_cons (c := ',') rfl, String.ofList_toList, List.length_append, Nat.add_sub_cancel, List.take_left]
  cases rawMembers fuel cs <;> rfl

theorem rawMembers_membersText {ms : List (String × List Char)} (h : ∀ m ∈ ms, ∃ v, Reads m.2 v) (hne : ms ≠ [])
    (hfuel : 2 * (membersText ms).length ≤ fuel) (rest : List Char) :
    rawMembers fuel (membersText ms ++ rest) = some (ms, rest) := by
  induction ms generalizing fuel with
  | nil => exact absurd rfl hne
  | cons m ms ih =>
    obtain ⟨key, t⟩ := m
    obtain ⟨v, hv⟩ : ∃ v, Reads t v := h _ List.mem_cons_self
    cases ms with
    | nil =>
      have htext : membersText [(key, t)] = quote key ++ ':' :: (t ++ ['}']) := rfl
      simp only [htext, List.length_append, List.length_cons] at hfuel
      obtain ⟨fuel, rfl⟩ : ∃ n, fuel = n + 1 := ⟨fuel - 1, by omega⟩
      rw [htext, List.append_assoc, List.cons_append, List.append_assoc]
      exact rawMembers_last hv (by omega) rest
    | cons u us =>
      have htext : membersText ((key, t) :: u :: us) = quote key ++ ':' :: (t ++ ',' :: membersText (u :: us)) := rfl
      simp only [htext, List.length_append, List.length_cons] at hfuel
      obtain ⟨fuel, rfl⟩ : ∃ n, fuel = n + 1 := ⟨fuel - 1, by omega⟩
      rw [htext, List.append_assoc, List.cons_append, List.append_assoc, List.cons_append,
        rawMembers_more hv (by omega), ih (fun m hm ↦ h m (List.mem_cons_of_mem _ hm)) (by simp) (by omega),
        Option.map_some]

/-- The members of a written object are found with their own texts. -/
theorem rawObject_objectText {ms : List (String × List Char)} (h : ∀ m ∈ ms, ∃ v, Reads m.2 v) :
    rawObject (String.ofList (objectText ms)) = some ms := by
  cases ms with
  | nil => rfl
  | cons m ms =>
    obtain ⟨l, hl⟩ : ∃ l, membersText (m :: ms) = '"' :: l := by
      cases ms <;> exact ⟨_, rfl⟩
    have hfuel : 2 * (membersText (m :: ms)).length ≤ 2 * (objectText (m :: ms)).length + 2 := by
      simp only [objectText, List.length_cons]
      omega
    have hmembers := rawMembers_membersText h (by simp) hfuel []
    rw [List.append_nil] at hmembers
    rw [rawObject, String.toList_ofList, String.length_ofList, objectText, skipSpace_cons rfl]
    simp only [hl, skipSpace_cons (c := '"') rfl]
    rw [objectText, hl] at hmembers
    split
    · rename_i heq
      exact absurd (List.cons.inj heq).1 (by decide)
    · rw [hmembers]
      rfl

/-- A written object is read member by member. -/
theorem unmarshal_objectText {ms : List (String × List Char)} (h : ∀ m ∈ ms, ∃ v, Reads m.2 v)
    (fields : List (RawField σ)) (zero : σ) :
    unmarshal fields zero (String.ofList (objectText ms)) = ms.foldlM (storeRaw fields) zero := by
  have : Nonempty Value := ⟨.null⟩
  choose! f hf using h
  have hall : List.Forall₂ Reads.Member ms (ms.map fun m ↦ (m.1, f m)) :=
    List.forall₂_map_right_iff.mpr (List.forall₂_same.mpr fun m hm ↦ ⟨rfl, hf m hm⟩)
  rw [unmarshal, (Reads.object hall).parse, rawObject_objectText fun m hm ↦ ⟨f m, hf m hm⟩]
  rfl

/-- A member with the name of a field goes to that field. -/
theorem storeRaw_of_mem {fields : List (RawField σ)} (hnames : (fields.map RawField.name).Nodup) {f : RawField σ}
    (hf : f ∈ fields) (t : List Char) (s : σ) : storeRaw fields s (f.name, t) = f.store t s := by
  have hfind : fields.find? (fun g ↦ g.name = f.name) = some f := by
    induction fields with
    | nil => cases hf
    | cons g fields ih =>
      rw [List.map_cons, List.nodup_cons] at hnames
      obtain rfl | hf := List.mem_cons.mp hf
      · simp
      · have hne : g.name ≠ f.name := fun h ↦ hnames.1 (h ▸ List.mem_map_of_mem hf)
        rw [List.find?_cons_of_neg (by simpa using hne)]
        exact ih hnames.2 hf
  rw [storeRaw, rawField, hfind]

theorem rawString_quote (name : String) (put : String → σ → σ) (x : String) (s : σ) :
    (rawString name put).store (quote x) s = some (put x s) := by
  simp [rawString, (Reads.string x).parse]

end EventPlatform.Json
