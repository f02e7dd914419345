import EventPlatform.Json

namespace EventPlatform.Json

/-- What stands for a character in a string that `json.Marshal` writes: HTML and line separators are escaped too. -/
def escapeChar (c : Char) : List Char :=
  if c = '"' ∨ c = '\\' then ['\\', c]
  else if c = '\x08' then ['\\', 'b']
  else if c = '\x0c' then ['\\', 'f']
  else if c = '\n' then ['\\', 'n']
  else if c = '\r' then ['\\', 'r']
  else if c = '\t' then ['\\', 't']
  else if c.toNat < 0x20 ∨ c ∈ ['<', '>', '&', '\u2028', '\u2029'] then
    ['\\', 'u', (c.toNat / 4096).digitChar, (c.toNat / 256 % 16).digitChar, (c.toNat / 16 % 16).digitChar,
      (c.toNat % 16).digitChar]
  else [c]

def quote (s : String) : List Char := '"' :: (s.toList.flatMap escapeChar ++ ['"'])

/-- The elements of an array, with what closes it. -/
def elementsText : List (List Char) → List Char
  | [] => [']']
  | [t] => t ++ [']']
  | t :: ts => t ++ ',' :: elementsText ts

def arrayText (ts : List (List Char)) : List Char := '[' :: elementsText ts

def membersText : List (String × List Char) → List Char
  | [] => ['}']
  | [m] => quote m.1 ++ ':' :: (m.2 ++ ['}'])
  | m :: ms => quote m.1 ++ ':' :: (m.2 ++ ',' :: membersText ms)

def objectText (ms : List (String × List Char)) : List Char := '{' :: membersText ms

mutual

/-- The text that `json.Marshal` writes for a value. -/
def encode : Value → List Char
  | .null => "null".toList
  | .bool true => "true".toList
  | .bool false => "false".toList
  | .number literal => literal.toList
  | .string s => quote s
  | .array elements => arrayText (encodeElements elements)
  | .object members => objectText (encodeMembers members)

def encodeElements : List Value → List (List Char)
  | [] => []
  | v :: vs => encode v :: encodeElements vs

def encodeMembers : List (String × Value) → List (String × List Char)
  | [] => []
  | (key, v) :: ms => (key, encode v) :: encodeMembers ms

end

example : encode (.object [("a", .array [.null, .bool true]), ("b\n<", .number "-1.5e3")]) =
    "\x7b\"a\":[null,true],\"b\\n\\u003c\":-1.5e3\x7d".toList := by decide

section Strings

theorem hexValue_digitChar {n : ℕ} (h : n < 16) : hexValue n.digitChar = some n := by
  interval_cases n <;> rfl

theorem unit_digitChar {n : ℕ} (h : n < 65536) : unit (n / 4096).digitChar (n / 256 % 16).digitChar
    (n / 16 % 16).digitChar (n % 16).digitChar = some n := by
  simp only [unit, hexValue_digitChar (show n / 4096 < 16 by omega),
    hexValue_digitChar (show n / 256 % 16 < 16 by omega), hexValue_digitChar (show n / 16 % 16 < 16 by omega),
    hexValue_digitChar (show n % 16 < 16 by omega)]
  change some _ = some n
  congr 1
  omega

/-- A code unit that is no surrogate stands for its character, whatever follows. -/
theorem stringTail_unit {a b c d : Char} {n : ℕ} (h : unit a b c d = some n) (hn : n < 0xD800) (cs : List Char) :
    stringTail ('\\' :: 'u' :: a :: b :: c :: d :: cs) =
      (stringTail cs).map fun p ↦ (Char.ofNat n :: p.1, p.2) := by
  have hsur : ∀ lo, surrogates n lo = none := fun lo ↦ if_neg (by omega)
  have hchar : unitChar n = Char.ofNat n := if_neg (by omega)
  rw [stringTail]
  simp only [h, hchar]
  split
  · rename_i a' b' c' d' cs'
    have hpair : (unit a' b' c' d').bind (surrogates n) = none := by
      cases unit a' b' c' d' with
      | none => rfl
      | some lo => exact hsur lo
    rw [hpair]
  · rfl

theorem stringTail_plain {c : Char} (hq : c ≠ '"') (hb : c ≠ '\\') (hc : ¬ c.toNat < 0x20) (cs : List Char) :
    stringTail (c :: cs) = (stringTail cs).map fun p ↦ (c :: p.1, p.2) := by
  rw [stringTail.eq_def]
  split
  · simp_all
  · simp_all
  · simp_all
  · simp_all
  · simp_all

theorem stringTail_escapeChar (c : Char) (cs : List Char) :
    stringTail (escapeChar c ++ cs) = (stringTail cs).map fun p ↦ (c :: p.1, p.2) := by
  unfold escapeChar
  split_ifs with hq hb hf hn hr ht hu
  · obtain rfl | rfl := hq <;> simp [stringTail, escape]
  · subst hb
    simp [stringTail, escape]
  · subst hf
    simp [stringTail, escape]
  · subst hn
    simp [stringTail, escape]
  · subst hr
    simp [stringTail, escape]
  · subst ht
    simp [stringTail, escape]
  · have hlt : c.toNat < 0xD800 := by
      obtain hlt | hmem := hu
      · omega
      · simp only [List.mem_cons, List.not_mem_nil, or_false] at hmem
        obtain rfl | rfl | rfl | rfl | rfl := hmem <;> decide
    have h := stringTail_unit (unit_digitChar (n := c.toNat) (by omega)) hlt cs
    rwa [Char.ofNat_toNat] at h
  · rw [not_or] at hq hu
    exact stringTail_plain hq.1 hq.2 hu.1 cs

theorem stringTail_flatMap (s cs : List Char) :
    stringTail (s.flatMap escapeChar ++ '"' :: cs) = some (s, cs) := by
  induction s with
  | nil => rfl
  | cons c s ih => rw [List.flatMap_cons, List.append_assoc, stringTail_escapeChar, ih, Option.map_some]

end Strings

section Numbers

/-- What may follow a number without becoming part of it. -/
def EndsNumber (cs : List Char) : Prop := ∀ c ∈ cs.head?, c.isDigit = false ∧ c ≠ '.' ∧ c ≠ 'e' ∧ c ≠ 'E'

variable {cs ds r rest : List Char}

theorem digits_append (h : digits cs = (ds, r)) (hrest : EndsNumber rest) : digits (cs ++ rest) = (ds, r ++ rest) := by
  unfold digits at *
  rw [List.span_eq_takeWhile_dropWhile, Prod.mk.injEq] at *
  obtain ⟨rfl, rfl⟩ := h
  induction cs with
  | nil =>
    cases rest with
    | nil => exact ⟨rfl, rfl⟩
    | cons c rest => simp [(hrest c rfl).1]
  | cons c cs ih =>
    cases hc : c.isDigit with
    | false => simp [hc]
    | true => simp [hc, ih]

/-- Every part of a number has at least one digit, after what announces it. -/
def someDigits (announced cs : List Char) : Option (List Char × List Char) :=
  if (digits cs).1 = [] then none else some (announced ++ (digits cs).1, (digits cs).2)

theorem someDigits_append {announced : List Char} (h : someDigits announced cs = some (ds, r))
    (hrest : EndsNumber rest) : someDigits announced (cs ++ rest) = some (ds, r ++ rest) := by
  have happend : digits (cs ++ rest) = ((digits cs).1, (digits cs).2 ++ rest) := digits_append rfl hrest
  unfold someDigits at *
  rw [happend]
  split_ifs at h with hnil
  cases h
  exact if_neg hnil

theorem numberInt_eq {c : Char} (hc : c ≠ '0') (cs : List Char) : numberInt (c :: cs) = someDigits [] (c :: cs) := by
  unfold someDigits
  rcases hd : digits (c :: cs) with ⟨_ | ⟨d, ds⟩, r⟩ <;> simp [numberInt, hc, hd]

theorem numberFrac_point (cs : List Char) : numberFrac ('.' :: cs) = someDigits ['.'] cs := by
  unfold someDigits
  rcases hd : digits cs with ⟨_ | ⟨d, ds⟩, r⟩ <;> simp [numberFrac, hd]

/-- The sign of an exponent. -/
def signed : List Char → List Char × List Char
  | '+' :: cs => (['+'], cs)
  | '-' :: cs => (['-'], cs)
  | cs => ([], cs)

theorem signed_append (hne : cs ≠ []) (rest : List Char) :
    signed (cs ++ rest) = ((signed cs).1, (signed cs).2 ++ rest) := by
  obtain ⟨c, cs, rfl⟩ := List.exists_cons_of_ne_nil hne
  by_cases hp : c = '+'
  · subst hp
    rfl
  · by_cases hm : c = '-'
    · subst hm
      rfl
    · simp [signed, hp, hm]

/-- The digits of an exponent, after its letter and its sign. -/
def expDigits (c : Char) (sign cs : List Char) : Option (List Char × List Char) :=
  match digits cs with
  | ([], _) => none
  | (ds, rest) => some (c :: sign ++ ds, rest)

theorem numberExp_eq {c : Char} (hc : c = 'e' ∨ c = 'E') (cs : List Char) :
    numberExp (c :: cs) = someDigits (c :: (signed cs).1) (signed cs).2 := by
  have hexp : numberExp (c :: cs) = expDigits c (signed cs).1 (signed cs).2 := if_pos hc
  rw [hexp, expDigits, someDigits]
  rcases digits (signed cs).2 with ⟨_ | ⟨d, ds⟩, r⟩ <;> rfl

theorem numberInt_append (h : numberInt cs = some (ds, r)) (hrest : EndsNumber rest) :
    numberInt (cs ++ rest) = some (ds, r ++ rest) := by
  cases cs with
  | nil => cases h
  | cons c cs =>
    by_cases hc : c = '0'
    · subst hc
      cases h
      rfl
    · rw [numberInt_eq hc] at h
      rw [List.cons_append, numberInt_eq hc]
      exact someDigits_append h hrest

theorem numberFrac_append (h : numberFrac cs = some (ds, r)) (hrest : EndsNumber rest) :
    numberFrac (cs ++ rest) = some (ds, r ++ rest) := by
  have hplain : ∀ {c : Char} (l : List Char), c ≠ '.' → numberFrac (c :: l) = some ([], c :: l) := by
    intro c l hc
    simp [numberFrac, hc]
  cases cs with
  | nil =>
    cases h
    cases rest with
    | nil => rfl
    | cons c rest => exact hplain rest (hrest c rfl).2.1
  | cons c cs =>
    by_cases hc : c = '.'
    · subst hc
      rw [numberFrac_point] at h
      rw [List.cons_append, numberFrac_point]
      exact someDigits_append h hrest
    · rw [hplain cs hc] at h
      cases h
      exact hplain _ hc

theorem numberExp_append (h : numberExp cs = some (ds, r)) (hrest : EndsNumber rest) :
    numberExp (cs ++ rest) = some (ds, r ++ rest) := by
  have hplain : ∀ {c : Char} (l : List Char), ¬ (c = 'e' ∨ c = 'E') → numberExp (c :: l) = some ([], c :: l) :=
    fun l hc ↦ if_neg hc
  cases cs with
  | nil =>
    cases h
    cases rest with
    | nil => rfl
    | cons c rest => exact hplain rest (not_or.mpr (hrest c rfl).2.2)
  | cons c cs =>
    by_cases hc : c = 'e' ∨ c = 'E'
    · rw [numberExp_eq hc] at h
      have hne : cs ≠ [] := by
        rintro rfl
        cases h
      rw [List.cons_append, numberExp_eq hc, signed_append hne]
      exact someDigits_append h hrest
    · rw [hplain cs hc] at h
      cases h
      exact hplain _ hc

/-- A number without its sign. -/
def unsigned (sign cs : List Char) : Option (Value × List Char) := do
  let (int, cs) ← numberInt cs
  let (frac, cs) ← numberFrac cs
  let (exp, cs) ← numberExp cs
  return (.number (String.ofList (sign ++ int ++ frac ++ exp)), cs)

theorem unsigned_append {sign : List Char} {v : Value} (h : unsigned sign cs = some (v, r)) (hrest : EndsNumber rest) :
    unsigned sign (cs ++ rest) = some (v, r ++ rest) := by
  simp only [unsigned, Option.bind_eq_bind, Option.bind_eq_some_iff, Prod.exists] at h
  obtain ⟨int, cs₁, hint, frac, cs₂, hfrac, exp, cs₃, hexp, heq⟩ := h
  cases heq
  simp only [unsigned, Option.bind_eq_bind, numberInt_append hint hrest, numberFrac_append hfrac hrest,
    numberExp_append hexp hrest, Option.bind_some]
  rfl

theorem number_eq {c : Char} (hc : c ≠ '-') (cs : List Char) : number (c :: cs) = unsigned [] (c :: cs) := by
  simp [number, unsigned, hc]

theorem number_append {v : Value} (h : number cs = some (v, r)) (hrest : EndsNumber rest) :
    number (cs ++ rest) = some (v, r ++ rest) := by
  cases cs with
  | nil => cases h
  | cons c cs =>
    by_cases hc : c = '-'
    · subst hc
      have hminus : unsigned ['-'] cs = some (v, r) := h
      exact unsigned_append hminus hrest
    · rw [number_eq hc] at h
      rw [List.cons_append, number_eq hc]
      exact unsigned_append h hrest

theorem number_head {v : Value} (h : number cs = some (v, r)) :
    ∃ c l, cs = c :: l ∧ (c = '-' ∨ c.isDigit = true) := by
  cases cs with
  | nil => cases h
  | cons c cs =>
    refine ⟨c, cs, rfl, or_iff_not_imp_left.mpr fun hc ↦ ?_⟩
    by_cases hzero : c = '0'
    · subst hzero
      rfl
    · simp only [number_eq hc, unsigned, numberInt_eq hzero, Option.bind_eq_bind, Option.bind_eq_some_iff] at h
      obtain ⟨p, hp, -⟩ := h
      by_contra hdigit
      have hnil : (digits (c :: cs)).1 = [] := by
        rw [digits, List.span_eq_takeWhile_dropWhile, List.takeWhile_cons_of_neg hdigit]
      rw [someDigits, if_pos hnil] at hp
      cases hp

end Numbers

theorem skipSpace_cons {c : Char} (h : isSpace c = false) (cs : List Char) : skipSpace (c :: cs) = c :: cs := by
  simp [skipSpace, h]

theorem endsNumber_cons {c : Char} (h : c.isDigit = false ∧ c ≠ '.' ∧ c ≠ 'e' ∧ c ≠ 'E') (cs : List Char) :
    EndsNumber (c :: cs) := by
  intro d hd
  cases hd
  exact h

/-- A text without spaces around it that is read as the value `v`, whatever follows. -/
structure Reads (t : List Char) (v : Value) : Prop where
  head : ∃ c cs, t = c :: cs ∧ isSpace c = false ∧ c ≠ ']'
  read : ∀ fuel rest, 2 * t.length ≤ fuel → EndsNumber rest → value fuel (t ++ rest) = some (v, rest)

namespace Reads

variable {t : List Char} {v : Value} {ts : List (List Char)} {vs : List Value}

theorem pos (h : Reads t v) : 0 < t.length := by
  obtain ⟨c, cs, rfl, -⟩ := h.head
  exact Nat.succ_pos _

theorem skipSpace_append (h : Reads t v) (cs : List Char) : skipSpace (t ++ cs) = t ++ cs := by
  obtain ⟨c, l, rfl, hc, -⟩ := h.head
  exact skipSpace_cons hc _

/-- A text of at least one character is read with fuel left. -/
theorem of_succ (hhead : ∃ c cs, t = c :: cs ∧ isSpace c = false ∧ c ≠ ']')
    (hread : ∀ fuel rest, 2 * t.length ≤ fuel + 1 → EndsNumber rest → value (fuel + 1) (t ++ rest) = some (v, rest)) :
    Reads t v := by
  refine ⟨hhead, fun fuel rest hfuel hrest ↦ ?_⟩
  obtain ⟨c, cs, rfl, -⟩ := hhead
  obtain ⟨fuel, rfl⟩ : ∃ n, fuel = n + 1 := ⟨fuel - 1, by simp only [List.length_cons] at hfuel; omega⟩
  exact hread fuel rest hfuel hrest

theorem null : Reads "null".toList .null := of_succ ⟨_, _, rfl, rfl, by decide⟩ fun _ _ _ _ ↦ rfl

theorem bool (b : Bool) : Reads (encode (.bool b)) (.bool b) := by
  cases b <;> exact of_succ ⟨_, _, rfl, rfl, by decide⟩ fun _ _ _ _ ↦ rfl

theorem string (s : String) : Reads (quote s) (.string s) := by
  refine of_succ ⟨_, _, rfl, rfl, by decide⟩ fun fuel rest _ _ ↦ ?_
  have htail := stringTail_flatMap s.toList rest
  have hvalue : ∀ cs, value (fuel + 1) ('"' :: cs) =
      (stringTail cs).map fun p ↦ (.string (String.ofList p.1), p.2) := fun _ ↦ rfl
  rw [quote, List.cons_append, List.append_assoc, hvalue]
  rw [List.singleton_append, htail, Option.map_some, String.ofList_toList]

/-- A number starts with a sign or a digit, so it is not taken for any other value. -/
theorem number {literal : String} (h : Json.number literal.toList = some (.number literal, [])) :
    Reads literal.toList (.number literal) := by
  generalize literal.toList = t at h
  obtain ⟨c, t, rfl, hc⟩ := number_head h
  have hne : ∀ d : Char, d.isDigit = false → d ≠ '-' → c ≠ d := by
    rintro d hd hm rfl
    obtain hc | hc := hc
    · exact hm hc
    · simp [hd] at hc
  have hspace : isSpace c = false := by
    simp [isSpace, hne ' ' rfl (by decide), hne '\t' rfl (by decide), hne '\n' rfl (by decide),
      hne '\r' rfl (by decide)]
  refine of_succ ⟨c, t, rfl, hspace, hne ']' rfl (by decide)⟩ fun fuel rest hfuel hrest ↦ ?_
  have hnumber := number_append h hrest
  rw [List.nil_append] at hnumber
  rw [← hnumber, List.cons_append, value, skipSpace_cons hspace]
  split
  case h_7 => rfl
  all_goals
    rename_i heq
    exact absurd (List.cons.inj heq).1 (hne _ rfl (by decide))

/-- The elements of a list and what closes it. -/
theorem elements (h : List.Forall₂ Reads ts vs) (hne : ts ≠ []) {fuel : ℕ} (hfuel : 2 * (elementsText ts).length ≤ fuel)
    (rest : List Char) : Json.elements fuel (elementsText ts ++ rest) = some (vs, rest) := by
  induction h generalizing fuel with
  | nil => exact absurd rfl hne
  | @cons t v ts vs hv hvs ih =>
    have hpos := hv.pos
    cases hvs with
    | nil =>
      rw [elementsText, List.length_append, List.length_singleton] at hfuel
      obtain ⟨fuel, rfl⟩ : ∃ n, fuel = n + 1 := ⟨fuel - 1, by omega⟩
      have hread := hv.read fuel (']' :: rest) (by omega) (endsNumber_cons (by decide) rest)
      rw [elementsText, List.append_assoc, List.singleton_append, Json.elements, hread]
      rfl
    | @cons u x us xs hx hxs =>
      have htext : elementsText (t :: u :: us) = t ++ ',' :: elementsText (u :: us) := rfl
      rw [htext, List.length_append, List.length_cons] at hfuel
      obtain ⟨fuel, rfl⟩ : ∃ n, fuel = n + 1 := ⟨fuel - 1, by omega⟩
      have hread := hv.read fuel (',' :: (elementsText (u :: us) ++ rest)) (by omega)
        (endsNumber_cons (by decide) _)
      have hmore := ih (by simp) (by omega : 2 * (elementsText (u :: us)).length ≤ fuel)
      rw [htext, List.append_assoc, List.cons_append, Json.elements, hread]
      change (Json.elements fuel (elementsText (u :: us) ++ rest)).bind _ = _
      rw [hmore]
      rfl

theorem array (h : List.Forall₂ Reads ts vs) : Reads (arrayText ts) (.array vs) := by
  refine of_succ ⟨_, _, rfl, rfl, by decide⟩ fun fuel rest hfuel _ ↦ ?_
  cases h with
  | nil => rfl
  | @cons t v ts vs hv hvs =>
    have hcons : List.Forall₂ Reads (t :: ts) (v :: vs) := .cons hv hvs
    obtain ⟨c, l, hl, hc, hne⟩ : ∃ c l, elementsText (t :: ts) ++ rest = c :: l ∧ isSpace c = false ∧ c ≠ ']' := by
      obtain ⟨c, l, rfl, hc, hne⟩ := hv.head
      cases ts <;> exact ⟨c, _, rfl, hc, hne⟩
    rw [arrayText, List.length_cons] at hfuel
    have helements := elements hcons (by simp) (by omega : 2 * (elementsText (t :: ts)).length ≤ fuel) rest
    rw [hl] at helements
    rw [arrayText, List.cons_append, hl, value, skipSpace_cons rfl]
    simp only [skipSpace_cons hc]
    split
    · rename_i heq
      exact absurd (List.cons.inj heq).1 hne
    · rw [helements, Option.map_some]

/-- A member is read as its key and its value. -/
def Member (m : String × List Char) (x : String × Value) : Prop := m.1 = x.1 ∧ Reads m.2 x.2

variable {ms : List (String × List Char)} {xs : List (String × Value)}

theorem members_last {key : String} (h : Reads t v) {fuel : ℕ} (hfuel : 2 * t.length ≤ fuel) (rest : List Char) :
    Json.members (fuel + 1) (quote key ++ ':' :: (t ++ '}' :: rest)) = some ([(key, v)], rest) := by
  have hkey := stringTail_flatMap key.toList (':' :: (t ++ '}' :: rest))
  have hread := h.read fuel ('}' :: rest) hfuel (endsNumber_cons (by decide) rest)
  rw [quote, List.cons_append, List.append_assoc, List.singleton_append, Json.members, skipSpace_cons rfl]
  simp only [hkey, Option.bind_eq_bind, Option.bind_some, skipSpace_cons (c := ':') rfl, hread,
    skipSpace_cons (c := '}') rfl, String.ofList_toList]
  rfl

theorem members_more {key : String} (h : Reads t v) {fuel : ℕ} (hfuel : 2 * t.length ≤ fuel) (cs : List Char) :
    Json.members (fuel + 1) (quote key ++ ':' :: (t ++ ',' :: cs)) =
      (Json.members fuel cs).map fun p ↦ ((key, v) :: p.1, p.2) := by
  have hkey := stringTail_flatMap key.toList (':' :: (t ++ ',' :: cs))
  have hread := h.read fuel (',' :: cs) hfuel (endsNumber_cons (by decide) cs)
  rw [quote, List.cons_append, List.append_assoc, List.singleton_append, Json.members, skipSpace_cons rfl]
  simp only [hkey, Option.bind_eq_bind, Option.bind_some, skipSpace_cons (c := ':') rfl, hread,
    skipSpace_cons (c := ',') rfl, String.ofList_toList]
  cases Json.members fuel cs <;> rfl

theorem members (h : List.Forall₂ Member ms xs) (hne : ms ≠ []) {fuel : ℕ} (hfuel : 2 * (membersText ms).length ≤ fuel)
    (rest : List Char) : Json.members fuel (membersText ms ++ rest) = some (xs, rest) := by
  induction h generalizing fuel with
  | nil => exact absurd rfl hne
  | @cons m x ms xs hx hxs ih =>
    obtain ⟨key, t⟩ := m
    obtain ⟨_, v⟩ := x
    obtain ⟨rfl, hv⟩ : key = _ ∧ Reads t v := hx
    cases hxs with
    | nil =>
      have htext : membersText [(key, t)] = quote key ++ ':' :: (t ++ ['}']) := rfl
      simp only [htext, List.length_append, List.length_cons] at hfuel
      obtain ⟨fuel, rfl⟩ : ∃ n, fuel = n + 1 := ⟨fuel - 1, by omega⟩
      rw [htext, List.append_assoc, List.cons_append, List.append_assoc]
      exact members_last hv (by omega) rest
    | @cons u y us ys hy hys =>
      have htext : membersText ((key, t) :: u :: us) = quote key ++ ':' :: (t ++ ',' :: membersText (u :: us)) := rfl
      simp only [htext, List.length_append, List.length_cons] at hfuel
      obtain ⟨fuel, rfl⟩ : ∃ n, fuel = n + 1 := ⟨fuel - 1, by omega⟩
      rw [htext, List.append_assoc, List.cons_append, List.append_assoc, List.cons_append,
        members_more hv (by omega), ih (by simp) (by omega), Option.map_some]

theorem object (h : List.Forall₂ Member ms xs) : Reads (objectText ms) (.object xs) := by
  refine of_succ ⟨_, _, rfl, rfl, by decide⟩ fun fuel rest hfuel _ ↦ ?_
  cases h with
  | nil => rfl
  | @cons m x ms xs hx hxs =>
    have hcons : List.Forall₂ Member (m :: ms) (x :: xs) := .cons hx hxs
    obtain ⟨l, hl⟩ : ∃ l, membersText (m :: ms) ++ rest = '"' :: l := by
      cases ms <;> exact ⟨_, rfl⟩
    rw [objectText, List.length_cons] at hfuel
    have hmembers := members hcons (by simp) (by omega : 2 * (membersText (m :: ms)).length ≤ fuel) rest
    rw [hl] at hmembers
    rw [objectText, List.cons_append, hl, value, skipSpace_cons rfl]
    simp only [skipSpace_cons (c := '"') rfl]
    change Option.map _ (Json.members fuel ('"' :: l)) = _
    rw [hmembers, Option.map_some]

end Reads

/-- The values whose numbers are written as JSON numbers. -/
inductive Valid : Value → Prop
  | null : Valid .null
  | bool (b : Bool) : Valid (.bool b)
  | number {literal : String} (h : number literal.toList = some (.number literal, [])) : Valid (.number literal)
  | string (s : String) : Valid (.string s)
  | array {vs : List Value} (h : ∀ v ∈ vs, Valid v) : Valid (.array vs)
  | object {ms : List (String × Value)} (h : ∀ m ∈ ms, Valid m.2) : Valid (.object ms)

theorem encodeElements_eq (vs : List Value) : encodeElements vs = vs.map encode := by
  induction vs with
  | nil => rfl
  | cons v vs ih => rw [encodeElements, ih, List.map_cons]

theorem encodeMembers_eq (ms : List (String × Value)) : encodeMembers ms = ms.map fun m ↦ (m.1, encode m.2) := by
  induction ms with
  | nil => rfl
  | cons m ms ih => rw [encodeMembers, ih, List.map_cons]

theorem reads_encode {v : Value} (h : Valid v) : Reads (encode v) v := by
  induction h with
  | null => exact .null
  | bool b => exact .bool b
  | number h => exact .number h
  | string s => exact .string s
  | array h ih =>
    rw [encode, encodeElements_eq]
    exact .array (List.forall₂_map_left_iff.mpr (List.forall₂_same.mpr ih))
  | object h ih =>
    rw [encode, encodeMembers_eq]
    exact .object (List.forall₂_map_left_iff.mpr (List.forall₂_same.mpr fun m hm ↦ ⟨rfl, ih m hm⟩))

theorem Reads.parse {t : List Char} {v : Value} (h : Reads t v) : parse (String.ofList t) = some v := by
  have hread := h.read (2 * t.length + 2) [] (by omega) (by simp [EndsNumber])
  rw [List.append_nil] at hread
  simp [Json.parse, first, String.toList_ofList, hread, skipSpace]

section Naturals

def Value.nat (n : ℕ) : Value := .number (toString n)

theorem head_toDigits {n : ℕ} (h : n ≠ 0) : ∃ c cs, Nat.toDigits 10 n = c :: cs ∧ c ≠ '0' := by
  induction n using Nat.strong_induction_on with
  | _ n ih =>
    by_cases hn : n < 10
    · refine ⟨n.digitChar, [], Nat.toDigits_of_lt_base hn, ?_⟩
      interval_cases n <;> simp_all
    · obtain ⟨c, cs, hcs, hc⟩ := ih (n / 10) (by omega) (by omega)
      refine ⟨c, cs ++ [(n % 10).digitChar], ?_, hc⟩
      rw [Nat.toDigits_of_base_le (by decide) (by omega), hcs, List.cons_append]

theorem number_toDigits (n : ℕ) :
    number (Nat.toDigits 10 n) = some (.number (String.ofList (Nat.toDigits 10 n)), []) := by
  by_cases hn : n = 0
  · subst hn
    rw [Nat.toDigits_zero]
    rfl
  · obtain ⟨c, cs, hcs, hc⟩ := head_toDigits hn
    have hdigits : ∀ d ∈ c :: cs, d.isDigit = true := fun d hd ↦
      Nat.isDigit_of_mem_toDigits (by decide) (by decide) (hcs ▸ hd)
    have hspan : digits (c :: cs) = (c :: cs, []) := by
      rw [digits, List.span_eq_takeWhile_dropWhile, List.takeWhile_eq_self_iff.mpr hdigits,
        List.dropWhile_eq_nil_iff.mpr hdigits]
    have hminus : c ≠ '-' := by
      rintro rfl
      exact absurd (hdigits '-' List.mem_cons_self) (by decide)
    rw [hcs, number_eq hminus]
    simp [unsigned, numberInt_eq hc, someDigits, hspan, numberFrac, numberExp]

theorem valid_nat (n : ℕ) : Valid (.nat n) := by
  apply Valid.number
  rw [Nat.toString_eq_ofList_toDigits, String.toList_ofList]
  exact number_toDigits n

end Naturals

end EventPlatform.Json
