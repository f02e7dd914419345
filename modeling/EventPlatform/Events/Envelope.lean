import EventPlatform.Json.Raw
import EventPlatform.Time.Rfc3339

namespace EventPlatform.Events

open Json Time

def subjectUserCreated : String := "user.created"

def subjectWalletCreated : String := "wallet.created"

def subjectTxSubmitted : String := "transaction.submitted"

def subjectPaymentMade : String := "payment.made"

def subjectChainBlock : String := "chain.block"

def subjectChainTransfer : String := "chain.transfer"

def subjectChainReorg : String := "chain.reorg"

/-- The instant of the zero value of `time.Time`, the start of the year 1. -/
def zeroTime : ℤ := -62135596800 * nanosPerSecond

/-- A time within a record that is marshalled. -/
def timeText (t : ℤ) : Except String (List Char) :=
  (marshalJSON t).mapError ("json: error calling MarshalJSON for type time.Time: " ++ ·)

/-- The envelope of a message. The data is kept as its text. -/
structure Event where
  subject : String
  time : ℤ
  data : List Char
  deriving DecidableEq

namespace Event

def zero : Event := ⟨"", zeroTime, []⟩

def fields [GoTime] : List (RawField Event) :=
  [rawString "subject" fun x e ↦ { e with subject := x },
    ⟨"time", fun t e ↦ (unmarshalJSON e.time t).map fun x ↦ { e with time := x }⟩,
    rawMessage "data" fun t e ↦ { e with data := t }]

def marshal (e : Event) : Except String (List Char) := do
  let time ← timeText e.time
  return objectText [("subject", quote e.subject), ("time", time), ("data", e.data)]

def unmarshal [GoTime] (text : List Char) : Option Event := Json.unmarshal fields zero (String.ofList text)

end Event

/-- The message that `NATSBus.Publish` hands to the connection, for the outcome of marshalling the data. -/
def message (now : ℤ) (subject : String) (data : Except String (List Char)) : Except String (List Char) := do
  let payload ← data.mapError ("marshal event data: " ++ ·)
  (Event.marshal ⟨subject, now, payload⟩).mapError ("marshal event: " ++ ·)

section Time

theorem mem_fraction {nanos : ℕ} {c : Char} (h : c ∈ fraction nanos) : c.isDigit ∨ c = '.' := by
  unfold fraction at h
  split at h
  · cases h
  · obtain rfl | hc := List.mem_cons.mp h
    · exact .inr rfl
    · exact .inl (BigRat.isDigit_of_mem_padded ((List.rdropWhile_prefix _ _).subset hc))

/-- The characters of a written time. -/
def Plain (c : Char) : Prop := c.isDigit ∨ c ∈ ['-', 'T', ':', '.', 'Z']

instance : DecidablePred Plain := fun _ ↦ inferInstanceAs (Decidable (_ ∨ _))

theorem plain_of_mem_formatRFC3339 {t : ℤ} {c : Char} (h : c ∈ formatRFC3339 t) : Plain c := by
  have hdigit : ∀ {width n : ℕ}, c ∈ BigRat.padded width n → Plain c := fun h ↦ .inl (BigRat.isDigit_of_mem_padded h)
  simp only [formatRFC3339, formatDate, formatClock, List.mem_append, List.mem_cons, List.not_mem_nil, or_false] at h
  rcases h with (h | rfl | h | rfl | h) | rfl | (h | rfl | h | rfl | h) | h | rfl
  case inr.inr.inr.inl =>
    obtain h | rfl := mem_fraction h
    · exact .inl h
    · exact .inr (by decide)
  all_goals first
    | exact hdigit h
    | exact .inr (by decide)

theorem escapeChar_of_plain {c : Char} (h : Plain c) : escapeChar c = [c] := by
  have hne : ∀ d : Char, ¬ Plain d → c ≠ d := by
    rintro d hd rfl
    exact hd h
  have hcontrol : ¬ c.toNat < 0x20 := by
    obtain h | h := h
    · have hlow : '0'.toNat ≤ c.toNat := (BigRat.isDigit_bounds h).1
      have hzero : '0'.toNat = 48 := rfl
      omega
    · simp only [List.mem_cons, List.not_mem_nil, or_false] at h
      rcases h with rfl | rfl | rfl | rfl | rfl <;> decide
  unfold escapeChar
  simp [hcontrol, hne '"' (by decide), hne '\\' (by decide), hne '\x08' (by decide), hne '\x0c' (by decide),
    hne '\n' (by decide), hne '\r' (by decide), hne '\t' (by decide), hne '<' (by decide), hne '>' (by decide),
    hne '&' (by decide), hne '\u2028' (by decide), hne '\u2029' (by decide)]

/-- The text of a time is a string literal as it stands. -/
theorem reads_time (t : ℤ) : Reads ('"' :: formatRFC3339 t ++ ['"']) (.string (String.ofList (formatRFC3339 t))) := by
  have hplain : (formatRFC3339 t).flatMap escapeChar = formatRFC3339 t := by
    conv_rhs => rw [← List.flatMap_singleton' (formatRFC3339 t)]
    exact List.flatMap_congr fun c hc ↦ escapeChar_of_plain (plain_of_mem_formatRFC3339 hc)
  have hquote := Reads.string (String.ofList (formatRFC3339 t))
  rwa [quote, String.toList_ofList, hplain] at hquote

theorem timeText_of_inRange {t : ℤ} (h : InRange t) : timeText t = .ok ('"' :: formatRFC3339 t ++ ['"']) := by
  rw [timeText, marshalJSON, if_pos h]
  rfl

/-- A record with a time is marshalled if the time is in range, and else not at all. -/
theorem bind_timeText {t : ℤ} {f : List Char → List Char} {data : List Char} :
    (timeText t >>= fun text ↦ return f text) = .ok data ↔
      InRange t ∧ data = f ('"' :: formatRFC3339 t ++ ['"']) := by
  by_cases h : InRange t
  · rw [timeText_of_inRange h]
    constructor
    · intro hdata
      cases hdata
      exact ⟨h, rfl⟩
    · rintro ⟨-, rfl⟩
      rfl
  · rw [timeText, marshalJSON, if_neg h]
    exact iff_of_false nofun fun hdata ↦ h hdata.1

theorem formatRFC3339_inj {t t' : ℤ} (h : InRange t) (h' : InRange t')
    (heq : String.ofList (formatRFC3339 t) = String.ofList (formatRFC3339 t')) : t = t' := by
  have hparse := parseRFC3339_formatRFC3339 h
  rw [String.ofList_injective heq, parseRFC3339_formatRFC3339 h'] at hparse
  exact (Option.some.inj hparse).symm

end Time

namespace Event

theorem names_nodup [GoTime] : (fields.map RawField.name).Nodup := by
  simp [fields, rawString, rawMessage]

theorem marshal_eq_ok {e : Event} {text : List Char} : e.marshal = .ok text ↔ InRange e.time ∧
    text = objectText
      [("subject", quote e.subject), ("time", '"' :: formatRFC3339 e.time ++ ['"']), ("data", e.data)] :=
  bind_timeText

/-- A subscriber gets back the envelope that was published, if its data is a JSON text. -/
theorem unmarshal_marshal [GoTime] {e : Event} {text : List Char} {v : Value} (h : e.marshal = .ok text)
    (hdata : Reads e.data v) : unmarshal text = some e := by
  obtain ⟨hrange, rfl⟩ := marshal_eq_ok.mp h
  have htime (t₀ : ℤ) : unmarshalJSON t₀ ('"' :: formatRFC3339 e.time ++ ['"']) = some e.time :=
    unmarshalJSON_marshalJSON (if_pos hrange) t₀
  generalize htext : '"' :: formatRFC3339 e.time ++ ['"'] = time at *
  have hreads : ∀ m ∈ [("subject", quote e.subject), ("time", time), ("data", e.data)], ∃ v, Reads m.2 v := by
    simp only [List.forall_mem_cons, List.not_mem_nil, false_implies, implies_true, and_true]
    exact ⟨⟨_, .string _⟩, ⟨_, htext ▸ reads_time e.time⟩, ⟨v, hdata⟩⟩
  rw [unmarshal, unmarshal_objectText hreads]
  have hsubject (e₀ : Event) : storeRaw fields e₀ ("subject", quote e.subject) =
      some { e₀ with subject := e.subject } :=
    (storeRaw_of_mem names_nodup List.mem_cons_self _ e₀).trans (rawString_quote _ _ _ _)
  have hstore (e₀ : Event) : storeRaw fields e₀ ("time", time) = some { e₀ with time := e.time } := by
    refine (storeRaw_of_mem names_nodup (List.mem_cons_of_mem _ List.mem_cons_self) _ e₀).trans ?_
    dsimp only
    rw [htime, Option.map_some]
  have hrest (e₀ : Event) : storeRaw fields e₀ ("data", e.data) = some { e₀ with data := e.data } :=
    storeRaw_of_mem names_nodup (List.mem_cons_of_mem _ (List.mem_cons_of_mem _ List.mem_cons_self)) _ e₀
  simp only [List.foldlM_cons, List.foldlM_nil, hsubject, hstore, hrest, Option.bind_eq_bind, Option.bind_some]
  rfl

end Event

end EventPlatform.Events
