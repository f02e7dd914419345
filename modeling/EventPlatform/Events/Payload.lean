import EventPlatform.Events.Envelope
import EventPlatform.Users.Store
import EventPlatform.Wallet.Service
import EventPlatform.ChainMonitor.Monitor

namespace EventPlatform

open Json Time

open Events

def Users.User.marshal (u : Users.User) : Except String (List Char) := do
  let createdAt ← timeText u.createdAt
  return objectText [("id", quote u.id), ("email", quote u.email), ("created_at", createdAt)]

set_option linter.dupNamespace false in
def Wallet.Wallet.marshal (w : Wallet.Wallet) : Except String (List Char) := do
  let createdAt ← timeText (zeroTime + w.createdAt)
  return objectText [("address", quote w.address), ("created_at", createdAt)]

/-- The map that is published for a message of the monitor. The keys of a map are written in their order. -/
def ChainMonitor.Event.value : ChainMonitor.Event → Value
  | .chainBlock number hash transfers confirmed => .object [("confirmed", .bool confirmed), ("hash", .string hash),
      ("number", .nat number.toNat), ("transfers", .nat transfers)]
  | .chainTransfer block token fromAddr toAddr value txHash confirmed => .object [("block", .nat block.toNat),
      ("confirmed", .bool confirmed), ("from", .string fromAddr), ("to", .string toAddr), ("token", .string token),
      ("tx_hash", .string txHash), ("value", .string value)]
  | .chainReorg fromBlock => .object [("from_block", .nat fromBlock.toNat)]

def ChainMonitor.Event.subject : ChainMonitor.Event → String
  | .chainBlock _ _ _ _ => subjectChainBlock
  | .chainTransfer _ _ _ _ _ _ _ => subjectChainTransfer
  | .chainReorg _ => subjectChainReorg

namespace Events

/-- What the services publish. -/
inductive Payload
  | userCreated (u : Users.User)
  | walletCreated (w : Wallet.Wallet)
  | chain (e : ChainMonitor.Event)

namespace Payload

def subject : Payload → String
  | userCreated _ => subjectUserCreated
  | walletCreated _ => subjectWalletCreated
  | chain e => e.subject

def marshal : Payload → Except String (List Char)
  | userCreated u => u.marshal
  | walletCreated w => w.marshal
  | chain e => .ok (encode e.value)

/-- The times that are written with the payload. -/
def times : Payload → List ℤ
  | userCreated u => [u.createdAt]
  | walletCreated w => [zeroTime + w.createdAt]
  | chain _ => []

/-- The value that the text of a payload stands for. -/
def value : Payload → Value
  | userCreated u => .object [("id", .string u.id), ("email", .string u.email),
      ("created_at", .string (String.ofList (formatRFC3339 u.createdAt)))]
  | walletCreated w => .object [("address", .string w.address),
      ("created_at", .string (String.ofList (formatRFC3339 (zeroTime + w.createdAt))))]
  | chain e => e.value

theorem valid_value (e : ChainMonitor.Event) : Valid e.value := by
  cases e <;> refine .object ?_ <;> simp [Valid.bool, Valid.string, valid_nat]

theorem marshal_eq_ok {p : Payload} : (∃ data, p.marshal = .ok data) ↔ ∀ t ∈ p.times, InRange t := by
  cases p with
  | userCreated u =>
    simp only [marshal, Users.User.marshal, bind_timeText, times, List.forall_mem_singleton, exists_and_left,
      exists_eq, and_true]
  | walletCreated w =>
    simp only [marshal, Wallet.Wallet.marshal, bind_timeText, times, List.forall_mem_singleton, exists_and_left,
      exists_eq, and_true]
  | chain e => simp [marshal, times]

theorem reads_marshal {p : Payload} {data : List Char} (h : p.marshal = .ok data) : Reads data p.value := by
  have hmember {key : String} {t : List Char} {v : Value} (h : Reads t v) : Reads.Member (key, t) (key, v) := ⟨rfl, h⟩
  cases p with
  | userCreated u =>
    obtain ⟨-, rfl⟩ := bind_timeText.mp h
    exact .object (.cons (hmember (.string _)) (.cons (hmember (.string _)) (.cons (hmember (reads_time _)) .nil)))
  | walletCreated w =>
    obtain ⟨-, rfl⟩ := bind_timeText.mp h
    exact .object (.cons (hmember (.string _)) (.cons (hmember (reads_time _)) .nil))
  | chain e =>
    cases h
    exact reads_encode (valid_value e)

theorem nat_injective {m n : ℕ} (h : Value.nat m = Value.nat n) : m = n := by
  have htext : toString m = toString n := Value.number.inj h
  rw [Nat.toString_eq_ofList_toDigits, Nat.toString_eq_ofList_toDigits] at htext
  have hvalue := congrArg (Nat.ofDigitChars 10 · 0) (String.ofList_injective htext)
  simpa only [Nat.ofDigitChars_ten_toDigits] using hvalue

/-- The keys of a value tell the kind of the payload, and its members the payload. -/
theorem chain_value_injective {e f : ChainMonitor.Event} (h : f.value = e.value) : f = e := by
  cases e <;> cases f <;> simp only [ChainMonitor.Event.value, Value.object.injEq, List.cons.injEq, Prod.mk.injEq,
    true_and, and_true, Value.bool.injEq, Value.string.injEq, reduceCtorEq, String.reduceEq, false_and] at h
  case chainBlock.chainBlock =>
    obtain ⟨rfl, rfl, hn, ht⟩ := h
    rw [UInt64.toNat_inj.mp (nat_injective hn), nat_injective ht]
  case chainTransfer.chainTransfer =>
    obtain ⟨hn, rfl, rfl, rfl, rfl, rfl, rfl⟩ := h
    rw [UInt64.toNat_inj.mp (nat_injective hn)]
  case chainReorg.chainReorg => rw [UInt64.toNat_inj.mp (nat_injective h)]

theorem value_injective {p q : Payload} (hp : ∀ t ∈ p.times, InRange t) (hq : ∀ t ∈ q.times, InRange t)
    (h : q.value = p.value) : q = p := by
  have hother (e : ChainMonitor.Event) (m : String × Value) (ms : List (String × Value))
      (hm : m.1 ∈ ["id", "address"]) :
      e.value ≠ .object (m :: ms) := by
    rintro heq
    cases e <;> simp only [ChainMonitor.Event.value, Value.object.injEq, List.cons.injEq] at heq <;>
      simp [← heq.1] at hm
  cases p with
  | userCreated u =>
    cases q with
    | userCreated v =>
      obtain ⟨id, email, t⟩ := u
      obtain ⟨id', email', t'⟩ := v
      simp only [value, Value.object.injEq, List.cons.injEq, Prod.mk.injEq, true_and, and_true, Value.string.injEq] at h
      obtain ⟨rfl, rfl, ht⟩ := h
      rw [formatRFC3339_inj (hq t' List.mem_cons_self) (hp t List.mem_cons_self) ht]
    | walletCreated => simp [value] at h
    | chain e => exact absurd h (hother e _ _ (by simp))
  | walletCreated w =>
    cases q with
    | userCreated => simp [value] at h
    | walletCreated x =>
      obtain ⟨address, t⟩ := w
      obtain ⟨address', t'⟩ := x
      simp only [value, Value.object.injEq, List.cons.injEq, Prod.mk.injEq, true_and, and_true, Value.string.injEq] at h
      obtain ⟨rfl, ht⟩ := h
      obtain rfl : t' = t := add_left_cancel (formatRFC3339_inj (hq _ List.mem_cons_self) (hp _ List.mem_cons_self) ht)
      rfl
    | chain e => exact absurd h (hother e _ _ (by simp))
  | chain e =>
    cases q with
    | userCreated | walletCreated => exact absurd h.symm (hother e _ _ (by simp))
    | chain f => rw [chain_value_injective h]

/-- Texts of payloads are alike only for the same payload. -/
theorem marshal_injective {p q : Payload} {data : List Char} (hp : p.marshal = .ok data) (hq : q.marshal = .ok data) :
    q = p := by
  have hvalue : some q.value = some p.value := (reads_marshal hq).parse.symm.trans (reads_marshal hp).parse
  exact value_injective (marshal_eq_ok.mp ⟨_, hp⟩) (marshal_eq_ok.mp ⟨_, hq⟩) (Option.some.inj hvalue)

end Payload

theorem message_eq_ok {now : ℤ} {subject : String} {data : Except String (List Char)} {raw : List Char} :
    message now subject data = .ok raw ↔
      ∃ payload, data = .ok payload ∧ Event.marshal ⟨subject, now, payload⟩ = .ok raw := by
  cases data with
  | error e => exact iff_of_false nofun fun ⟨_, h, _⟩ ↦ by cases h
  | ok payload =>
    simp only [Except.ok.injEq, exists_eq_left']
    change (Event.marshal _).mapError _ = _ ↔ _
    cases Event.marshal ⟨subject, now, payload⟩ <;> simp [Except.mapError]

/-- The handler of a subscriber gets the envelope of a publication as it was. -/
theorem unmarshal_of_message [GoTime] {now : ℤ} {subject : String} {p : Payload} {raw : List Char}
    (h : message now subject p.marshal = .ok raw) :
    ∃ data, p.marshal = .ok data ∧ Event.unmarshal raw = some ⟨subject, now, data⟩ := by
  obtain ⟨data, hdata, hraw⟩ := message_eq_ok.mp h
  exact ⟨data, hdata, Event.unmarshal_marshal hraw (Payload.reads_marshal hdata)⟩

theorem exists_message (now : ℤ) (p : Payload) :
    (∃ raw, message now p.subject p.marshal = .ok raw) ↔ ∀ t ∈ now :: p.times, InRange t := by
  simp only [message_eq_ok, Event.marshal_eq_ok, List.forall_mem_cons, ← Payload.marshal_eq_ok]
  constructor
  · rintro ⟨raw, data, hdata, hnow, -⟩
    exact ⟨hnow, data, hdata⟩
  · rintro ⟨hnow, data, hdata⟩
    exact ⟨_, data, hdata, hnow, rfl⟩

/-- A payload is published exactly if its times are in range. The handler of a subscriber is then called with the
subject, the time and the data of the publication, and no other payload has this data. -/
theorem unmarshal_message [GoTime] (now : ℤ) (p : Payload) :
    ((∃ raw, message now p.subject p.marshal = .ok raw) ↔ ∀ t ∈ now :: p.times, InRange t) ∧
      ∀ raw, message now p.subject p.marshal = .ok raw → ∃ data, Event.unmarshal raw = some ⟨p.subject, now, data⟩ ∧
        ∀ q : Payload, q.marshal = .ok data ↔ q = p := by
  refine ⟨exists_message now p, fun raw hraw ↦ ?_⟩
  obtain ⟨data, hdata, hevent⟩ := unmarshal_of_message hraw
  refine ⟨data, hevent, fun q ↦ ⟨fun hq ↦ Payload.marshal_injective hdata hq, ?_⟩⟩
  rintro rfl
  exact hdata

end Events

end EventPlatform
