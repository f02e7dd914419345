import Mathlib.Data.List.TakeDrop
import EventPlatform.Ethereum.Word
import EventPlatform.ChainMonitor.Monitor

namespace EventPlatform.ChainMonitor

open Ethereum Interaction Prog

/-- An address as an indexed argument: `common.LeftPadBytes` to the width of a topic. -/
def addressTopic (a : Address) : Hash := setBytes 32 a.toList

/-- The log that an ERC-20 contract emits for a transfer. -/
def Transfer.encode (t : Transfer) : Log where
  address := t.token
  topics := [topicID, addressTopic t.fromAddr, addressTopic t.toAddr]
  data := wordBytes 32 t.value
  txHash := t.txHash
  index := t.logIndex

/-- The logs that have the form of a transfer. -/
def Accepted (log : Log) : Prop := log.topics.length = 3 ∧ log.topics.head? = some topicID ∧ 32 ≤ log.data.length

instance (log : Log) : Decidable (Accepted log) := inferInstanceAs (Decidable (_ ∧ _ ∧ _))

theorem accepted_iff {log : Log} : Accepted log ↔
    ∃ sender recipient, log.topics = [topicID, sender, recipient] ∧ 32 ≤ log.data.length := by
  constructor
  · rintro ⟨hlength, hhead, hdata⟩
    obtain ⟨signature, sender, recipient, htopics⟩ := List.length_eq_three.mp hlength
    rw [htopics, List.head?_cons, Option.some_inj] at hhead
    subst hhead
    exact ⟨sender, recipient, htopics, hdata⟩
  · rintro ⟨sender, recipient, htopics, hdata⟩
    rw [Accepted, htopics]
    exact ⟨rfl, rfl, hdata⟩

theorem unpackValue_of_le {data : List UInt8} (h : 32 ≤ data.length) :
    unpackValue data = some (wordValue (data.take 32)) := if_neg (by omega)

theorem unpackValue_eq_none {data : List UInt8} (h : data.length < 32) : unpackValue data = none := if_pos h

/-- What a log of the right form says: the last 20 bytes of two topics and the first word of the data. -/
def transferOf (log : Log) (sender recipient : Hash) : Transfer where
  token := log.address
  fromAddr := setBytes 20 sender.toList
  toAddr := setBytes 20 recipient.toList
  value := wordValue (log.data.take 32)
  txHash := log.txHash
  logIndex := log.index

theorem decode_of_topics {log : Log} {sender recipient : Hash} (ht : log.topics = [topicID, sender, recipient])
    (hd : 32 ≤ log.data.length) : decode log = some (transferOf log sender recipient) := by
  rw [decode, ht]
  simp only [ne_eq, not_true, if_false, unpackValue_of_le hd, Option.map_some, hexToAddress_hashHex, transferOf]

theorem decode_eq_some_iff {log : Log} {t : Transfer} : decode log = some t ↔
    ∃ sender recipient, log.topics = [topicID, sender, recipient] ∧ 32 ≤ log.data.length ∧
      t = transferOf log sender recipient := by
  constructor
  · intro h
    have hform := h
    unfold decode at hform
    split at hform
    · rename_i signature sender recipient htopics
      split at hform
      · cases hform
      · rename_i hid
        rw [ne_eq, not_not] at hid
        subst hid
        by_cases hd : 32 ≤ log.data.length
        · rw [decode_of_topics htopics hd, Option.some_inj] at h
          exact ⟨sender, recipient, htopics, hd, h.symm⟩
        · rw [unpackValue_eq_none (by omega)] at hform
          cases hform
    · cases hform
  · rintro ⟨sender, recipient, htopics, hd, rfl⟩
    exact decode_of_topics htopics hd

theorem isSome_decode_iff (log : Log) : (decode log).isSome ↔ Accepted log := by
  rw [Option.isSome_iff_exists, accepted_iff]
  simp only [decode_eq_some_iff]
  constructor
  · rintro ⟨t, sender, recipient, htopics, hd, -⟩
    exact ⟨sender, recipient, htopics, hd⟩
  · rintro ⟨sender, recipient, htopics, hd⟩
    exact ⟨_, sender, recipient, htopics, hd, rfl⟩

theorem decode_encode {t : Transfer} (h : t.value < 2 ^ 256) : decode t.encode = some t := by
  have htopics : t.encode.topics = [topicID, addressTopic t.fromAddr, addressTopic t.toAddr] := rfl
  have hlength : t.encode.data.length = 32 := wordBytes_length 32 t.value
  have hvalue : wordValue (t.encode.data.take 32) = t.value := by
    rw [List.take_of_length_le hlength.le]
    exact wordValue_wordBytes h
  have haddress (a : Address) : setBytes 20 (addressTopic a).toList = a := setBytes_setBytes (by decide) a
  rw [decode_of_topics htopics hlength.ge, transferOf, hvalue, haddress, haddress]
  rfl

/-- The logs that pass are decoded one by one, in their order. -/
theorem forall₂_filterMap_decode (logs : List Log) :
    List.Forall₂ (fun log t ↦ decode log = some t) (logs.filter fun log ↦ Accepted log) (logs.filterMap decode) := by
  induction logs with
  | nil => exact .nil
  | cons log logs ih =>
    cases h : decode log with
    | none =>
      have hno : ¬ Accepted log := by simp [← isSome_decode_iff, h]
      rwa [List.filterMap_cons_none h, List.filter_cons_of_neg (by simpa using hno)]
    | some t =>
      have hyes : Accepted log := by simp [← isSome_decode_iff, h]
      rw [List.filterMap_cons_some h, List.filter_cons_of_pos (by simpa using hyes)]
      exact .cons h ih

variable {W : Type}

theorem eval_fetchTransfers_eq (cfg : Config) (n : UInt64) (h : Responder Err Call.Reply W) (w : W) :
    (fetchTransfers cfg n).eval h w = ((h w (.filterLogs (transferQuery cfg n))).1.map (List.filterMap decode),
      (h w (.filterLogs (transferQuery cfg n))).2) := by
  rw [fetchTransfers, eval_bind, filterLogs, eval_perform]
  rcases h w (.filterLogs (transferQuery cfg n)) with ⟨e | logs, v⟩
  · rfl
  · rfl

/-- Decoding inverts encoding, accepts exactly the logs with the three topics of a transfer and a word of data, and a
fetch decodes the logs of this form, each once and in order. -/
theorem decode_inverts_encode :
    (∀ t : Transfer, t.value < 2 ^ 256 → decode t.encode = some t) ∧
    (∀ log, (decode log).isSome ↔ Accepted log) ∧
    ∀ (cfg : Config) (n : UInt64) (W : Type) (h : Responder Err Call.Reply W) (w v : W) (logs : List Log),
      h w (.filterLogs (transferQuery cfg n)) = (.ok logs, v) →
      ∃ ts, (fetchTransfers cfg n).eval h w = (.ok ts, v) ∧
        List.Forall₂ (fun log t ↦ decode log = some t) (logs.filter fun log ↦ Accepted log) ts := by
  refine ⟨fun t ht ↦ decode_encode ht, isSome_decode_iff, ?_⟩
  intro cfg n W h w v logs hlogs
  refine ⟨logs.filterMap decode, ?_, forall₂_filterMap_decode logs⟩
  rw [eval_fetchTransfers_eq, hlogs]
  rfl

/-- No byte stands above the two addresses of a log, and none after its value. -/
def Canonical (log : Log) : Prop :=
  (∀ topic ∈ log.topics.tail, topic.toList.take 12 = List.replicate 12 0) ∧ log.data.length = 32

instance (log : Log) : Decidable (Canonical log) := inferInstanceAs (Decidable (_ ∧ _))

theorem wordBytes_take {data : List UInt8} (h : 32 ≤ data.length) :
    wordBytes 32 (wordValue (data.take 32)) = data.take 32 := by
  have hword := wordBytes_wordValue (data.take 32)
  rwa [List.length_take_of_le h] at hword

theorem reencode_iff {log : Log} {t : Transfer} (h : decode log = some t) :
    (t.encode.topics = log.topics ∧ t.encode.data = log.data) ↔ Canonical log := by
  obtain ⟨sender, recipient, htopics, hd, rfl⟩ := decode_eq_some_iff.mp h
  rw [Canonical, htopics]
  apply and_congr
  · simp [Transfer.encode, transferOf, addressTopic, setBytes_setBytes_iff (show 20 ≤ 32 by decide)]
  · change wordBytes 32 (wordValue (log.data.take 32)) = log.data ↔ _
    rw [wordBytes_take hd, List.take_eq_self_iff]
    exact ⟨fun hle ↦ hle.antisymm hd, Eq.le⟩

theorem decode_value_lt {log : Log} {t : Transfer} (h : decode log = some t) : t.value < 2 ^ 256 := by
  obtain ⟨sender, recipient, -, hd, rfl⟩ := decode_eq_some_iff.mp h
  have hlt := wordValue_lt (log.data.take 32)
  rwa [List.length_take_of_le hd] at hlt

/-- A decoded log is written back as it was exactly when it has no byte above its addresses and none after its value.
Two such logs of one contract do not say the same; any other one says what its rewritten form says. -/
theorem decode_canonical_iff (log : Log) (t : Transfer) (h : decode log = some t) :
    ((t.encode.topics = log.topics ∧ t.encode.data = log.data) ↔ Canonical log) ∧
    (Canonical log → ∀ log' t', decode log' = some t' → Canonical log' → t'.token = t.token →
      t'.fromAddr = t.fromAddr → t'.toAddr = t.toAddr → t'.value = t.value →
      log'.topics = log.topics ∧ log'.data = log.data) ∧
    (¬ Canonical log → ∃ log', (log'.topics ≠ log.topics ∨ log'.data ≠ log.data) ∧ log'.address = log.address ∧
      decode log' = some t) := by
  refine ⟨reencode_iff h, ?_, ?_⟩
  · intro hc log' t' h' hc' _ hfrom hto hvalue
    obtain ⟨htopics, hdata⟩ := (reencode_iff h).mpr hc
    obtain ⟨htopics', hdata'⟩ := (reencode_iff h').mpr hc'
    rw [← htopics, ← htopics', ← hdata, ← hdata']
    simp only [Transfer.encode, hfrom, hto, hvalue, and_self]
  · intro hc
    refine ⟨t.encode, ?_, ?_, decode_encode (decode_value_lt h)⟩
    · rw [← reencode_iff h, not_and_or] at hc
      exact hc
    · obtain ⟨-, -, -, -, rfl⟩ := decode_eq_some_iff.mp h
      rfl

/-- A transfer of 5 from the zero address to itself, with a byte above the sender and more bytes after the value. -/
def loggedFive (above : UInt8) (after : List UInt8) : Log where
  address := .replicate 20 1
  topics := [topicID, (Vector.replicate 32 0).set 0 above, .replicate 32 0]
  data := wordBytes 32 5 ++ after
  txHash := .replicate 32 2
  index := 0

def five : Transfer := ⟨.replicate 20 1, .replicate 20 0, .replicate 20 0, 5, .replicate 32 2, 0⟩

theorem decode_loggedFive (above : UInt8) (after : List UInt8) : decode (loggedFive above after) = some five := by
  have hlength : 32 ≤ (loggedFive above after).data.length := by simp [loggedFive, wordBytes_length]
  have hvalue : wordValue ((loggedFive above after).data.take 32) = 5 := by
    rw [loggedFive, List.take_left' (wordBytes_length 32 5)]
    exact wordValue_wordBytes (by decide)
  rw [decode_of_topics rfl hlength, transferOf, hvalue]
  rfl

theorem decode_canonical_iff_five :
    five.encode.topics = (loggedFive 0 []).topics ∧ five.encode.data = (loggedFive 0 []).data :=
  (decode_canonical_iff _ _ (decode_loggedFive 0 [])).1.mpr (by decide)

/-- The bytes above an address and the bytes after the value are dropped. -/
theorem decode_not_canonical :
    decode (loggedFive 0 []) = some five ∧ decode (loggedFive 1 []) = some five ∧
    decode (loggedFive 0 [7]) = some five ∧
    five.encode.topics ≠ (loggedFive 1 []).topics ∧ five.encode.data ≠ (loggedFive 0 [7]).data := by
  refine ⟨decode_loggedFive 0 [], decode_loggedFive 1 [], decode_loggedFive 0 [7], ?_, ?_⟩
  · decide
  · decide

end EventPlatform.ChainMonitor
