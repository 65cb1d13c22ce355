import TurboFlow.Durable.Record
import TurboFlow.Lib.Run

/-!
# Admission identities

The network intake names a message by its protocol, device, type, sequence and payload digest; a
durable buffer that generates identities by generation, namespace and a number from a shared
counter. Both texts can be read back although a device id may hold the separator: numbers do not,
and the digest has a fixed width.
-/

namespace TurboFlow.Durable

open List Inbox Word Transition
open Function (update)

inductive ProtocolKind
  | mqttSn
  | coap
  | lwm2m
  | ocpp
  | gbt32960
  | jtt808
  | unknown (code : ℕ)

def ProtocolKind.name : ProtocolKind → Option String
  | mqttSn => some "mqtt-sn"
  | coap => some "coap"
  | lwm2m => some "lwm2m"
  | ocpp => some "ocpp"
  | gbt32960 => some "gbt32960"
  | jtt808 => some "jtt808"
  | unknown _ => none

/-- A decoded message with the texts of its metadata. `payloadHeld` fails for a null payload of
positive size. -/
structure Decoded where
  protocol : ProtocolKind
  deviceId : Bytes
  messageType : ℕ
  sequence : ℕ
  correlationId : Bytes
  payload : Bytes
  payloadHeld : Bool

/-- `%0*x` for a number that fits the width. -/
def hexPadded : ℕ → ℕ → Bytes
  | 0, _ => []
  | width + 1, n =>
    hexPadded width (n / 16) ++ [UInt8.ofNat (if n % 16 < 10 then 48 + n % 16 else 87 + n % 16)]

def intakeAdmission (name : String) (message : Decoded) (digest : UInt64 × UInt64) : Bytes :=
  bytesOf name ++ 47 :: message.deviceId ++ 47 :: bytesOf (toString message.messageType) ++
    47 :: bytesOf (toString message.sequence) ++ 47 :: hexPadded 16 digest.1.toNat ++
    hexPadded 16 digest.2.toNat

inductive IntakeStatus
  | eproto
  | emsgsize

/-- `intake_identity_resolve` of a sink with the source `sourceId`. -/
def intakeIdentityResolve (digest : Bytes → UInt64 × UInt64) (sourceId : Bytes)
    (message : Decoded) : Except IntakeStatus DurableIdentity :=
  match message.protocol.name with
  | none => .error .eproto
  | some name =>
    if message.deviceId = [] ∨ ¬ message.payloadHeld then .error .eproto
    else
      let admissionId := intakeAdmission name message (digest message.payload)
      if admissionId.length ≥ admissionIdMax + 1 then .error .emsgsize
      else if message.correlationId.length = 64 then .error .eproto
      else .ok ⟨sourceId, [], [], [], admissionId, message.correlationId, message.sequence⟩

/-- An admission in `flow_durable_buffer_next_sequence`. -/
inductive Draw
  | start
  | observed (value : ℕ)
  | drawn (value : ℕ)
  | exhausted

/-- The counter of a binding and its concurrent admissions. -/
structure Drawing where
  nextSequence : ℕ
  draws : ℕ → Draw

/-- The atomic accesses of an admission; a weak exchange may fail without a reason. -/
inductive Access
  | load (i : ℕ)
  | exchange (i : ℕ) (spurious : Bool)

namespace Drawing

def init : Drawing := ⟨0, fun _ => .start⟩

def access (s : Drawing) : Access → Option Drawing
  | .load i =>
    match s.draws i with
    | .start => some { s with draws := update s.draws i (.observed s.nextSequence) }
    | _ => none
  | .exchange i spurious =>
    match s.draws i with
    | .observed value =>
      match Durable.nextSequence value with
      | .error _ => some { s with draws := update s.draws i .exhausted }
      | .ok sequence =>
        if s.nextSequence = value ∧ ¬ spurious then
          some ⟨sequence, update s.draws i (.drawn value)⟩
        else some { s with draws := update s.draws i (.observed s.nextSequence) }
    | _ => none

end Drawing

section

variable {α : Type*} {x : α} {a a' b b' : List α}

theorem split_first (ha : x ∉ a) (ha' : x ∉ a') (h : a ++ x :: b = a' ++ x :: b') :
    a = a' ∧ b = b' := by
  rcases append_eq_append_iff.mp h with ⟨c, rfl, hc⟩ | ⟨c, rfl, hc⟩ <;> cases c <;> simp_all

theorem split_last (hb : x ∉ b) (hb' : x ∉ b') (h : a ++ x :: b = a' ++ x :: b') :
    a = a' ∧ b = b' := by
  have hreverse := congrArg reverse h
  simp only [reverse_append, reverse_cons, append_assoc, singleton_append] at hreverse
  have hsplit := split_first (by simpa using hb) (by simpa using hb') hreverse
  simpa [and_comm] using hsplit

end

theorem toList_loop (bytes : ByteArray) (i : ℕ) (l : Bytes) :
    ByteArray.toList.loop bytes i l = l.reverse ++ bytes.data.toList.drop i := by
  fun_induction ByteArray.toList.loop bytes i l with
  | case1 i l h ih =>
    have hget : bytes.get! i = bytes.data[i] := getElem!_pos bytes.data i h
    rw [ih, reverse_cons, append_assoc, singleton_append, hget, ← Array.getElem_toList,
      getElem_cons_drop]
  | case2 i l h => simp [drop_eq_nil_of_le (not_lt.mp h : bytes.data.toList.length ≤ i)]

theorem bytesOf_eq (text : String) : bytesOf text = text.toByteArray.data.toList :=
  toList_loop text.toByteArray 0 []

theorem bytesOf_inj : bytesOf a = bytesOf b ↔ a = b := by
  rw [bytesOf_eq, bytesOf_eq, Array.toList_inj, ← ByteArray.ext_iff, String.toByteArray_inj]

theorem not_mem_number (hx : x < 48 ∨ 57 < x) (n : ℕ) : x ∉ bytesOf (toString n) := by
  intro h
  rw [bytesOf_eq, Nat.toString_eq_repr, Nat.repr_eq_ofList_toDigits, String.toByteArray_ofList] at h
  obtain ⟨c, hc, hb⟩ := by simpa [List.utf8Encode] using h
  obtain ⟨hge, hle⟩ : 48 ≤ c.val ∧ c.val ≤ 57 := by
    simpa [Char.isDigit] using Nat.isDigit_of_mem_toDigits (by decide) le_rfl hc
  rw [String.utf8EncodeChar_eq_singleton (Char.utf8Size_eq_one_iff.mpr (by grind)),
    mem_singleton] at hb
  grind [UInt32.le_iff_toNat_le, UInt8.lt_iff_toNat_lt, UInt32.toNat_toUInt8]

theorem hexPadded_length (width n : ℕ) : (hexPadded width n).length = width := by
  induction width generalizing n with
  | zero => rfl
  | succ width ih => simp [hexPadded, ih]

theorem hexPadded_inj (hm : m < 16 ^ width) (hn : n < 16 ^ width)
    (h : hexPadded width m = hexPadded width n) : m = n := by
  induction width generalizing m n with
  | zero => simp_all
  | succ width ih =>
    have hdigit : ∀ i < 16, ∀ j < 16, UInt8.ofNat (if i < 10 then 48 + i else 87 + i) =
        UInt8.ofNat (if j < 10 then 48 + j else 87 + j) → i = j := by decide
    obtain ⟨hrest, hlast⟩ := append_inj' h rfl
    rw [pow_succ'] at hm hn
    have hdiv := ih (Nat.div_lt_of_lt_mul hm) (Nat.div_lt_of_lt_mul hn) hrest
    have hmod := hdigit _ (m.mod_lt (by decide)) _ (n.mod_lt (by decide))
      (singleton_inj.mp hlast)
    omega

theorem number_inj {m n : ℕ} (h : bytesOf (toString m) = bytesOf (toString n)) : m = n := by
  have hvalue := congrArg (fun s => Nat.ofDigitChars 10 s.toList 0) (bytesOf_inj.mp h)
  simpa [Nat.toString_eq_repr, Nat.toList_repr] using hvalue

theorem split_number {m n : ℕ} (hx : x < 48 ∨ 57 < x)
    (h : a ++ x :: bytesOf (toString m) = a' ++ x :: bytesOf (toString n)) : a = a' ∧ m = n := by
  obtain ⟨ha, hnumber⟩ := split_last (not_mem_number hx m) (not_mem_number hx n) h
  exact ⟨ha, number_inj hnumber⟩

theorem ProtocolKind.name_spec {k : ProtocolKind} (h : k.name = some text) :
    47 ∉ bytesOf text ∧ ∀ l : ProtocolKind, l.name = some text → k = l := by
  rw [bytesOf_eq]
  cases k <;> cases h <;> refine ⟨by decide, fun l hl => ?_⟩ <;> cases l <;> simp [name] at hl ⊢

theorem intakeAdmission_inj {p q : Decoded} (hp : p.protocol.name = some text)
    (hq : q.protocol.name = some text') (h : intakeAdmission text p d = intakeAdmission text' q e) :
    p.protocol = q.protocol ∧ p.deviceId = q.deviceId ∧ p.messageType = q.messageType ∧
      p.sequence = q.sequence ∧ d = e := by
  -- The text is read from its end, since only the device id may hold the separator.
  obtain ⟨h, hlow⟩ := append_inj' h (by rw [hexPadded_length, hexPadded_length])
  obtain ⟨h, hhigh⟩ := append_inj' h (by simp [hexPadded_length])
  obtain ⟨h, hsequence⟩ := split_number (by decide) h
  obtain ⟨h, htype⟩ := split_number (by decide) h
  obtain ⟨hplain, hprotocol⟩ := ProtocolKind.name_spec hp
  obtain ⟨hname, hdevice⟩ := split_first hplain (ProtocolKind.name_spec hq).1 h
  obtain rfl := bytesOf_inj.mp hname
  refine ⟨hprotocol _ hq, hdevice, htype, hsequence, Prod.ext ?_ ?_⟩
  · exact UInt64.toNat_inj.mp (hexPadded_inj d.1.toNat_lt e.1.toNat_lt (cons.inj hhigh).2)
  · exact UInt64.toNat_inj.mp (hexPadded_inj d.2.toNat_lt e.2.toNat_lt hlow)

theorem generatedAdmission_inj (h : generatedAdmission e m = generatedAdmission e' n) :
    e.providerGeneration = e'.providerGeneration ∧ e.admissionNamespace = e'.admissionNamespace ∧
      m = n := by
  have happend : ∀ a b, bytesOf (a ++ b) = bytesOf a ++ bytesOf b := by
    simp [bytesOf_eq, String.toByteArray_append]
  have hcolon : bytesOf ":" = [58] := by rw [bytesOf_eq]; rfl
  simp only [generatedAdmission, happend, hcolon, append_assoc, singleton_append] at h
  obtain ⟨hgeneration, h⟩ := split_first (not_mem_number (by decide) _)
    (not_mem_number (by decide) _) (append_cancel_left h)
  obtain ⟨hnamespace, hsequence⟩ := split_number (by decide) h
  exact ⟨number_inj hgeneration, bytesOf_inj.mp hnamespace, hsequence⟩

/-- What an admission drew is behind the counter, and no other admission drew it. -/
structure Drawing.Sound (s : Drawing) : Prop where
  le : s.nextSequence ≤ max64
  lt : ∀ i v, s.draws i = .drawn v → v < s.nextSequence
  distinct : ∀ i j v, s.draws i = .drawn v → s.draws j = .drawn v → i = j

theorem Drawing.Sound.access {s s' : Drawing} (h : s.Sound) (haccess : s.access a = some s') :
    s'.Sound := by
  obtain ⟨hle, hlt, hdistinct⟩ := h
  unfold Drawing.access at haccess
  split at haccess
  · split at haccess <;> cases haccess
    exact ⟨hle, by grind, by grind⟩
  split at haccess
  · -- An exchange that succeeds draws the value it replaces, and the counter moves past it.
    unfold Durable.nextSequence at haccess
    split_ifs at haccess <;> cases haccess <;> exact ⟨by grind, by grind, by grind⟩
  · cases haccess

/-- An admission that drew behind `value` has written the identity. -/
def Generates (encoding : Encoding) (value : ℕ) (bytes : Bytes) : Prop :=
  encoding.identityMode = .generated ∧ ∃ drain message record,
    (encodeRecord encoding drain value message).2 = .ok record ∧ record.admissionId = bytes

theorem Generates.eq (h : Generates encoding value bytes) :
    bytes = generatedAdmission encoding (value + 1) := by
  obtain ⟨hmode, drain, message, record, hrecord, rfl⟩ := h
  obtain ⟨content, identity, -, -, rfl, hgenerated, -⟩ := encodeRecord_ok hrecord
  exact hgenerated hmode

theorem intakeIdentityResolve_ok (h : intakeIdentityResolve digest sourceId p = .ok identity) :
    ∃ text, p.protocol.name = some text ∧
      identity.admissionId = intakeAdmission text p (digest p.payload) := by
  unfold intakeIdentityResolve at h
  grind

/-- Messages of a sink share an identity when they agree in what it is made of. Admissions that
generate identities write different ones, also those of bindings with different generations or
namespaces. -/
theorem admission_identities (digest : Bytes → UInt64 × UInt64) (sourceId : Bytes) :
    (∀ p q i j, intakeIdentityResolve digest sourceId p = .ok i →
      intakeIdentityResolve digest sourceId q = .ok j →
      (i.admissionId = j.admissionId ↔ p.protocol = q.protocol ∧ p.deviceId = q.deviceId ∧
        p.messageType = q.messageType ∧ p.sequence = q.sequence ∧
        digest p.payload = digest q.payload)) ∧
    (∀ tr s, Run (fun s a s' => Drawing.access s a = some s') .init tr s →
      s.nextSequence ≤ max64 ∧ ∀ encoding i j m n bytes, i ≠ j → s.draws i = .drawn m →
        s.draws j = .drawn n → Generates encoding m bytes → ¬ Generates encoding n bytes) ∧
    ∀ encoding encoding' m n bytes, (encoding.providerGeneration ≠ encoding'.providerGeneration ∨
        encoding.admissionNamespace ≠ encoding'.admissionNamespace) →
      Generates encoding m bytes → ¬ Generates encoding' n bytes := by
  refine ⟨fun p q i j hi hj => ?_, fun tr s hrun => ?_, fun _ _ _ _ _ hdiffer hm hn => ?_⟩
  · obtain ⟨text, hp, hid⟩ := intakeIdentityResolve_ok hi
    obtain ⟨text', hq, hid'⟩ := intakeIdentityResolve_ok hj
    rw [hid, hid']
    refine ⟨intakeAdmission_inj hp hq, fun ⟨hprotocol, hdevice, htype, hsequence, hdigest⟩ => ?_⟩
    cases (hprotocol ▸ hp).symm.trans hq
    simp only [intakeAdmission, hdevice, htype, hsequence, hdigest]
  · obtain ⟨hle, -, hdistinct⟩ := hrun.invariant (P := Drawing.Sound)
      ⟨Nat.zero_le _, nofun, nofun⟩ fun _ _ _ => Drawing.Sound.access
    refine ⟨hle, fun encoding i j m n bytes hne hi hj hm hn => hne ?_⟩
    cases (generatedAdmission_inj (hm.eq.symm.trans hn.eq)).2.2
    exact hdistinct i j m hi hj
  obtain ⟨hgeneration, hnamespace, -⟩ := generatedAdmission_inj (hm.eq.symm.trans hn.eq)
  exact hdiffer.elim (· hgeneration) (· hnamespace)

def coapMessage (sequence : ℕ) : Decoded :=
  ⟨.coap, [100], 1, sequence, [], [], true⟩

/-- Two messages that differ in their sequence. -/
theorem admission_identities_two : ∃ i j,
    intakeIdentityResolve (fun _ => (0, 0)) [] (coapMessage 1) = .ok i ∧
    intakeIdentityResolve (fun _ => (0, 0)) [] (coapMessage 2) = .ok j ∧
    i.admissionId ≠ j.admissionId := by
  have hok : ∀ n ∈ [1, 2], intakeIdentityResolve (fun _ => (0, 0)) [] (coapMessage n) =
      .ok ⟨[], [], [], [], intakeAdmission "coap" (coapMessage n) (0, 0), [], n⟩ := by
    simp only [forall_mem_cons, intakeIdentityResolve, intakeAdmission, bytesOf_eq]
    exact ⟨rfl, rfl, nofun⟩
  refine ⟨_, _, hok 1 (by simp), hok 2 (by simp), fun hsame => ?_⟩
  have hequal := ((admission_identities _ _).1 _ _ _ _ (hok 1 (by simp)) (hok 2 (by simp))).mp hsame
  simp [coapMessage] at hequal

end TurboFlow.Durable
