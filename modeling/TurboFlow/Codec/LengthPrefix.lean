import Mathlib.Data.List.Induction
import Mathlib.Tactic.Linarith
import TurboFlow.Lib.LittleEndian
import TurboFlow.Lib.Word

/-!
# Frames with a length prefix

The decoder compares the size of the payload with the size of the prefix and the encoded length,
added in a machine word. The sum wraps for the last eight lengths of a 64-bit prefix: a payload that
is too short for one of them is refused as too long.
-/

namespace TurboFlow.Codec

open List Word LittleEndian

inductive LengthPrefix
  | le32
  | le64
  | be32
  | be64

inductive DecodeStatus
  | eproto
  | erange
  | efbig
  | enotsup
  | enomem
  deriving DecidableEq

structure LengthAdapter where
  lengthPrefix : LengthPrefix
  maxPayloadSize : ℕ

/-- `flow_codec_load_le` from the byte `i` on. -/
def loadLe : ℕ → ℕ → List UInt8 → ℕ
  | _, value, [] => value
  | i, value, b :: data => loadLe (i + 1) (value ||| (b.toNat <<< (i * 8)) % 2 ^ 64) data

def loadBe (data : List UInt8) : ℕ :=
  data.foldl (fun value b => (value <<< 8) % 2 ^ 64 ||| b.toNat) 0

namespace LengthPrefix

def size : LengthPrefix → ℕ
  | le64 | be64 => 8
  | le32 | be32 => 4

def load : LengthPrefix → List UInt8 → ℕ
  | be32, data | be64, data => loadBe data
  | le32, data | le64, data => loadLe 0 0 data

/-- The length that the bytes of a prefix stand for. -/
def encoded : LengthPrefix → List UInt8 → ℕ
  | be32, head | be64, head => decode head.reverse
  | le32, head | le64, head => decode head

end LengthPrefix

def replacePayload (allocated : Bool) (data : List UInt8) : Except DecodeStatus (List UInt8) :=
  if allocated then .ok data else .error .enomem

def transformLength (adapter : LengthAdapter) (allocated : Bool) (payload : List UInt8) :
    Except DecodeStatus (List UInt8) :=
  let prefixSize := adapter.lengthPrefix.size
  if payload.length < prefixSize then .error .eproto
  else
    let frameLen := adapter.lengthPrefix.load (payload.take prefixSize)
    if frameLen > max64 then .error .erange
    else if adapter.maxPayloadSize > 0 ∧ frameLen > adapter.maxPayloadSize then .error .efbig
    else if payload.length < add64 prefixSize frameLen then .error .eproto
    else if payload.length > add64 prefixSize frameLen then .error .enotsup
    else replacePayload allocated ((payload.drop prefixSize).take frameLen)

/-- The bytes read so far lie below the next one. -/
theorem loadLe_eq (hvalue : value < 2 ^ (i * 8)) (h : value + 2 ^ (i * 8) * decode data < 2 ^ 64) :
    loadLe i value data = value + 2 ^ (i * 8) * decode data := by
  induction data generalizing i value with
  | nil => rfl
  | cons b data ih =>
    have hb : b.toNat < 256 := b.toNat_lt
    have hnext : 2 ^ ((i + 1) * 8) = 2 ^ (i * 8) * 256 := by rw [Nat.add_mul, pow_add]; rfl
    rw [decode, Nat.mul_add, ← Nat.mul_assoc, ← hnext, ← Nat.add_assoc] at h ⊢
    have hor : value ||| b.toNat <<< (i * 8) % 2 ^ 64 = value + 2 ^ (i * 8) * b.toNat := by
      rw [Nat.shiftLeft_eq, Nat.mul_comm, Nat.mod_eq_of_lt (by omega), Nat.mul_comm,
        ← Nat.shiftLeft_eq, Nat.or_comm, ← Nat.shiftLeft_add_eq_or_of_lt hvalue, Nat.shiftLeft_eq,
        Nat.mul_comm, Nat.add_comm]
    rw [loadLe, hor, ih (by rw [hnext]; nlinarith) h]

theorem loadBe_eq (h : decode data.reverse < 2 ^ 64) : loadBe data = decode data.reverse := by
  induction data using reverseRecOn with
  | nil => rfl
  | append_singleton data b ih =>
    rw [reverse_concat, decode] at h ⊢
    rw [loadBe, foldl_append, foldl_cons, foldl_nil, ← loadBe, ih (by omega), Nat.shiftLeft_eq,
      Nat.mod_eq_of_lt (by omega), ← Nat.shiftLeft_eq,
      ← Nat.shiftLeft_add_eq_or_of_lt b.toNat_lt, Nat.shiftLeft_eq]
    omega

theorem LengthPrefix.load_eq {p : LengthPrefix} (h : p.encoded data < 2 ^ 64) :
    p.load data = p.encoded data := by
  cases p with
  | be32 | be64 => exact loadBe_eq h
  | le32 | le64 =>
    have hload := @loadLe_eq 0 0 data (by decide) (by simpa [encoded] using h)
    simpa [load, encoded] using hload

theorem LengthPrefix.encoded_lt (p : LengthPrefix) (data : List UInt8) :
    p.encoded data < 256 ^ data.length := by
  cases p with
  | be32 | be64 => simpa [encoded] using decode_lt data.reverse
  | le32 | le64 => exact decode_lt data

/-- A decoder without a limit accepts the frames, and tells the payloads that are too short from
those that are too long. -/
structure Classifies (p : LengthPrefix) (allocated : Bool) (payload : List UInt8) : Prop where
  ok_iff : ∀ bytes, transformLength ⟨p, 0⟩ allocated payload = .ok bytes ↔ allocated = true ∧
    ∃ head, payload = head ++ bytes ∧ head.length = p.size ∧ bytes.length = p.encoded head
  eproto_iff : transformLength ⟨p, 0⟩ allocated payload = .error .eproto ↔
    payload.length < p.size ∨ (payload.drop p.size).length < p.encoded (payload.take p.size)
  enotsup_iff : transformLength ⟨p, 0⟩ allocated payload = .error .enotsup ↔
    p.size ≤ payload.length ∧ p.encoded (payload.take p.size) < (payload.drop p.size).length

section

variable (p : LengthPrefix) (allocated : Bool) (payload : List UInt8)

theorem classifies_of_fits (hfits : p.size + p.encoded (payload.take p.size) < 2 ^ 64) :
    Classifies p allocated payload := by
  suffices h : _ ∧ _ ∧ _ from ⟨h.1, h.2.1, h.2.2⟩
  have hframe : ∀ bytes, (∃ head, payload = head ++ bytes ∧ head.length = p.size ∧
      bytes.length = p.encoded head) ↔ payload.drop p.size = bytes ∧
        payload.length = p.size + p.encoded (payload.take p.size) := by
    intro bytes
    constructor
    · rintro ⟨head, rfl, hhead, hbytes⟩
      simp [← hhead, hbytes]
    rintro ⟨rfl, hlength⟩
    exact ⟨_, (take_append_drop ..).symm, by simp [hlength], by simp [hlength]⟩
  have hload := @p.load_eq (payload.take p.size) (by omega)
  have hsum : add64 p.size (p.encoded (payload.take p.size)) = _ := Nat.mod_eq_of_lt hfits
  simp only [hframe, length_drop, transformLength, replacePayload, hload, hsum, max64]
  generalize p.encoded (payload.take p.size) = n at *
  -- One case for each return of the decoder.
  split_ifs
  all_goals simp
  all_goals grind [take_of_length_le]

/-- A sum that wraps is at most seven, which a payload with the whole prefix exceeds. -/
theorem transformLength_of_wraps (hwraps : 2 ^ 64 ≤ p.size + p.encoded (payload.take p.size)) :
    transformLength ⟨p, 0⟩ allocated payload = .error .enotsup := by
  have hlt := p.encoded_lt (payload.take p.size)
  have hsize : p.size = 4 ∨ p.size = 8 := by cases p <;> simp [LengthPrefix.size]
  have htake : (payload.take p.size).length = 8 := by
    by_contra hne
    have hseven : (payload.take p.size).length ≤ 7 := by
      rw [length_take] at hne ⊢
      omega
    have hpow : 256 ^ (payload.take p.size).length ≤ 256 ^ 7 :=
      Nat.pow_le_pow_right (by decide) hseven
    omega
  rw [htake] at hlt
  have hload := @p.load_eq (payload.take p.size) hlt
  rw [length_take] at htake
  have hsum : add64 p.size (p.encoded (payload.take p.size)) < 8 := by
    rw [add64]
    omega
  simp only [transformLength, hload]
  rw [if_neg (by omega), if_neg (by simp [max64]; omega), if_neg (by simp), if_neg (by omega),
    if_pos (by omega)]

/-- Without a limit, a decoder classifies a payload exactly where the sum of the sizes is a word. -/
theorem transformLength_classifies_iff (hlength : payload.length < 2 ^ 64) :
    Classifies p allocated payload ↔ p.size + p.encoded (payload.take p.size) < 2 ^ 64 := by
  refine ⟨fun h => ?_, classifies_of_fits p allocated payload⟩
  by_contra hwraps
  have henotsup := transformLength_of_wraps p allocated payload (Nat.le_of_not_lt hwraps)
  obtain ⟨hsize, hlong⟩ := h.enotsup_iff.mp henotsup
  rw [length_drop] at hlong
  omega

end

theorem transformLength_classifies_byte :
    transformLength ⟨.be32, 0⟩ true [0, 0, 0, 1, 7] = .ok [7] :=
  (((transformLength_classifies_iff .be32 true [0, 0, 0, 1, 7] (by decide)).mpr
    (by decide)).ok_iff [7]).mpr ⟨rfl, [0, 0, 0, 1], by decide⟩

/-- No byte follows a prefix of eight bytes `255`, and the payload is refused as too long. -/
theorem transformLength_wraps :
    transformLength ⟨.le64, 0⟩ true (replicate 8 255) = .error .enotsup ∧
      LengthPrefix.encoded .le64 (replicate 8 255) = 2 ^ 64 - 1 := by
  decide

end TurboFlow.Codec
