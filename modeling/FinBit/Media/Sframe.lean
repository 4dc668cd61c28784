import FinBit.Lib.NonceAead
import FinBit.Lib.Reader
import FinBit.Lib.BigEndian
import FinBit.Media.RoomKeys

/-! # Sealed frames

A frame of a call goes out as its epoch, its counter and a ciphertext, whose key and nonce are derived
from the base key, the epoch and the counter. Desktop and web client have an implementation each.
-/

namespace FinBit.Media

open FinBit.Lib

def kInfoKey : Bytes := ascii "FB-SFrame-key"
def kInfoNonce : Bytes := ascii "FB-SFrame-nonce"

/-- `rd_u32`. -/
def rdU32 (p : Bytes) : UInt32 := UInt32.ofNat (beNat (p.take 4))

/-- `rd_u64`. -/
def rdU64 (p : Bytes) : UInt64 := UInt64.ofNat (beNat (p.take 8))

/-- What stands before the ciphertext, and is its associated data. -/
def frameHeader (epoch : UInt32) (counter : UInt64) : Bytes := be32 epoch ++ be64 counter

/-- `sframe_peek_epoch`. -/
def sframePeekEpoch (sealed : Bytes) : Option UInt32 :=
  if sealed.length < 12 then none else some (rdU32 sealed)

section

variable (H : Hkdf) (A : NonceAead)

def hkdfExpandLabel (out : Nat) (base label : Bytes) (epoch : UInt32) (counter : UInt64) : Bytes :=
  let info := label ++ be32 epoch ++ be64 counter
  (H.expand (H.extract [] base) info out).take out

def frameKey (base : Bytes) (epoch : UInt32) (counter : UInt64) : Bytes :=
  hkdfExpandLabel H 32 base kInfoKey epoch counter

def frameNonce (base : Bytes) (epoch : UInt32) (counter : UInt64) : Bytes :=
  hkdfExpandLabel H 12 base kInfoNonce epoch counter

/-- `aead_encrypt`; `hw` is `aes256gcm_hw_available`. -/
def aeadEncrypt (hw : Bool) (key nonce plaintext aad : Bytes) : Except String Bytes :=
  if hw then .ok (A.encrypt key nonce aad plaintext)
  else .error ("AES-256-GCM hardware acceleration unavailable on this CPU; " ++
    "XChaCha20-Poly1305 fallback not yet implemented")

/-- `aead_decrypt`. -/
def aeadDecrypt (hw : Bool) (key nonce ct aad : Bytes) : Except String (Option Bytes) :=
  if !hw then .error "AES-256-GCM hardware acceleration unavailable"
  else if ct.length < 16 then .ok none
  else .ok (A.decrypt key nonce aad ct)

/-- `sframe_seal_v1`. -/
def sframeSealV1 (hw : Bool) (baseKey : Bytes) (epoch : UInt32) (counter : UInt64)
    (plaintext : Bytes) : Except String Bytes :=
  let aad := frameHeader epoch counter
  (aeadEncrypt A hw (frameKey H baseKey epoch counter) (frameNonce H baseKey epoch counter)
    plaintext aad).map (aad ++ ·)

/-- `sframe_open_v1`. -/
def sframeOpenV1 (hw : Bool) (baseKey sealed : Bytes) : Except String (Option Bytes) :=
  if sealed.length < 12 then .ok none
  else
    let epoch := rdU32 sealed
    let counter := rdU64 (sealed.drop 4)
    aeadDecrypt A hw (frameKey H baseKey epoch counter) (frameNonce H baseKey epoch counter)
      (sealed.drop 12) (frameHeader epoch counter)

/-! ### In the browser -/

/-- `deriveFrameKey`. -/
def deriveFrameKey (baseKey infoLabel : Bytes) (epoch : UInt32) (counter : UInt64)
    (lenBytes : Nat) : Bytes :=
  (H.expand (H.extract [] baseKey) (infoLabel ++ be32 epoch ++ be64 counter) lenBytes).take lenBytes

/-- `sframeSeal`; the counter is a `BigInt`. -/
def sframeSeal (baseKey : Bytes) (epoch : UInt32) (counter : Nat) (plaintext : Bytes) : Bytes :=
  let cBig := UInt64.ofNat counter
  let fk := deriveFrameKey H baseKey (ascii "FB-SFrame-key") epoch cBig 32
  let nonce := deriveFrameKey H baseKey (ascii "FB-SFrame-nonce") epoch cBig 12
  let aad := be32 epoch ++ be64 cBig
  aad ++ A.encrypt fk nonce aad plaintext

/-- `sframeOpen`. -/
def sframeOpen (baseKey sealed : Bytes) : Option Bytes :=
  if sealed.length < 12 + 16 then none
  else
    let epoch := rdU32 sealed
    let counter := rdU64 (sealed.drop 4)
    let fk := deriveFrameKey H baseKey (ascii "FB-SFrame-key") epoch counter 32
    let nonce := deriveFrameKey H baseKey (ascii "FB-SFrame-nonce") epoch counter 12
    A.decrypt fk nonce (sealed.take 12) (sealed.drop 12)

end

/-! ### Reading a header back -/

variable {H : Hkdf} {A : NonceAead}

theorem length_be32 (n : UInt32) : (be32 n).length = 4 := length_beBytes 4 _

theorem length_frameHeader (epoch : UInt32) (counter : UInt64) :
    (frameHeader epoch counter).length = 12 := by
  simp [frameHeader, length_be32]

theorem rdU32_be32 (n : UInt32) (rest : Bytes) : rdU32 (be32 n ++ rest) = n := by
  have small : n.toNat < 256 ^ 4 := n.toNat_lt
  rw [rdU32, List.take_left' (length_be32 n), be32, beNat_beBytes, Nat.mod_eq_of_lt small,
    UInt32.ofNat_toNat]

theorem rdU64_be64 (n : UInt64) (rest : Bytes) : rdU64 (be64 n ++ rest) = n := by
  have small : n.toNat < 256 ^ 8 := n.toNat_lt
  rw [rdU64, List.take_left' (length_be64 n), be64, beNat_beBytes, Nat.mod_eq_of_lt small,
    UInt64.ofNat_toNat]

theorem read_header (epoch : UInt32) (counter : UInt64) (rest : Bytes) :
    rdU32 (frameHeader epoch counter ++ rest) = epoch ∧
      rdU64 ((frameHeader epoch counter ++ rest).drop 4) = counter ∧
        (frameHeader epoch counter ++ rest).drop 12 = rest := by
  refine ⟨?_, ?_, ?_⟩
  · rw [frameHeader, List.append_assoc, rdU32_be32]
  · rw [frameHeader, List.append_assoc, List.drop_left' (length_be32 epoch), rdU64_be64]
  · exact List.drop_left' (length_frameHeader epoch counter)

/-- The number that is written as octets is read from them. -/
theorem beBytes_beNat {octets : Bytes} {w : Nat} (sized : octets.length = w) :
    beBytes w (beNat octets) = octets := by
  have small : beNat octets < 256 ^ w := sized ▸ beNat_lt octets
  refine (beNat_inj ((length_beBytes w _).trans sized.symm)).mp ?_
  rw [beNat_beBytes, Nat.mod_eq_of_lt small]

/-- The first twelve octets are the header that is read from them. -/
theorem frameHeader_read {sealed : Bytes} (long : 12 ≤ sealed.length) :
    frameHeader (rdU32 sealed) (rdU64 (sealed.drop 4)) = sealed.take 12 := by
  have four : (sealed.take 4).length = 4 := List.length_take_of_le (by omega)
  have eight : ((sealed.drop 4).take 8).length = 8 :=
    List.length_take_of_le (by rw [List.length_drop]; omega)
  have small : beNat (sealed.take 4) < 2 ^ 32 := by
    have bound := beNat_lt (sealed.take 4)
    rw [four] at bound
    exact bound
  have small' : beNat ((sealed.drop 4).take 8) < 2 ^ 64 := by
    have bound := beNat_lt ((sealed.drop 4).take 8)
    rw [eight] at bound
    exact bound
  rw [frameHeader, rdU32, rdU64, be32, be64, UInt32.toNat_ofNat_of_lt' small,
    UInt64.toNat_ofNat_of_lt' small', beBytes_beNat four, beBytes_beNat eight]
  exact (List.take_add (l := sealed) (i := 4) (j := 8)).symm

/-! ### Sealed and opened -/

/-- A frame as it goes out. -/
def sealedFrame (H : Hkdf) (A : NonceAead) (baseKey : Bytes) (epoch : UInt32) (counter : UInt64)
    (plaintext : Bytes) : Bytes :=
  frameHeader epoch counter ++ A.encrypt (frameKey H baseKey epoch counter)
    (frameNonce H baseKey epoch counter) (frameHeader epoch counter) plaintext

theorem sframeSealV1_eq (baseKey : Bytes) (epoch : UInt32) (counter : UInt64) (plaintext : Bytes) :
    sframeSealV1 H A true baseKey epoch counter plaintext =
      .ok (sealedFrame H A baseKey epoch counter plaintext) := by
  rw [sframeSealV1, aeadEncrypt, if_pos rfl]
  rfl

/-- The epoch and the counter of a frame are what is read from it. -/
theorem sealedFrame_inj {baseKey baseKey' plaintext plaintext' : Bytes} {epoch epoch' : UInt32}
    {counter counter' : UInt64}
    (same : sealedFrame H A baseKey epoch counter plaintext =
      sealedFrame H A baseKey' epoch' counter' plaintext') : epoch = epoch' ∧ counter = counter' := by
  obtain ⟨readEpoch, readCounter, -⟩ := read_header epoch counter (A.encrypt (frameKey H baseKey epoch
    counter) (frameNonce H baseKey epoch counter) (frameHeader epoch counter) plaintext)
  obtain ⟨readEpoch', readCounter', -⟩ := read_header epoch' counter' (A.encrypt (frameKey H baseKey'
    epoch' counter') (frameNonce H baseKey' epoch' counter') (frameHeader epoch' counter') plaintext')
  rw [← sealedFrame] at readEpoch readCounter readEpoch' readCounter'
  rw [same] at readEpoch readCounter
  exact ⟨readEpoch.symm.trans readEpoch', readCounter.symm.trans readCounter'⟩

theorem peek_sealedFrame (baseKey : Bytes) (epoch : UInt32) (counter : UInt64) (plaintext : Bytes) :
    sframePeekEpoch (sealedFrame H A baseKey epoch counter plaintext) = some epoch := by
  have long : ¬(sealedFrame H A baseKey epoch counter plaintext).length < 12 := by
    rw [sealedFrame, List.length_append, length_frameHeader]
    omega
  rw [sframePeekEpoch, if_neg long, sealedFrame, (read_header epoch counter _).1]

/-- In terms of the octets that were read. -/
theorem sframeOpenV1_eq (baseKey sealed : Bytes) :
    sframeOpenV1 H A true baseKey sealed = .ok (if sealed.length < 12 then none else
      A.decrypt (frameKey H baseKey (rdU32 sealed) (rdU64 (sealed.drop 4)))
        (frameNonce H baseKey (rdU32 sealed) (rdU64 (sealed.drop 4)))
        (frameHeader (rdU32 sealed) (rdU64 (sealed.drop 4))) (sealed.drop 12)) := by
  rw [sframeOpenV1]
  split
  · rfl
  · rw [aeadDecrypt, if_neg (by simp)]
    split
    next short => rw [A.decrypt_short short]
    · rfl

/-- What opens was sealed under the same base key, and to the text that comes out. -/
theorem sframeOpenV1_eq_some_iff {baseKey sealed plaintext : Bytes} :
    sframeOpenV1 H A true baseKey sealed = .ok (some plaintext) ↔
      ∃ epoch counter, sealed = sealedFrame H A baseKey epoch counter plaintext := by
  rw [sframeOpenV1_eq, Except.ok.injEq]
  constructor
  · intro opened
    split at opened
    · cases opened
    next long =>
      refine ⟨rdU32 sealed, rdU64 (sealed.drop 4), ?_⟩
      rw [sealedFrame, A.decrypt_eq_some_iff.mp opened, frameHeader_read (by omega),
        List.take_append_drop]
  · rintro ⟨epoch, counter, rfl⟩
    have long : ¬(sealedFrame H A baseKey epoch counter plaintext).length < 12 := by
      rw [sealedFrame, List.length_append, length_frameHeader]
      omega
    obtain ⟨readEpoch, readCounter, behind⟩ := read_header epoch counter (A.encrypt (frameKey H
      baseKey epoch counter) (frameNonce H baseKey epoch counter) (frameHeader epoch counter) plaintext)
    rw [if_neg long, sealedFrame, readEpoch, readCounter, behind, A.decrypt_encrypt]

/-! ### The two clients -/

theorem sframeOpenV1_eq_sframeOpen (baseKey sealed : Bytes) :
    sframeOpenV1 H A true baseKey sealed = .ok (sframeOpen H A baseKey sealed) := by
  rw [sframeOpenV1_eq, sframeOpen]
  by_cases header : sealed.length < 12
  · rw [if_pos header, if_pos (by omega)]
  · rw [if_neg header]
    by_cases tag : sealed.length < 12 + 16
    · -- no room for a tag
      rw [if_pos tag, A.decrypt_short (by rw [List.length_drop]; omega)]
    · rw [if_neg tag, frameHeader_read (by omega)]
      rfl

/-- Desktop and browser seal alike and open alike, whatever arrives. -/
theorem clients_agree (baseKey : Bytes) :
    (∀ epoch counter plaintext, sframeSealV1 H A true baseKey epoch (UInt64.ofNat counter) plaintext =
      .ok (sframeSeal H A baseKey epoch counter plaintext)) ∧
    ∀ sealed, sframeOpenV1 H A true baseKey sealed = .ok (sframeOpen H A baseKey sealed) :=
  ⟨fun epoch counter plaintext => sframeSealV1_eq .., fun sealed => sframeOpenV1_eq_sframeOpen ..⟩

theorem sframeOpen_sealedFrame (baseKey : Bytes) (epoch : UInt32) (counter : UInt64) (plaintext : Bytes) :
    sframeOpen H A baseKey (sealedFrame H A baseKey epoch counter plaintext) = some plaintext :=
  Except.ok.inj ((sframeOpenV1_eq_sframeOpen _ _).symm.trans
    (sframeOpenV1_eq_some_iff.mpr ⟨epoch, counter, rfl⟩))

end FinBit.Media
