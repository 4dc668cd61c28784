import FinBit.Desktop.AttachmentFrames
import FinBit.Desktop.DirectMessages
import FinBit.Lib.SignedColumns

/-! # Disappearing messages

The sender of a message chooses how long it lives. The deadline is a sum modulo 2^64, it is stored in
a signed column where zero means never, and only the deadline of a text is stored at all.
-/

namespace FinBit.Desktop

open FinBit.Lib FinBit.Lib.Sql FinBit.Store

/-! ### Storing a message -/

section

variable (P : StoreCrypto) (s : SqliteStore) (draws : Store.Draws)

/-- What the dispatch of an envelope stores of its payload. -/
def storeInbound (envelopeId sender : Bytes) (payload : DmPayload) (rxMs : UInt64) : SqliteStore :=
  match payload.body with
  | .text text =>
    if payload.ttlMs > 0 then
      s.appendInboxWithExpiry P draws (.ofVector envelopeId) (.of sender) (.ofVector text) rxMs
        (rxMs + payload.ttlMs)
    else s.appendInbox P draws (.ofVector envelopeId) (.of sender) (.ofVector text) rxMs
  | .attachment mime filename content =>
    -- its lifetime is not looked at
    if content.length ≤ kMaxInlineAttachmentBytes then
      s.appendInbox P draws (.ofVector envelopeId) (.of sender)
        (.ofVector (frameAttachment mime filename content)) rxMs
    else s
  | _ => s

end

/-- The row of a message is removed exactly when its time is over, over the natural numbers, and
never if its sender has set none. The row may have been wrapped under another key since. -/
def OnTime (payload : DmPayload) (rxMs now : UInt64) : Prop :=
  ∀ P s draws envelopeId sender,
    ∀ row ∈ (storeInbound P s draws envelopeId sender payload rxMs).db.inbox.rows,
      row ∉ s.db.inbox.rows →
      ∀ later : SqliteStore, ∀ row' ∈ later.db.inbox.rows, row'.key = row.key → row'.info = row.info →
        (row' ∉ (later.pruneExpired now).db.inbox.rows ↔
          payload.ttlMs ≠ 0 ∧ rxMs.toNat + payload.ttlMs.toNat ≤ now.toNat)

/-- What keeps the deadline of a stored message from being missed. -/
def KeepsDeadline (payload : DmPayload) (rxMs now : UInt64) : Prop :=
  payload.ttlMs ≠ 0 →
    let deadline := rxMs.toNat + payload.ttlMs.toNat
    match payload.body with
    | .text _ =>
      if deadline < 2 ^ 63 then now.toNat < 2 ^ 63
      else
        now.toNat < deadline ∧
          ¬(2 ^ 64 < deadline ∧ deadline ≤ 2 ^ 64 + now.toNat ∧ now.toNat < 2 ^ 63)
    | .attachment _ _ content =>
      content.length ≤ kMaxInlineAttachmentBytes → now.toNat < deadline
    | _ => True

/-! ### The row of a message -/

/-- The deadline that is stored. -/
def storedDeadline (payload : DmPayload) (rxMs : UInt64) : UInt64 :=
  match payload.body with
  | .text _ => if payload.ttlMs > 0 then rxMs + payload.ttlMs else 0
  | _ => 0

theorem info_of_insertMessage {t : MessageTable} {envelopeId peerPub stored : Span}
    {timestampMs expiresAtMs : UInt64} {row : Row (Option Bytes) MessageInfo Bytes}
    (listed : row ∈ (SqliteStore.insertMessage t envelopeId peerPub stored timestampMs expiresAtMs).rows)
    (new : row ∉ t.rows) : row.info.expiresAtMs = expiresAtMs.toInt64 := by
  unfold SqliteStore.insertMessage at listed
  split at listed
  · unfold Table.insertOrIgnore Table.insert at listed
    split at listed
    · obtain before | last := List.mem_append.mp listed
      · exact absurd before new
      · rw [List.mem_singleton.mp last]
    · exact absurd listed new
  · exact absurd listed new

theorem info_of_storeInbound {P : StoreCrypto} {s : SqliteStore} {draws : Store.Draws}
    {envelopeId sender : Bytes} {payload : DmPayload} {rxMs : UInt64}
    {row : Row (Option Bytes) MessageInfo Bytes}
    (listed : row ∈ (storeInbound P s draws envelopeId sender payload rxMs).db.inbox.rows)
    (new : row ∉ s.db.inbox.rows) :
    row.info.expiresAtMs = (storedDeadline payload rxMs).toInt64 ∧
      ∀ mime filename content, payload.body = .attachment mime filename content →
        content.length ≤ kMaxInlineAttachmentBytes := by
  unfold storeInbound at listed
  unfold storedDeadline
  split at listed
  next text body =>
    rw [body]
    dsimp only
    split at listed
    next lives =>
      rw [if_pos lives]
      exact ⟨info_of_insertMessage listed new, nofun⟩
    next forever =>
      rw [if_neg forever]
      exact ⟨info_of_insertMessage listed new, nofun⟩
  next mime filename content body =>
    rw [body]
    split at listed
    next fits =>
      refine ⟨info_of_insertMessage listed new, fun m f c same => ?_⟩
      cases same
      exact fits
    · exact absurd listed new
  · exact absurd listed new

/-! ### When it is removed -/

theorem not_mem_pruneExpired_iff {later : SqliteStore} {now : UInt64}
    {row : Row (Option Bytes) MessageInfo Bytes} (listed : row ∈ later.db.inbox.rows) :
    row ∉ (later.pruneExpired now).db.inbox.rows ↔ SqliteStore.expired now row.info = true := by
  have rows : row ∈ (later.pruneExpired now).db.inbox.rows ↔
      row ∈ later.db.inbox.rows ∧ (!SqliteStore.expired now row.info) = true := List.mem_filter
  rw [rows]
  cases SqliteStore.expired now row.info <;> simp [listed]

/-- A stored deadline that wraps around or that counts as negative is compared as it is stored. -/
theorem expired_iff {info : MessageInfo} {deadline now : UInt64}
    (stored : info.expiresAtMs = deadline.toInt64) :
    SqliteStore.expired now info = true ↔
      0 < deadline.toNat ∧ deadline.toNat ≤ now.toNat ∧ now.toNat < 2 ^ 63 := by
  rw [SqliteStore.expired, stored, Bool.and_eq_true, decide_eq_true_iff, decide_eq_true_iff,
    gt_iff_lt, toInt64_pos_le_iff]

/-- The bodies that are stored in the inbox. -/
def Storable : DmBody → Prop
  | .text _ => True
  | .attachment _ _ content => content.length ≤ kMaxInlineAttachmentBytes
  | _ => False

theorem storable_of_new {P : StoreCrypto} {s : SqliteStore} {draws : Store.Draws}
    {envelopeId sender : Bytes} {payload : DmPayload} {rxMs : UInt64}
    {row : Row (Option Bytes) MessageInfo Bytes}
    (listed : row ∈ (storeInbound P s draws envelopeId sender payload rxMs).db.inbox.rows)
    (new : row ∉ s.db.inbox.rows) : Storable payload.body := by
  have fits := (info_of_storeInbound listed new).2
  unfold storeInbound at listed
  unfold Storable
  cases body : payload.body with
  | text text => trivial
  | attachment mime filename content => exact fits mime filename content body
  | _ =>
    rw [body] at listed
    exact absurd listed new

private def blankKey : Key := .filled 0

private def blankDraws : Store.Draws := .filled 0

/-- A new store with keys, in which every value is wrapped. -/
private def blankStore : SqliteStore where
  db := .empty
  atRest := some ⟨blankKey, blankKey, 0, 0,
    ⟨blankKey, blankKey, blankKey, blankKey, blankKey, blankKey, blankKey, blankKey, blankKey⟩⟩

private theorem mem_blankStore (plaintext : Span) (timestampMs expiresAtMs : UInt64) :
    ∃ row, row ∈ (blankStore.appendInboxWithExpiry .unchecked blankDraws (.of [1]) (.of [2]) plaintext
      timestampMs expiresAtMs).db.inbox.rows :=
  ⟨_, List.mem_singleton_self _⟩

/-- Each such body is stored somewhere. -/
theorem exists_stored_row {payload : DmPayload} (storable : Storable payload.body) (rxMs : UInt64) :
    ∃ P s draws envelopeId sender row,
      row ∈ (storeInbound P s draws envelopeId sender payload rxMs).db.inbox.rows ∧
        row ∉ s.db.inbox.rows := by
  have fresh : ∀ row, row ∉ blankStore.db.inbox.rows := fun _ => List.not_mem_nil
  suffices inserted : ∃ row, row ∈
      (storeInbound .unchecked blankStore blankDraws [1] [2] payload rxMs).db.inbox.rows from
    ⟨.unchecked, blankStore, blankDraws, [1], [2], _, inserted.choose_spec, fresh _⟩
  unfold storeInbound
  unfold Storable at storable
  split at storable
  · split
    · exact mem_blankStore _ _ _
    · exact mem_blankStore _ _ _
  · rw [if_pos storable]
    exact mem_blankStore _ _ _
  · exact storable.elim

/-- The row is kept or removed by the deadline that is stored. -/
theorem onTime_iff_stored (payload : DmPayload) (rxMs now : UInt64) :
    OnTime payload rxMs now ↔ (Storable payload.body →
      (0 < (storedDeadline payload rxMs).toNat ∧ (storedDeadline payload rxMs).toNat ≤ now.toNat ∧
          now.toNat < 2 ^ 63 ↔
        payload.ttlMs ≠ 0 ∧ rxMs.toNat + payload.ttlMs.toNat ≤ now.toNat)) := by
  constructor
  · intro onTime storable
    obtain ⟨P, s, draws, envelopeId, sender, row, listed, new⟩ := exists_stored_row storable rxMs
    have removed := onTime P s draws envelopeId sender row listed new _ row listed rfl rfl
    rwa [not_mem_pruneExpired_iff listed, expired_iff (info_of_storeInbound listed new).1] at removed
  · intro due P s draws envelopeId sender row listed new later row' listed' key info
    rw [not_mem_pruneExpired_iff listed', info, expired_iff (info_of_storeInbound listed new).1]
    exact due (storable_of_new listed new)

/-! ### Deadlines over the natural numbers -/

theorem text_deadline_iff {rxMs ttlMs now : UInt64} (lives : ttlMs ≠ 0) :
    ((0 < (rxMs + ttlMs).toNat ∧ (rxMs + ttlMs).toNat ≤ now.toNat ∧ now.toNat < 2 ^ 63) ↔
        rxMs.toNat + ttlMs.toNat ≤ now.toNat) ↔
      if rxMs.toNat + ttlMs.toNat < 2 ^ 63 then now.toNat < 2 ^ 63
      else
        now.toNat < rxMs.toNat + ttlMs.toNat ∧
          ¬(2 ^ 64 < rxMs.toNat + ttlMs.toNat ∧ rxMs.toNat + ttlMs.toNat ≤ 2 ^ 64 + now.toNat ∧
            now.toNat < 2 ^ 63) := by
  have small := rxMs.toNat_lt
  have small' := ttlMs.toNat_lt
  have bound := now.toNat_lt
  have positive : ttlMs.toNat ≠ 0 := fun zero => lives (UInt64.toNat_inj.mp zero)
  rw [UInt64.toNat_add]
  split <;> omega

/-- A message disappears when it should exactly when its deadline is one that the signed column can
hold and the clock one that it is compared with, or is neither reached nor wraps around to a positive
number that is; and an attachment only before its deadline. -/
theorem onTime_iff (payload : DmPayload) (rxMs now : UInt64) :
    OnTime payload rxMs now ↔ KeepsDeadline payload rxMs now := by
  rw [onTime_iff_stored]
  unfold KeepsDeadline storedDeadline Storable
  have never : ¬(0 < (0 : UInt64).toNat ∧ (0 : UInt64).toNat ≤ now.toNat ∧ now.toNat < 2 ^ 63) :=
    fun both => Nat.lt_irrefl 0 both.1
  by_cases forever : payload.ttlMs = 0
  · -- zero stands for never
    have stays : ¬(payload.ttlMs ≠ 0 ∧ rxMs.toNat + payload.ttlMs.toNat ≤ now.toNat) :=
      fun both => both.1 forever
    have zero : ¬payload.ttlMs > 0 := by
      rw [forever]
      decide
    refine iff_of_true (fun _ => iff_of_false ?_ stays) fun lives => absurd forever lives
    cases payload.body with
    | text text =>
      dsimp only
      rw [if_neg zero]
      exact never
    | _ => exact never
  · have lives : payload.ttlMs > 0 := UInt64.pos_iff_ne_zero.mpr forever
    rw [forall_prop_of_true forever, and_iff_right forever]
    cases payload.body with
    | text text =>
      dsimp only
      rw [if_pos lives, forall_prop_of_true trivial, text_deadline_iff forever]
    | attachment mime filename content =>
      dsimp only
      refine forall_congr' fun _ => ?_
      rw [iff_false_left never, Nat.not_le]
    | _ => exact iff_of_true False.elim trivial

/-- A lifetime that the sender means to be for ever. -/
def endless : DmPayload where
  body := .text (ascii "hi")
  sealedSenderPubkey := []
  sealedSenderSig := []
  ttlMs := 0xFFFFFFFFFFFFFFFF

/-- The message is removed as soon as there is a sweep. -/
theorem not_onTime : ¬∀ payload rxMs now, OnTime payload rxMs now := by
  intro all
  have due := (onTime_iff_stored endless 1000 1000).mp (all endless 1000 1000) trivial
  have lapsed := due.mp ⟨by decide, by decide, by decide⟩
  exact absurd lapsed.2 (by decide)

end FinBit.Desktop
