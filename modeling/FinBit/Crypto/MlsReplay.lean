import FinBit.Crypto.MlsFacade
import FinBit.Lib.Guards
import FinBit.Lib.Runs

/-! # Replaying a group

A group is restored by decoding its seed and running its log. Every record decodes to
the call that wrote it and every seed to the inputs it was made from, as long as each
length fits the prefix it is cast to; then the restored group is the live one.

One prefix is too narrow for what it carries: the group id of a joiner comes from the
Welcome, so from whoever sent it, and its length is cast to 16 bits.
-/

namespace FinBit.Crypto

open FinBit.Lib

variable {P : Mlspp}

/-- What the wrapper relies on: keys parse back from their data, and what is marshalled
is not empty. -/
structure Mlspp.RoundTrips (P : Mlspp) : Prop where
  parseSig_data : ∀ k, P.parseSig (P.sigData k) = .ok k
  parseHpke_data : ∀ k, P.parseHpke (P.hpkeData k) = .ok k
  hpkeData_ne : ∀ k, P.hpkeData k ≠ []
  keyPackage_ne : ∀ kp, P.keyPackage.encode kp ≠ []
  leafNode_ne : ∀ node, P.leafNode.encode node ≠ []
  welcome_nil : P.welcome.decode [] = none

@[simp] theorem tlsGet_encode {α : Type} (codec : Codec α) (a : α) :
    tlsGet codec (codec.encode a) = .ok a := by
  simp [tlsGet, codec.decode_encode]

/-! ### Records -/

theorem decodeOp_encodeOp {kind : UInt8} {payload rest : Bytes} {op : MlsOp}
    (fits : payload.length < 256 ^ 4)
    (decoded : (decodePayload kind.toNat).run payload = .ok (op, rest)) :
    decodeOp (encodeOp kind payload) = .ok op := by
  have record : readRecord.run (encodeOp kind payload) = .ok ((kind.toNat, payload), []) := by
    rw [readRecord, encodeOp, Reader.run_bind_ok (Reader.run_uint_one _ _),
      Reader.run_bind_ok (Reader.run_field_last fits)]
    rfl
  rw [decodeOp, record]
  simp only [bind, Except.bind, decoded]
  rfl

/-- A record that fits its length decodes to the call that wrote it. -/
theorem MlsOp.decodeOp_encode (op : MlsOp) (fits : op.encode.length < 2 ^ 32) :
    decodeOp op.encode = .ok op := by
  cases op with
  | addMember kp leafSecret =>
    simp only [MlsOp.encode, encodeOpAddmember, encodeOp, List.length_cons, length_framed,
      List.length_append] at fits
    apply decodeOp_encodeOp (by simp; omega)
    change (decodePayload 1).run _ = _
    rw [decodePayload, Reader.run_bind_ok (Reader.run_field (by omega) _),
      Reader.run_bind_ok (Reader.run_field_last (by omega))]
    rfl
  | removeMember leafIdx leafSecret =>
    simp only [MlsOp.encode, encodeOpRemovemember, encodeOp, List.length_cons, length_framed,
      List.length_append, length_leBytes] at fits
    apply decodeOp_encodeOp (by simp; omega)
    change (decodePayload 2).run _ = _
    have idx : UInt32.ofNat (leafIdx.toNat % 256 ^ 4) = leafIdx := by
      have size : leafIdx.toNat < 256 ^ 4 := by
        have := leafIdx.toNat_lt
        omega
      rw [Nat.mod_eq_of_lt size]
      exact UInt32.ofNat_toNat
    rw [decodePayload, Reader.run_bind_ok (Reader.run_uint _ _ _), idx,
      Reader.run_bind_ok (Reader.run_field_last (by omega))]
    rfl
  | proposeAdd b | handleProposal b | commitPending b | applyCommit b =>
    -- one field in each of them
    simp only [MlsOp.encode, encodeOpProposeadd, encodeOpWire, encodeOpCommitpending, encodeOp,
      List.length_cons, length_framed] at fits
    apply decodeOp_encodeOp (by simp; omega)
    simp only [UInt8.reduceToNat]
    rw [decodePayload, Reader.run_bind_ok (Reader.run_field_last (by omega))]
    rfl

/-! ### Seeds -/

/-- The field is read as the value, whatever follows it. -/
def ReadAs {α : Type} (parse : Bytes → Except String α) (b : Bytes) (a : Option α) : Prop :=
  ∀ rest, (optionalField parse).run (framed 4 b ++ rest) = .ok (a, rest)

theorem ReadAs.absent {α : Type} (parse : Bytes → Except String α) : ReadAs parse [] none := by
  intro rest
  have empty : ([] : Bytes).length < 256 ^ 4 := by decide
  rw [optionalField, Reader.run_bind_ok (Reader.run_field empty rest)]
  rfl

theorem ReadAs.present {α : Type} {parse : Bytes → Except String α} {b : Bytes} {a : α}
    (parsed : parse b = .ok a) (filled : b ≠ []) (fits : b.length < 256 ^ 4) :
    ReadAs parse b (some a) := by
  intro rest
  rw [optionalField, Reader.run_bind_ok (Reader.run_field fits rest), if_neg filled, parsed]
  rfl

theorem run_decodeSeedHeader {role : Nat} (known : role = kRoleCreator ∨ role = kRoleJoiner)
    (rest : Bytes) : decodeSeedHeader.run (seedHeader role ++ rest) = .ok (role, rest) := by
  have octet : (UInt8.ofNat role).toNat = role := by
    rcases known with rfl | rfl <;> rfl
  have version : (UInt8.ofNat kSeedVersion).toNat = kSeedVersion := rfl
  have suite : (UInt8.ofNat kSuiteId).toNat = kSuiteId := rfl
  have unknown : ¬(role ≠ kRoleCreator ∧ role ≠ kRoleJoiner) := by tauto
  simp only [seedHeader, List.cons_append, List.nil_append]
  rw [decodeSeedHeader, Reader.run_bind_ok (Reader.run_uint_one _ _), version, if_neg (by simp),
    Reader.run_bind_ok (Reader.run_uint_one _ _), octet, if_neg unknown,
    Reader.run_bind_ok (Reader.run_uint_one _ _), suite, if_neg (by simp),
    Reader.run_bind_ok (Reader.run_uint_one _ _)]
  rfl

section Seeds

variable {role : Nat} {groupId identity sigPriv leafPriv initPriv keyPackage welcome initSecret
  leafNode : Bytes} {sig : P.SignaturePrivateKey} {leaf : P.HPKEPrivateKey}
  {init : Option P.HPKEPrivateKey} {kp : Option P.KeyPackage} {wel : Option P.Welcome}
  {node : Option P.LeafNode}

/-- A seed decodes to what it was made from if the group id fits 16 bits and the whole
fits 32. -/
theorem decodeSeed_encodeSeed (known : role = kRoleCreator ∨ role = kRoleJoiner)
    (narrow : groupId.length < 2 ^ 16) (length_identity : identity.length = 32)
    (fits : (encodeSeed role groupId identity sigPriv leafPriv initPriv keyPackage welcome
      initSecret leafNode).length < 2 ^ 32)
    (sigParsed : P.parseSig sigPriv = .ok sig) (leafParsed : P.parseHpke leafPriv = .ok leaf)
    (initRead : ReadAs P.parseHpke initPriv init)
    (kpRead : ReadAs (tlsGet P.keyPackage) keyPackage kp)
    (welRead : ReadAs (tlsGet P.welcome) welcome wel)
    (nodeRead : ReadAs (tlsGet P.leafNode) leafNode node) :
    decodeSeed P (encodeSeed role groupId identity sigPriv leafPriv initPriv keyPackage welcome
      initSecret leafNode) =
      .ok ⟨role, groupId, identity, sig, leaf, init, kp, wel, initSecret, node⟩ := by
  simp only [encodeSeed, List.length_append, length_framed] at fits
  have last := nodeRead []
  rw [List.append_nil] at last
  have fields : (decodeSeedHeader >>= decodeSeedFields P).run (encodeSeed role groupId identity
      sigPriv leafPriv initPriv keyPackage welcome initSecret leafNode) =
      .ok (⟨role, groupId, identity, sig, leaf, init, kp, wel, initSecret, node⟩, []) := by
    rw [encodeSeed, Reader.run_bind_ok (run_decodeSeedHeader known _), decodeSeedFields,
      Reader.run_bind_ok (Reader.run_field (by omega) _),
      Reader.run_bind_ok (Reader.run_field (by omega) _),
      Reader.run_bind_ok (Reader.run_field (by omega) _),
      Reader.run_bind_ok (Reader.run_liftM sigParsed _),
      Reader.run_bind_ok (Reader.run_field (by omega) _),
      Reader.run_bind_ok (Reader.run_liftM leafParsed _), Reader.run_bind_ok (initRead _),
      Reader.run_bind_ok (kpRead _), Reader.run_bind_ok (welRead _),
      Reader.run_bind_ok (Reader.run_field (by omega) _), Reader.run_bind_ok last]
    rfl
  rw [decodeSeed, fields]
  rfl

end Seeds

/-! ### Where a group comes from -/

/-- A group is created, or joined with a Welcome. -/
inductive MlsStart (P : Mlspp) where
  | create (creatorIdentity groupId : Bytes32) (draws : CreateDraws P)
  | join (pending : PendingMlsJoin P) (welcomeBytes : Bytes)

namespace MlsStart

def begin : MlsStart P → Except String (MlsGroup P)
  | .create creatorIdentity groupId draws => MlsGroup.create creatorIdentity groupId draws
  | .join pending welcomeBytes => MlsGroup.complete pending welcomeBytes

/-- The lengths in the seed fit: the group id of a Welcome 16 bits, the seed 32. -/
def Fits (start : MlsStart P) (g : MlsGroup P) : Prop :=
  g.seedBlob.length < 2 ^ 32 ∧
    match start with
    | .create _ _ _ => True
    | .join _ _ => (P.groupId g.state).length < 2 ^ 16

end MlsStart

/-- The group is what its seed and log give. -/
def MlsGroup.Replays (g : MlsGroup P) : Prop :=
  MlsGroup.fromSeedAndLog P g.seedBlob g.opLog = .ok g

theorem MlsGroup.create_eq_ok {identity groupId : Bytes32} {draws : CreateDraws P} {g : MlsGroup P} :
    MlsGroup.create identity groupId draws = .ok g ↔ ∃ state,
      P.newGroup groupId.1 draws.leafPriv draws.sigPriv draws.leafNode draws.initSecret.1 =
        .ok state ∧
      ⟨state, draws.sigPriv, draws.leafPriv, encodeCreatorSeed groupId.1 identity.1
        (P.sigData draws.sigPriv) (P.hpkeData draws.leafPriv) draws.initSecret.1
        (P.leafNode.encode draws.leafNode), []⟩ = g := by
  simp only [MlsGroup.create, bind_eq_ok, pure, Except.pure, Except.ok.injEq]

theorem MlsGroup.complete_eq_ok {pending : PendingMlsJoin P} {welcomeBytes : Bytes}
    {g : MlsGroup P} :
    MlsGroup.complete pending welcomeBytes = .ok g ↔ ∃ welcome,
      tlsGet P.welcome welcomeBytes = .ok welcome ∧ ∃ state,
      P.joinGroup pending.keys.initPriv pending.keys.leafPriv pending.keys.sigPriv
        pending.keys.keyPackage welcome = .ok state ∧
      ⟨state, pending.keys.sigPriv, pending.keys.leafPriv, encodeJoinerSeed (P.groupId state)
        pending.identity.1 (P.sigData pending.keys.sigPriv) (P.hpkeData pending.keys.leafPriv)
        (P.hpkeData pending.keys.initPriv) (P.keyPackage.encode pending.keys.keyPackage)
        welcomeBytes, []⟩ = g := by
  simp only [MlsGroup.complete, bind_eq_ok, pure, Except.pure, Except.ok.injEq]

theorem MlsStart.fresh {start : MlsStart P} {g : MlsGroup P} (begun : start.begin = .ok g) :
    g.opLog = [] := by
  cases start with
  | create identity groupId draws =>
    obtain ⟨state, -, rfl⟩ := MlsGroup.create_eq_ok.mp begun
    rfl
  | join pending welcomeBytes =>
    obtain ⟨welcome, -, state, -, rfl⟩ := MlsGroup.complete_eq_ok.mp begun
    rfl

/-- A new group is what its seed gives. -/
theorem MlsStart.replays (laws : P.RoundTrips) {start : MlsStart P} {g : MlsGroup P}
    (begun : start.begin = .ok g) (fits : start.Fits g) : g.Replays := by
  cases start with
  | create identity groupId draws =>
    obtain ⟨state, made, rfl⟩ := MlsGroup.create_eq_ok.mp begun
    have small := fits.1
    simp only [encodeCreatorSeed, encodeSeed, List.length_append, length_framed] at small
    have node : ReadAs (tlsGet P.leafNode) (P.leafNode.encode draws.leafNode)
        (some draws.leafNode) :=
      .present (tlsGet_encode _ _) (laws.leafNode_ne _) (by omega)
    have decoded := decodeSeed_encodeSeed (.inl rfl) (by have := groupId.2; omega) identity.2
      fits.1 (laws.parseSig_data _) (laws.parseHpke_data _) (.absent _) (.absent _) (.absent _) node
    have initial : (⟨kRoleCreator, groupId.1, identity.1, draws.sigPriv, draws.leafPriv, none, none,
        none, draws.initSecret.1, some draws.leafNode⟩ : DecodedSeed P).initial = .ok state := by
      have sized := draws.initSecret.2
      generalize draws.initSecret.1 = secret at made sized
      cases secret with
      | nil => cases sized
      | cons b bs => exact made
    rw [MlsGroup.Replays, MlsGroup.fromSeedAndLog, encodeCreatorSeed, decoded]
    simp only [bind, Except.bind, initial]
    rfl
  | join pending welcomeBytes =>
    obtain ⟨welcome, parsed, state, made, rfl⟩ := MlsGroup.complete_eq_ok.mp begun
    have small := fits.1
    simp only [encodeJoinerSeed, encodeSeed, List.length_append, length_framed] at small
    have filled : welcomeBytes ≠ [] := by
      rintro rfl
      simp [tlsGet, laws.welcome_nil] at parsed
    have init : ReadAs P.parseHpke (P.hpkeData pending.keys.initPriv) (some pending.keys.initPriv) :=
      .present (laws.parseHpke_data _) (laws.hpkeData_ne _) (by omega)
    have kp : ReadAs (tlsGet P.keyPackage) (P.keyPackage.encode pending.keys.keyPackage)
        (some pending.keys.keyPackage) :=
      .present (tlsGet_encode _ _) (laws.keyPackage_ne _) (by omega)
    have wel : ReadAs (tlsGet P.welcome) welcomeBytes (some welcome) :=
      .present parsed filled (by omega)
    have decoded := decodeSeed_encodeSeed (.inr rfl) fits.2 pending.identity.2
      fits.1 (laws.parseSig_data _) (laws.parseHpke_data _) init kp wel (.absent _)
    rw [MlsGroup.Replays, MlsGroup.fromSeedAndLog, encodeJoinerSeed, decoded]
    simp only [bind, Except.bind, DecodedSeed.initial, made]
    rfl

/-! ### Mutators -/

/-- A mutator that returns. -/
def MlsGroup.Returns (g : MlsGroup P) (op : MlsOp) (g' : MlsGroup P) : Prop :=
  ∃ reply, g.mutate op = (g', .ok reply)

/-- The lengths in the record of a call fit 32 bits. -/
def MlsOp.Fits (op : MlsOp) : Prop := op.encode.length < 2 ^ 32

theorem MlsGroup.returns_iff {g g' : MlsGroup P} {op : MlsOp} :
    g.Returns op g' ↔ ∃ s reply, op.effect g.state = (s, .ok reply) ∧
      g' = { g with state := s, opLog := g.opLog ++ [op.encode] } := by
  unfold MlsGroup.Returns MlsGroup.mutate
  constructor
  · rintro ⟨reply, done⟩
    split at done
    · cases done
    next s r effect =>
      cases done
      exact ⟨s, reply, effect, rfl⟩
  · rintro ⟨s, reply, effect, rfl⟩
    refine ⟨reply, ?_⟩
    rw [effect]

/-- The record of a call that has returned has the same effect again. -/
theorem MlsGroup.Returns.replayOp {g g' : MlsGroup P} {op : MlsOp} (returns : g.Returns op g')
    (fits : op.Fits) : g.replayOp op.encode = (g', .ok ()) := by
  obtain ⟨s, reply, effect, rfl⟩ := MlsGroup.returns_iff.mp returns
  simp only [MlsGroup.replayOp, op.decodeOp_encode fits, effect]

theorem MlsGroup.replayFrom_concat {g g' g'' : MlsGroup P} {i : Nat} {ops : List Bytes} {op : Bytes}
    (done : g.replayFrom i ops = .ok g') (last : g'.replayOp op = (g'', .ok ())) :
    g.replayFrom i (ops ++ [op]) = .ok g'' := by
  induction ops generalizing g i with
  | nil =>
    cases done
    simp [replayFrom, last]
  | cons first rest ih =>
    rw [List.cons_append, replayFrom]
    rw [replayFrom] at done
    split at done
    · cases done
    · exact ih done

/-- A mutator that returns keeps the group what its seed and log give. -/
theorem MlsGroup.Replays.step {g g' : MlsGroup P} {op : MlsOp} (replays : g.Replays)
    (returns : g.Returns op g') (fits : op.Fits) : g'.Replays := by
  have again := returns.replayOp fits
  obtain ⟨s, reply, effect, rfl⟩ := MlsGroup.returns_iff.mp returns
  simp only [MlsGroup.Replays, MlsGroup.fromSeedAndLog, bind_eq_ok] at replays ⊢
  obtain ⟨decoded, read, state, initial, replayed⟩ := replays
  exact ⟨decoded, read, state, initial, MlsGroup.replayFrom_concat replayed again⟩

/-- What a run of mutators writes. -/
theorem MlsGroup.log_of_run {g g' : MlsGroup P} {ops : List MlsOp}
    (run : Run MlsGroup.Returns g ops g') :
    g'.opLog = g.opLog ++ ops.map MlsOp.encode ∧ g'.seedBlob = g.seedBlob := by
  induction run with
  | nil g => simp
  | cons taken _ ih =>
    obtain ⟨s, reply, -, rfl⟩ := MlsGroup.returns_iff.mp taken
    obtain ⟨log, seed⟩ := ih
    refine ⟨?_, seed⟩
    rw [log, List.map_cons, List.append_assoc]
    rfl

/-! ### The bundle -/

theorem MlsGroup.fromBlob_serialize {g : MlsGroup P} (seed : g.seedBlob.length < 2 ^ 32)
    (few : g.opLog.length < 2 ^ 32) (fit : ∀ op ∈ g.opLog, op.length < 2 ^ 32) :
    MlsGroup.fromBlob P g.serialize = MlsGroup.fromSeedAndLog P g.seedBlob g.opLog := by
  have bundle : readBundle.run (framed 4 g.seedBlob ++
      (leBytes 4 g.opLog.length ++ g.opLog.flatMap (framed 4))) =
      .ok ((g.seedBlob, g.opLog), []) := by
    have ops : (Reader.fields truncatedBlob 4 g.opLog.length).run (g.opLog.flatMap (framed 4)) =
        .ok (g.opLog, []) := by
      rw [← List.append_nil (g.opLog.flatMap (framed 4))]
      exact Reader.run_fields fit []
    have count : g.opLog.length < 256 ^ 4 := by omega
    rw [readBundle, Reader.run_bind_ok (Reader.run_field seed _),
      Reader.run_bind_ok (Reader.run_uint _ _ _), Nat.mod_eq_of_lt count, Reader.run_bind_ok ops]
    rfl
  have magic : g.serialize.take 4 = ascii "MGB1" := rfl
  have rest : g.serialize.drop 4 = framed 4 g.seedBlob ++
      (leBytes 4 g.opLog.length ++ g.opLog.flatMap (framed 4)) := rfl
  have long : ¬g.serialize.length < 8 := by
    simp [MlsGroup.serialize, ascii]
    omega
  rw [MlsGroup.fromBlob, if_neg (by simp [long, magic]), rest, bundle]
  rfl

/-! ### Runs -/

/-- After every run of mutators from a new group, in which all lengths fit, the seed and
the log give the live group again, and so does the bundle. -/
theorem replay_reproduces (laws : P.RoundTrips) {start : MlsStart P} {g₀ g : MlsGroup P}
    {ops : List MlsOp} (begun : start.begin = .ok g₀) (narrow : start.Fits g₀)
    (run : Run (Guarded MlsGroup.Returns fun _ op => op.Fits) g₀ ops g)
    (few : ops.length < 2 ^ 32) :
    MlsGroup.fromSeedAndLog P g.serializeSeed g.operationLog = .ok g ∧
      MlsGroup.fromBlob P g.serialize = .ok g := by
  have replays : g.Replays := by
    apply run.invariant MlsGroup.Replays _ (start.replays laws begun narrow)
    rintro g op g' replays ⟨fits, returns⟩
    exact replays.step returns fits
  obtain ⟨log, seed⟩ := MlsGroup.log_of_run run.unguarded
  rw [MlsStart.fresh begun, List.nil_append] at log
  have fit : ∀ op ∈ g.opLog, op.length < 2 ^ 32 := by
    rw [log]
    intro record member
    obtain ⟨op, called, rfl⟩ := List.mem_map.mp member
    exact run.forall_label (fun _ => True) (fun _ _ _ _ _ => trivial)
      (fun _ _ _ _ taken => taken.1) trivial op called
  refine ⟨replays, ?_⟩
  rw [MlsGroup.fromBlob_serialize (seed ▸ narrow.1) (by rw [log, List.length_map]; exact few) fit]
  exact replays

/-! ### A library that counts

Its state knows the group id, the epoch, the proposals that wait for a commit, and how
many messages it has protected in this epoch. -/

structure TallyState where
  groupId : Bytes
  epoch : Nat
  pending : List Bytes
  generation : Nat
  deriving DecidableEq

inductive TallyMessage where
  | proposal (content : Bytes)
  | commit (content : Bytes)
  | application (generation : Nat) (content : Bytes)

/-- A tag in front. -/
def taggedCodec : Codec Bytes where
  encode b := 1 :: b
  decode
    | 1 :: b => some b
    | _ => none
  decode_encode _ := rfl

def TallyMessage.encode : TallyMessage → Bytes
  | .proposal content => 1 :: content
  | .commit content => 2 :: content
  | .application generation content => 3 :: (List.replicate generation 1 ++ 0 :: content)

def TallyMessage.decode : Bytes → Option TallyMessage
  | 1 :: content => some (.proposal content)
  | 2 :: content => some (.commit content)
  | 3 :: rest => some (.application (rest.takeWhile (· = 1)).length
      ((rest.dropWhile (· = 1)).drop 1))
  | _ => none

def TallyMessage.codec : Codec TallyMessage where
  encode := encode
  decode := decode
  decode_encode
    | .proposal _ => rfl
    | .commit _ => rfl
    | .application generation content => by
      have ones : ∀ x ∈ List.replicate generation (1 : UInt8), decide (x = 1) = true := by simp
      simp [encode, decode, List.takeWhile_append_of_pos ones, List.dropWhile_append_of_pos ones]

/-- The epoch after a commit. -/
def TallyState.next (s : TallyState) : TallyState := ⟨s.groupId, s.epoch + 1, [], 0⟩

/-- Parse what is tagged. -/
private def parseTagged (b : Bytes) : Except String Bytes :=
  match taggedCodec.decode b with
  | none => .error "openssl"
  | some k => .ok k

def Mlspp.tally : Mlspp where
  State := TallyState
  KeyPackage := Bytes
  Welcome := Bytes
  MLSMessage := TallyMessage
  LeafNode := Bytes
  Proposal := Bytes
  SignaturePrivateKey := Bytes
  HPKEPrivateKey := Bytes
  keyPackage := taggedCodec
  welcome := taggedCodec
  mlsMessage := TallyMessage.codec
  leafNode := taggedCodec
  sigData := taggedCodec.encode
  parseSig := parseTagged
  hpkeData := taggedCodec.encode
  parseHpke := parseTagged
  newGroup groupId _ _ _ _ := .ok ⟨groupId, 0, [], 0⟩
  joinGroup _ _ _ _ welcome := .ok ⟨welcome, 1, [], 0⟩
  groupId := TallyState.groupId
  addProposal _ kp := .ok kp
  removeProposal _ leafIndex := .ok (leBytes 4 leafIndex.toNat)
  commit s leafSecret _ := .ok (.commit leafSecret, s.groupId, s.next)
  add _ kp := .ok (.proposal kp)
  handle s
    | .proposal content => ({ s with pending := s.pending ++ [content] }, .ok none)
    | .commit _ => (s, .ok (some s.next))
    | .application _ _ => (s, .error "Invalid content type")
  protect s plaintext :=
    .ok ({ s with generation := s.generation + 1 }, .application s.generation plaintext)

theorem Mlspp.tally_roundTrips : Mlspp.tally.RoundTrips where
  parseSig_data _ := rfl
  parseHpke_data _ := rfl
  hpkeData_ne _ := List.cons_ne_nil _ _
  keyPackage_ne _ := List.cons_ne_nil _ _
  leafNode_ne _ := List.cons_ne_nil _ _
  welcome_nil := rfl

def zeros : Bytes32 := .filled 0

def tallyDraws : CreateDraws Mlspp.tally := ⟨[4], [5], [6], zeros⟩

/-- The group that is created from them. -/
def tallyGroup : MlsGroup Mlspp.tally :=
  ⟨⟨zeros.1, 0, [], 0⟩, [4], [5], encodeCreatorSeed zeros.1 zeros.1 [1, 4] [1, 5] zeros.1 [1, 6], []⟩

theorem tallyGroup_fits : (MlsStart.create zeros zeros tallyDraws).Fits tallyGroup := by
  refine ⟨?_, trivial⟩
  simp [tallyGroup, encodeCreatorSeed, encodeSeed, seedHeader, zeros]

/-- A group that adds a member and is restored. -/
theorem replay_reproduces_added : ∃ g : MlsGroup Mlspp.tally,
    MlsGroup.create zeros zeros tallyDraws = .ok tallyGroup ∧
    tallyGroup.Returns (.addMember [1, 7] [9]) g ∧
    MlsGroup.fromSeedAndLog Mlspp.tally g.serializeSeed g.operationLog = .ok g ∧
    MlsGroup.fromBlob Mlspp.tally g.serialize = .ok g := by
  have begun : (MlsStart.create zeros zeros tallyDraws).begin = .ok tallyGroup := rfl
  obtain ⟨g, added⟩ : ∃ g, tallyGroup.Returns (.addMember [1, 7] [9]) g := ⟨_, _, rfl⟩
  have small : (MlsOp.addMember [1, 7] [9]).Fits := by
    rw [MlsOp.Fits]
    decide
  exact ⟨g, begun, added, replay_reproduces Mlspp.tally_roundTrips begun tallyGroup_fits
    (.cons ⟨small, added⟩ (.nil _)) (by decide)⟩

private def waiting : PendingMlsJoin Mlspp.tally := ⟨⟨[3], [5], [4], [6]⟩, zeros⟩

/-- Eight zeros are the lengths of three empty fields. -/
private theorem empty_fields (rest : Bytes) : [0, 0] ++ (List.replicate 6 0 ++ rest) =
    framed 2 [] ++ (framed 2 [] ++ (framed 4 [] ++ rest)) := rfl

/-- A Welcome to a group whose id has 65536 octets, all zero: the seed says that the id
is empty, and the key that is read next is empty, too. -/
theorem long_group_id_lost : ∃ g : MlsGroup Mlspp.tally,
    MlsGroup.complete waiting (1 :: List.replicate 65536 0) = .ok g ∧
    ∀ g', MlsGroup.fromSeedAndLog Mlspp.tally g.serializeSeed g.operationLog ≠ .ok g' := by
  -- what the length says is empty is read as three empty fields
  have cut (rest : Bytes) : framed 2 (List.replicate 65536 0) ++ rest =
      framed 2 [] ++ (framed 2 [] ++ (framed 4 [] ++ (List.replicate 65530 0 ++ rest))) := by
    have split : List.replicate 65536 (0 : UInt8) =
        List.replicate 6 0 ++ List.replicate 65530 0 := List.replicate_add 6 65530 0
    have length : leBytes 2 65536 = [0, 0] := by decide
    rw [framed, List.length_replicate, length, split]
    simp only [List.append_assoc]
    exact empty_fields _
  generalize List.replicate 65536 (0 : UInt8) = groupId at cut ⊢
  have joined : MlsGroup.complete waiting (1 :: groupId) = .ok ⟨⟨groupId, 1, [], 0⟩, [4], [5],
    encodeJoinerSeed groupId zeros.1 [1, 4] [1, 5] [1, 3] [1, 6] (1 :: groupId), []⟩ := rfl
  refine ⟨_, joined, ?_⟩
  intro g' restored
  obtain ⟨decoded, read, -⟩ := bind_eq_ok.mp restored
  have thrown : (decodeSeedHeader >>= decodeSeedFields Mlspp.tally).run (encodeJoinerSeed groupId
      zeros.1 [1, 4] [1, 5] [1, 3] [1, 6] (1 :: groupId)) = .error "openssl" := by
    rw [encodeJoinerSeed, encodeSeed, Reader.run_bind_ok (run_decodeSeedHeader (.inr rfl) _),
      decodeSeedFields, cut, Reader.run_bind_ok (Reader.run_field (by decide) _),
      Reader.run_bind_ok (Reader.run_field (by decide) _),
      Reader.run_bind_ok (Reader.run_field (by decide) _)]
    exact Reader.run_bind_error rfl
  obtain ⟨_, ran, -⟩ := bind_eq_ok.mp read
  cases thrown.symm.trans ran

end FinBit.Crypto
