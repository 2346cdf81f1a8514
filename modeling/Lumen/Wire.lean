import Lumen.Lib.Wire
import Lumen.Proto

/-!
# Lumen.Wire

The protobuf encodings of the messages in `Lumen.Proto`, with the field
numbers of `lumen.proto` and `raft.proto`.
-/

namespace Lumen.Proto

open Lib Wire

/-- `bool` as a varint. -/
def boolNat (b : Bool) : Nat := if b then 1 else 0

def natBool (n : Nat) : Bool := n ≠ 0

@[simp] theorem natBool_boolNat (b : Bool) : natBool (boolNat b) = b := by
  cases b <;> rfl

/-- `int32` as a varint: sign-extended to 64 bits. -/
def int32Nat (n : Int32) : Nat := (n.toBitVec.signExtend 64).toNat

def natInt32 (n : Nat) : Int32 := ⟨⟨BitVec.ofNat 32 n⟩⟩

@[simp] theorem natInt32_int32Nat (n : Int32) : natInt32 (int32Nat n) = n := by
  have hbits : BitVec.ofNat 32 (n.toBitVec.signExtend 64).toNat = n.toBitVec := by
    rw [BitVec.ofNat_toNat]
    ext i hi
    simp only [BitVec.getElem_setWidth, BitVec.getLsbD_signExtend, hi, if_true,
      BitVec.getLsbD_eq_getElem, Bool.and_eq_right_iff_imp, decide_eq_true_iff]
    omega
  rw [natInt32, int32Nat, hbits]
  rfl

def fieldMsg : Msg Field where
  put f := blobField 1 (putString f.name) ++ natField 2 (int32Nat f.type) ++
    natField 3 (boolNat f.indexed) ++ natField 4 (boolNat f.fast)
  get fs := do
    let name ← getString (blob 1 fs)
    some ⟨name, natInt32 (nat 2 fs), natBool (nat 3 fs), natBool (nat 4 fs)⟩
  get_put f := by simp [nat, blob]

def mappingMsg : Msg Mapping where
  put m := blobsField 1 (m.fields.map fieldMsg.bytes)
  get fs := do
    let fields ← fieldMsg.readAll (blobs 1 fs)
    some ⟨fields⟩
  get_put m := by simp [blobs]

def indexDocumentMsg : Msg IndexDocument where
  put d := blobField 1 (putString d.collection) ++ blobField 2 (putString d.id) ++
    blobField 3 d.source
  get fs := do
    let collection ← getString (blob 1 fs)
    let id ← getString (blob 2 fs)
    some ⟨collection, id, blob 3 fs⟩
  get_put d := by simp [blob]

def deleteDocumentMsg : Msg DeleteDocument where
  put d := blobField 1 (putString d.collection) ++ blobField 2 (putString d.id)
  get fs := do
    let collection ← getString (blob 1 fs)
    let id ← getString (blob 2 fs)
    some ⟨collection, id⟩
  get_put d := by simp [blob]

def createCollectionMsg : Msg CreateCollection where
  put c := blobField 1 (putString c.collection) ++ optField 2 (c.mapping.map mappingMsg.bytes) ++
    blobField 3 (putString c.uuid)
  get fs := do
    let collection ← getString (blob 1 fs)
    let mapping ← mappingMsg.readOpt (blob? 2 fs)
    let uuid ← getString (blob 3 fs)
    some ⟨collection, uuid, mapping⟩
  get_put c := by simp [blob, blob?]

def dropCollectionMsg : Msg DropCollection where
  put d := blobField 1 (putString d.collection)
  get fs := do
    let collection ← getString (blob 1 fs)
    some ⟨collection⟩
  get_put d := by simp [blob]

/-- A command's `oneof`: at most one of four sub-messages. -/
def commandMsg : Msg Command where
  put c :=
    match c.op with
    | none => []
    | some (.indexDocument d) => optField 1 (some (indexDocumentMsg.bytes d))
    | some (.deleteDocument d) => optField 2 (some (deleteDocumentMsg.bytes d))
    | some (.createCollection d) => optField 3 (some (createCollectionMsg.bytes d))
    | some (.dropCollection d) => optField 4 (some (dropCollectionMsg.bytes d))
  get fs :=
    match blob? 1 fs, blob? 2 fs, blob? 3 fs, blob? 4 fs with
    | some b, _, _, _ => (indexDocumentMsg.read b).map fun d => ⟨some (.indexDocument d)⟩
    | none, some b, _, _ => (deleteDocumentMsg.read b).map fun d => ⟨some (.deleteDocument d)⟩
    | none, none, some b, _ => (createCollectionMsg.read b).map fun d => ⟨some (.createCollection d)⟩
    | none, none, none, some b => (dropCollectionMsg.read b).map fun d => ⟨some (.dropCollection d)⟩
    | none, none, none, none => some ⟨none⟩
  get_put c := by
    obtain ⟨op⟩ := c
    cases op with
    | none => rfl
    | some op => cases op <;> simp [blob?]

def walEntryMsg : Msg WalEntry where
  put e := natField 1 e.seq ++ optField 2 (e.command.map commandMsg.bytes)
  get fs := do
    let command ← commandMsg.readOpt (blob? 2 fs)
    some ⟨nat 1 fs, command⟩
  get_put e := by simp [nat, blob?]

def catalogEntryMsg : Msg CatalogEntry where
  put e := blobField 1 (putString e.name) ++ blobField 2 (putString e.uuid) ++
    optField 3 (e.mapping.map mappingMsg.bytes) ++ natField 4 e.createdSeq
  get fs := do
    let name ← getString (blob 1 fs)
    let uuid ← getString (blob 2 fs)
    let mapping ← mappingMsg.readOpt (blob? 3 fs)
    some ⟨name, uuid, mapping, nat 4 fs⟩
  get_put e := by simp [nat, blob, blob?]

def catalogSnapshotMsg : Msg CatalogSnapshot where
  put s := natField 1 s.appliedSeq ++ blobsField 2 (s.entries.map catalogEntryMsg.bytes)
  get fs := do
    let entries ← catalogEntryMsg.readAll (blobs 2 fs)
    some ⟨nat 1 fs, entries⟩
  get_put s := by simp [nat, blobs]

/-! ## raft -/

def leaderIdMsg : Msg LeaderId where
  put l := natField 1 l.term ++ natField 2 l.nodeId
  get fs := some ⟨nat 1 fs, nat 2 fs⟩
  get_put l := by simp [nat]

def voteMsg : Msg Vote where
  put v := optField 1 (v.leaderId.map leaderIdMsg.bytes) ++ natField 2 (boolNat v.committed)
  get fs := do
    let leaderId ← leaderIdMsg.readOpt (blob? 1 fs)
    some ⟨leaderId, natBool (nat 2 fs)⟩
  get_put v := by simp [nat, blob?]

def logIdMsg : Msg LogId where
  put l := optField 1 (l.leaderId.map leaderIdMsg.bytes) ++ natField 2 l.index
  get fs := do
    let leaderId ← leaderIdMsg.readOpt (blob? 1 fs)
    some ⟨leaderId, nat 2 fs⟩
  get_put l := by simp [nat, blob?]

def nodeMsg : Msg Node where
  put n := natField 1 n.nodeId ++ blobField 2 (putString n.rpcAddr)
  get fs := do
    let rpcAddr ← getString (blob 2 fs)
    some ⟨nat 1 fs, rpcAddr⟩
  get_put n := by simp [nat, blob]

/-- `repeated uint64`, packed. -/
def nodeIdSetMsg : Msg NodeIdSet where
  put s := blobField 1 (putNats s.nodeIds)
  get fs := do
    let ids ← getNats (blob 1 fs).length (blob 1 fs)
    some ⟨ids⟩
  get_put s := by simp [blob]

/-- An entry of a map field. -/
def nodeEntryMsg : Msg (Nat × Node) where
  put p := natField 1 p.1 ++ optField 2 (some (nodeMsg.bytes p.2))
  get fs := do
    let node ← nodeMsg.read ((blob? 2 fs).getD [])
    some (nat 1 fs, node)
  get_put p := by simp [nat, blob?]

def membershipMsg : Msg Membership where
  put m := blobsField 1 (m.configs.map nodeIdSetMsg.bytes) ++
    blobsField 2 (m.nodes.toList.map nodeEntryMsg.bytes)
  get fs := do
    let configs ← nodeIdSetMsg.readAll (blobs 1 fs)
    let nodes ← nodeEntryMsg.readAll (blobs 2 fs)
    some ⟨configs, OrdMap.ofList nodes⟩
  get_put m := by simp [blobs]

def storedMembershipMsg : Msg StoredMembership where
  put s := optField 1 (s.logId.map logIdMsg.bytes) ++
    optField 2 (s.membership.map membershipMsg.bytes)
  get fs := do
    let logId ← logIdMsg.readOpt (blob? 1 fs)
    let membership ← membershipMsg.readOpt (blob? 2 fs)
    some ⟨logId, membership⟩
  get_put s := by simp [blob?]

def entryMsg : Msg Entry where
  put e := optField 1 (e.logId.map logIdMsg.bytes) ++
    match e.payload with
    | none => []
    | some .blank => optField 2 (some [])
    | some (.normal c) => optField 3 (some (commandMsg.bytes c))
    | some (.membership m) => optField 4 (some (membershipMsg.bytes m))
  get fs := do
    let logId ← logIdMsg.readOpt (blob? 1 fs)
    match blob? 2 fs, blob? 3 fs, blob? 4 fs with
    | some _, _, _ => some ⟨logId, some .blank⟩
    | none, some b, _ => (commandMsg.read b).map fun c => ⟨logId, some (.normal c)⟩
    | none, none, some b => (membershipMsg.read b).map fun m => ⟨logId, some (.membership m)⟩
    | none, none, none => some ⟨logId, none⟩
  get_put e := by
    obtain ⟨logId, payload⟩ := e
    cases payload with
    | none => simp [blob?]
    | some p => cases p <;> simp [blob?]

def raftMetaMsg : Msg RaftMeta where
  put m := optField 1 (m.vote.map voteMsg.bytes) ++ optField 2 (m.committed.map logIdMsg.bytes) ++
    optField 3 (m.lastPurged.map logIdMsg.bytes)
  get fs := do
    let vote ← voteMsg.readOpt (blob? 1 fs)
    let committed ← logIdMsg.readOpt (blob? 2 fs)
    let lastPurged ← logIdMsg.readOpt (blob? 3 fs)
    some ⟨vote, committed, lastPurged⟩
  get_put m := by simp [blob?]

end Lumen.Proto
