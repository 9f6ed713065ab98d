import Sidechain.Miner.WTJoin
import Sidechain.Primitives.Text

/-! The reply of the mainchain to a request for deposits, read entry by entry and field by field, and
when what is read from it are deposits to this sidechain. -/
namespace Sidechain
open Codec

/-- `skip 0x`. -/
def skip0x : Bytes → Bytes
  | 0x30 :: c :: rest => if c = 0x78 ∨ c = 0x58 then rest else 0x30 :: c :: rest
  | psz => psz

/-- The digits up to the first character that is none. -/
def hexDigits : Bytes → List UInt8
  | [] => []
  | c :: psz =>
    match hexDigit c with
    | some d => d :: hexDigits psz
    | none => []

/-- Fill the bytes of a blob from the last digit on; the rest stays zero. -/
def fillBlob : ℕ → List UInt8 → Bytes
  | 0, _ => []
  | width + 1, [] => 0 :: fillBlob width []
  | width + 1, [d] => d :: fillBlob width []
  | width + 1, d :: d' :: rest => (d ||| d' <<< 4) :: fillBlob width rest

/-- `base_blob::SetHex`, for a blob of `width` bytes. -/
def setHex (width : ℕ) (str : Bytes) : BitVec (8 * width) :=
  BitVec.ofNat _ (ofLeBytes (fillBlob width (hexDigits (skip0x (str.dropWhile isspace))).reverse))

def uint256S (str : Bytes) : Uint256 := setHex 32 str

example : uint256S (ascii "0xca85db47c45dfccfa9f5562f7383c7b3fe1746017327371771ed3f70345b72d4") =
    SIDECHAIN_ID := by decide +kernel

/-- What follows the transaction in the data is ignored. -/
def decodeHexTx (strHexTx : Bytes) : Option CTransaction :=
  if !isHex strHexTx then none
  else
    match CTransaction.unserialize.run (parseHex strHexTx) with
    | .ok (tx,_) => some tx
    | .error _ => none

/-- A `boost::property_tree::ptree`: the data of a node and its children in order, under their keys. -/
inductive PTree where
  | node (data : Bytes) (children : List (Bytes × PTree))

namespace PTree

def data : PTree → Bytes
  | node data _ => data

def children : PTree → List (Bytes × PTree)
  | node _ children => children

/-- `get_child` of a path with one key: the first child with that key. -/
def getChild (ptree : PTree) (key : String) : Outcome PTree :=
  match ptree.children.find? fun v => v.1 == ascii key with
  | some v => .ok v.2
  | none => .error (.exception ("No such node (" ++ key ++ ")"))

/-- One of the entry's `sidechainid` fields is this sidechain's id. -/
def Names (entry : PTree) : Prop :=
  ∃ v ∈ entry.children, v.1 = ascii "sidechainid" ∧ uint256S v.2.data = SIDECHAIN_ID

/-- One of the entry's `dt` fields is the transaction. -/
def Embeds (entry : PTree) (tx : CTransaction) : Prop :=
  ∃ v ∈ entry.children, v.1 = ascii "dt" ∧ decodeHexTx v.2.data = some tx

end PTree

/-- One of the members of a deposit. -/
def readMember (deposit : DrivechainDeposit) (v : Bytes × PTree) : DrivechainDeposit :=
  if v.1 = ascii "sidechainid" then
    if v.2.data = [] then deposit
    else if uint256S v.2.data = SIDECHAIN_ID then { deposit with sidechainid := setHex 32 v.2.data }
    else deposit
  else if v.1 = ascii "dt" then
    if v.2.data = [] then deposit
    else
      match decodeHexTx v.2.data with
      | some dtx => { deposit with deposit := dtx }
      | none => deposit
  else if v.1 = ascii "keyID" then
    if v.2.data = [] then deposit else { deposit with keyID := setHex 20 v.2.data }
  else deposit

/-- An entry of the list. -/
def readDeposit (value : PTree) : DrivechainDeposit := value.children.foldl readMember {}

/-- `getDeposits` on the reply of the mainchain, if there is one. -/
def getDeposits (reply : Option PTree) : Outcome (List DrivechainDeposit) :=
  match reply with
  | none => .ok []
  | some ptree => do
    let result ← ptree.getChild "result"
    pure (result.children.map fun value => readDeposit value.2)

@[simp] theorem decodeHexTx_nil : decodeHexTx [] = none := rfl

theorem uint256S_nil : uint256S [] ≠ SIDECHAIN_ID := by decide +kernel

/-- What a member writes to `sidechainid`. -/
def writtenId (v : Bytes × PTree) : Option Uint256 :=
  if v.1 = ascii "sidechainid" ∧ uint256S v.2.data = SIDECHAIN_ID then some SIDECHAIN_ID else none

/-- What a member writes to the transaction. -/
def writtenTx (v : Bytes × PTree) : Option CTransaction :=
  if v.1 = ascii "dt" then decodeHexTx v.2.data else none

theorem readMember_sidechainid (deposit : DrivechainDeposit) (v : Bytes × PTree) :
    (readMember deposit v).sidechainid = (writtenId v).getD deposit.sidechainid := by
  unfold readMember writtenId
  by_cases hid : v.1 = ascii "sidechainid"
  · rw [if_pos hid]
    by_cases hnil : v.2.data = []
    · rw [if_pos hnil,if_neg (by rw [hnil]; exact fun h => uint256S_nil h.2)]
      rfl
    · rw [if_neg hnil]
      by_cases hours : uint256S v.2.data = SIDECHAIN_ID
      · rw [if_pos hours,if_pos ⟨hid,hours⟩]
        exact hours
      · rw [if_neg hours,if_neg fun h => hours h.2]
        rfl
  · have hnot : ¬ (v.1 = ascii "sidechainid" ∧ uint256S v.2.data = SIDECHAIN_ID) :=
      fun h => hid h.1
    rw [if_neg hid,if_neg hnot]
    split_ifs
    · rfl
    · split <;> rfl
    · rfl
    · rfl
    · rfl

theorem readMember_deposit (deposit : DrivechainDeposit) (v : Bytes × PTree) :
    (readMember deposit v).deposit = (writtenTx v).getD deposit.deposit := by
  unfold readMember writtenTx
  by_cases hid : v.1 = ascii "sidechainid"
  · have hdt : v.1 ≠ ascii "dt" := by
      rw [hid]
      decide
    rw [if_pos hid,if_neg hdt]
    split_ifs <;> rfl
  · rw [if_neg hid]
    by_cases hdt : v.1 = ascii "dt"
    · rw [if_pos hdt,if_pos hdt]
      by_cases hnil : v.2.data = []
      · rw [if_pos hnil,hnil,decodeHexTx_nil]
        rfl
      · rw [if_neg hnil]
        cases decodeHexTx v.2.data <;> rfl
    · rw [if_neg hdt,if_neg hdt]
      split_ifs <;> rfl

theorem readDeposit_sidechainid {entry : PTree} :
    (readDeposit entry).sidechainid = SIDECHAIN_ID ↔ entry.Names := by
  have hzero : (0 : Uint256) ≠ SIDECHAIN_ID := by decide
  constructor
  · intro h
    rcases Store.foldl_field readMember_sidechainid {} entry.children with ⟨v,hv,hset⟩ | ⟨_,hget⟩
    · unfold writtenId at hset
      split_ifs at hset with hours
      exact ⟨v,hv,hours⟩
    · exact absurd (hget.symm.trans h) hzero
  · rintro ⟨v,hv,hours⟩
    rcases Store.foldl_field readMember_sidechainid {} entry.children with ⟨v',_,hset⟩ | ⟨hnone,_⟩
    · unfold writtenId at hset
      split_ifs at hset
      exact (Option.some.inj hset).symm
    · have := hnone v hv
      rw [writtenId,if_pos hours] at this
      cases this

theorem readDeposit_deposit {entry : PTree} {tx : CTransaction} (h : entry.Embeds tx) :
    entry.Embeds (readDeposit entry).deposit := by
  obtain ⟨v,hv,hdt,htx⟩ := h
  rcases Store.foldl_field readMember_deposit {} entry.children with ⟨v',hv',hset⟩ | ⟨hnone,_⟩
  · unfold writtenTx at hset
    split_ifs at hset with hdt'
    exact ⟨v',hv',hdt',hset⟩
  · have := hnone v hv
    rw [writtenTx,if_pos hdt,htx] at this
    cases this

/-- The deposit is to this sidechain and complete, as the entry it was read from. -/
structure CompleteFrom (entry : PTree) (d : DrivechainDeposit) : Prop where
  ours : d.sidechainid = SIDECHAIN_ID
  names : entry.Names
  embeds : entry.Embeds d.deposit

/-- Only deposits that are to this sidechain and complete, in the order of their entries. -/
def OnlyComplete (entries : List PTree) (deposits : List DrivechainDeposit) : Prop :=
  ∃ kept, kept.Sublist entries ∧ List.Forall₂ CompleteFrom kept deposits

theorem completeFrom_readDeposit {entry : PTree} :
    CompleteFrom entry (readDeposit entry) ↔ entry.Names ∧ ∃ tx, entry.Embeds tx :=
  ⟨fun h => ⟨h.names,_,h.embeds⟩,
    fun ⟨hnames,_,htx⟩ => ⟨readDeposit_sidechainid.mpr hnames,hnames,readDeposit_deposit htx⟩⟩

theorem onlyComplete_map {entries : List PTree} :
    OnlyComplete entries (entries.map readDeposit) ↔
      ∀ entry ∈ entries, entry.Names ∧ ∃ tx, entry.Embeds tx := by
  rw [show (∀ entry ∈ entries, entry.Names ∧ ∃ tx, entry.Embeds tx) ↔
      List.Forall₂ CompleteFrom entries (entries.map readDeposit) by
    rw [List.forall₂_map_right_iff,List.forall₂_same]
    exact forall₂_congr fun _ _ => completeFrom_readDeposit.symm]
  constructor
  · rintro ⟨kept,hkept,hcomplete⟩
    have hlength : kept.length = entries.length := by
      rw [hcomplete.length_eq,List.length_map]
    rwa [hkept.eq_of_length hlength] at hcomplete
  · exact fun h => ⟨entries,List.Sublist.refl _,h⟩

/-- Every reply whose entries all name this sidechain and embed a transaction, and no other, gives only
deposits that are to this sidechain and complete. -/
theorem getDeposits_onlyComplete_iff (ptree : PTree) :
    (∀ result deposits, ptree.getChild "result" = .ok result →
      getDeposits (some ptree) = .ok deposits →
        OnlyComplete (result.children.map Prod.snd) deposits) ↔
      ∀ result, ptree.getChild "result" = .ok result →
        ∀ v ∈ result.children, v.2.Names ∧ ∃ tx, v.2.Embeds tx := by
  have hanswer : ∀ result, ptree.getChild "result" = .ok result →
      getDeposits (some ptree) = .ok ((result.children.map Prod.snd).map readDeposit) := by
    intro result hresult
    rw [getDeposits,hresult,List.map_map]
    rfl
  have hentries : ∀ result : PTree, (∀ v ∈ result.children, v.2.Names ∧ ∃ tx, v.2.Embeds tx) ↔
      OnlyComplete (result.children.map Prod.snd) ((result.children.map Prod.snd).map readDeposit) := by
    intro result
    rw [onlyComplete_map,List.forall_mem_map]
  constructor
  · intro h result hresult
    exact (hentries result).mpr (h result _ hresult (hanswer result hresult))
  · intro h result deposits hresult hdeposits
    obtain rfl := Except.ok.inj ((hanswer result hresult).symm.trans hdeposits)
    exact (hentries result).mp (h result hresult)

/-- Locks one coin to a sidechain. -/
def foreignTx : CTransaction := { vout := [⟨COIN,SIDECHAIN_DEPOSITSCRIPT⟩] }

/-- The only entry belongs to the sidechain whose id is 1. -/
def foreignReply : PTree :=
  .node [] [(ascii "result",.node [] [([],.node [] [
    (ascii "sidechainid",.node (ascii "01") []),
    (ascii "dt",.node (ascii "01000000000100e1f505000000000151" ++ ascii "00000000") []),
    (ascii "keyID",.node (ascii "07") [])])])]

/-- It is returned nevertheless, and the miner pays it. -/
theorem foreignReply_returned : letI : Crypto := tableCrypto []
    getDeposits (some foreignReply) = .ok [{ keyID := 7, deposit := foreignTx }] ∧
    ({ keyID := 7, deposit := foreignTx } : DrivechainDeposit).sidechainid ≠ SIDECHAIN_ID ∧
    ⟨COIN,keyScript 7⟩ ∈ (getDepositTX (some ∅) [{ keyID := 7, deposit := foreignTx }]).vout := by
  decide +kernel

end Sidechain
