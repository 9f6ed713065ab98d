import Sidechain.Chain.MerkleRoot
import Sidechain.Chain.PartialMerkleTree
import Mathlib.Tactic.IntervalCases

/-! What `ExtractMatches` proves: the matches are transactions of every list with that root and
length, if the hash has no collision; and it never reads past the end of what it was given. What is
built from the txids of a block, sent and extracted is the root of the block and the wanted txids. -/
namespace Sidechain
open MerkleTree

namespace CPartialMerkleTree

variable {α : Type} [DecidableEq α] [Inhabited α] {node : α → α → α} {t : CPartialMerkleTree α}

theorem calcHeight_eq {n fuel nHeight : ℕ} (hle : nHeight ≤ Nat.clog 2 n)
    (hfuel : Nat.clog 2 n ≤ fuel + nHeight) : calcHeight n fuel nHeight = Nat.clog 2 n := by
  induction fuel generalizing nHeight with
  | zero =>
    rw [calcHeight]
    omega
  | succ fuel ih =>
    have hiff : 1 < calcTreeWidth n nHeight ↔ nHeight < Nat.clog 2 n := by
      rw [Nat.lt_clog_iff_pow_lt (by decide),← Nat.not_le,← Nat.not_le]
      exact not_congr width_le_one
    rw [calcHeight]
    split_ifs with hmore
    · exact ih (hiff.mp hmore) (by omega)
    · exact Nat.le_antisymm hle (Nat.not_lt.mp fun hlt => hmore (hiff.mpr hlt))

theorem calcHeight_root (n : ℕ) : calcHeight n n 0 = Nat.clog 2 n :=
  calcHeight_eq (Nat.zero_le _) (Nat.clog_le_of_le_pow Nat.lt_two_pow_self.le)

/-- The tree that the bits and hashes of an object begin with. -/
structure Encodes (t : CPartialMerkleTree α) (tree : PartialTree α) : Prop where
  fits : tree.Fits t.nTransactions (Nat.clog 2 t.nTransactions) 0
  bits : tree.bits <+: t.vBits
  hashes : tree.hashes <+: t.vHash

/-- The pairs that are hashed on the way up from the hashes of an object. -/
def hashedPairs (node : α → α → α) (t : CPartialMerkleTree α) : Set (α × α) :=
  {q | ∃ tree, t.Encodes tree ∧ q ∈ tree.pairs node}

omit [DecidableEq α] [Inhabited α] in
theorem Encodes.unique {tree tree' : PartialTree α} (h : t.Encodes tree) (h' : t.Encodes tree') :
    tree = tree' := by
  obtain ⟨bs,hb⟩ := h.bits
  obtain ⟨bs',hb'⟩ := h'.bits
  obtain ⟨hs,hh⟩ := h.hashes
  obtain ⟨hs',hh'⟩ := h'.hashes
  exact (h.fits.unique h'.fits (hb.trans hb'.symm) (hh.trans hh'.symm)).1

omit [DecidableEq α] [Inhabited α] in
theorem Encodes.hashedPairs {tree : PartialTree α} (h : t.Encodes tree) :
    t.hashedPairs node = tree.pairs node := by
  ext q
  constructor
  · rintro ⟨tree',h',hq⟩
    rwa [h.unique h']
  · exact fun hq => ⟨tree,h,hq⟩

theorem extractMatches_total (node : α → α → α) (t : CPartialMerkleTree α) :
    ∃ r, extractMatches node t = .ok r := by
  unfold extractMatches
  split_ifs
  iterate 4 exact ⟨_,rfl⟩
  obtain ⟨⟨h,s⟩,hrun⟩ := traverseAndExtract_total node t
    (calcHeight t.nTransactions t.nTransactions 0) 0 { fBad := t.fBad }
  dsimp only [bind,Except.bind]
  rw [hrun]
  dsimp only
  split_ifs <;> exact ⟨_,rfl⟩

theorem extractMatches_some {root : α} {vMatch : List α} {t' : CPartialMerkleTree α}
    (h : extractMatches node t = .ok (some root,vMatch,t')) :
    t.nTransactions ≠ 0 ∧ ∃ tree, t.Encodes tree ∧ root = tree.hash node ∧
      vMatch = tree.matched := by
  obtain ⟨⟨hash,s⟩,hrun⟩ := traverseAndExtract_total node t
    (calcHeight t.nTransactions t.nTransactions 0) 0 { fBad := t.fBad }
  unfold extractMatches at h
  split_ifs at h with h0
  iterate 4 cases h
  dsimp only [bind,Except.bind] at h
  rw [hrun] at h
  dsimp only at h
  split_ifs at h with hbad hbits hhashes
  iterate 3 cases h
  simp only [Except.ok.injEq,Prod.mk.injEq,Option.some.injEq] at h
  obtain ⟨rfl,rfl,_⟩ := h
  rw [calcHeight_root] at hrun
  obtain ⟨tree,hfits,hroot,rfl,hb,hh⟩ := traverse_reads hrun (Bool.eq_false_iff.mpr hbad)
  exact ⟨h0,tree,⟨hfits,hb,hh⟩,hroot,rfl⟩

/-- Whatever the object, the matches are transactions of a list with its root and length, in the
order of the list, if no two of the hashed pairs collide. -/
theorem extractMatches_sound {α : Type} [DecidableEq α] [Inhabited α] (node : α → α → α)
    (t : CPartialMerkleTree α) :
    (∃ r, extractMatches node t = .ok r) ∧
    ∀ (vTxid : List α) (root : α) (mutated : Bool) (vMatch : List α) (t' : CPartialMerkleTree α),
      Set.InjOn (fun q => node q.1 q.2) (t.hashedPairs node ∪ levelPairs node vTxid) →
      extractMatches node t = .ok (some root,vMatch,t') →
      computeRoot node vTxid = some (root,mutated) → t.nTransactions = vTxid.length →
      vMatch.Sublist vTxid := by
  refine ⟨extractMatches_total node t,?_⟩
  intro vTxid root mutated vMatch t' hinj hrun hroot hlen
  obtain ⟨hpos,tree,henc,hhash,rfl⟩ := extractMatches_some hrun
  obtain ⟨m,heq,_⟩ := computeRoot_eq node (length_le_of_computeRoot hroot)
  have hsame : root = MerkleTree.root node vTxid :=
    (congrArg Prod.fst (Option.some.inj (heq.symm.trans hroot))).symm
  rw [hlen] at hpos
  rw [henc.hashedPairs] at hinj
  have hfits := henc.fits
  rw [hlen] at hfits
  have hsub := PartialTree.matched_sublist hinj hfits le_rfl
    (width_pos _ (Nat.pos_of_ne_zero hpos)) (by rw [← hhash,hsame,root_eq_nodeAt])
  rwa [slice_zero (Nat.le_pow_clog (by decide) _)] at hsub

/-- Three transactions, of which the last two are proved. -/
theorem extractMatches_three :
    (∃ r, extractMatches Nat.pair ⟨3,[true,true,false,true,true,true],[5,6,7],false⟩ = .ok r) ∧
    [6,7].Sublist [5,6,7] := by
  obtain ⟨hok,hsound⟩ := extractMatches_sound Nat.pair
    ⟨3,[true,true,false,true,true,true],[5,6,7],false⟩
  exact ⟨hok,hsound [5,6,7] _ false [6,7] _ Nat.pairEquiv.injective.injOn rfl
    (by decide) rfl⟩

end CPartialMerkleTree

open Codec

/-- One round of the loop that sets the bits of the bytes. -/
def setBit (vBits : List Bool) (vBytes : Bytes) (p : ℕ) : Bytes :=
  vBytes.modify (p / 8) fun b =>
    UInt8.ofNat (b.toNat ||| (vBits.getD p false).toNat <<< (p % 8))

def packBits (vBits : List Bool) : Bytes :=
  (List.range vBits.length).foldl (setBit vBits) (List.replicate ((vBits.length + 7) / 8) 0)

def bitAt (vBytes : Bytes) (p : ℕ) : Bool := (vBytes.getD (p / 8) 0).toNat.testBit (p % 8)

def unpackBits (vBytes : Bytes) : List Bool := (List.range (vBytes.length * 8)).map (bitAt vBytes)

@[simp] theorem length_setBit (vBits : List Bool) (vBytes : Bytes) (p : ℕ) :
    (setBit vBits vBytes p).length = vBytes.length := List.length_modify _ _ _

theorem testBit_or_bit (x : UInt8) (b : Bool) {r i : ℕ} (hr : r < 8) :
    (UInt8.ofNat (x.toNat ||| b.toNat <<< i)).toNat.testBit r =
      (x.toNat.testBit r || (decide (r = i) && b)) := by
  rw [UInt8.toNat_ofNat',Nat.testBit_mod_two_pow,Nat.testBit_or,decide_eq_true hr,Bool.true_and]
  cases b with
  | false => simp
  | true =>
    rw [Bool.toNat_true,Nat.one_shiftLeft,Nat.testBit_two_pow,Bool.and_true]
    simp only [eq_comm]

theorem bitAt_setBit {vBits : List Bool} {vBytes : Bytes} {p q : ℕ} (hp : p / 8 < vBytes.length) :
    bitAt (setBit vBits vBytes p) q =
      (bitAt vBytes q || (decide (q = p) && vBits.getD p false)) := by
  unfold bitAt setBit
  simp only [List.getD_eq_getElem?_getD,List.getElem?_modify]
  by_cases h : p / 8 = q / 8
  · rw [← h,List.getElem?_eq_getElem hp]
    simp only [if_true,Option.map_eq_map,Option.map_some,Option.getD_some]
    rw [testBit_or_bit _ _ (Nat.mod_lt _ (by decide))]
    have hiff : q % 8 = p % 8 ↔ q = p := by omega
    simp only [hiff]
  · have hq : q ≠ p := fun heq => h (by rw [heq])
    simp [h,hq]

theorem foldl_setBit (vBits : List Bool) {n : ℕ} (hn : n ≤ vBits.length) :
    ((List.range n).foldl (setBit vBits) (List.replicate ((vBits.length + 7) / 8) 0)).length =
        (vBits.length + 7) / 8 ∧
      ∀ q, bitAt ((List.range n).foldl (setBit vBits)
        (List.replicate ((vBits.length + 7) / 8) 0)) q = (decide (q < n) && vBits.getD q false) := by
  induction n with
  | zero =>
    refine ⟨List.length_replicate,fun q => ?_⟩
    simp only [List.range_zero,List.foldl_nil,bitAt,List.getD_eq_getElem?_getD,
      List.getElem?_replicate]
    split_ifs <;> simp
  | succ n ih =>
    obtain ⟨hlen,hbits⟩ := ih (Nat.le_of_succ_le hn)
    rw [List.range_succ,List.foldl_append,List.foldl_cons,List.foldl_nil]
    refine ⟨(length_setBit _ _ _).trans hlen,fun q => ?_⟩
    rw [bitAt_setBit (by rw [hlen]; omega),hbits]
    by_cases hq : q = n
    · simp [hq]
    · have hiff : q < n + 1 ↔ q < n := by omega
      simp [hq,hiff]

@[simp] theorem packBits_length (vBits : List Bool) :
    (packBits vBits).length = (vBits.length + 7) / 8 := (foldl_setBit vBits le_rfl).1

/-- The flags come back, followed by unset ones up to the end of the last byte. -/
theorem unpackBits_packBits (vBits : List Bool) : unpackBits (packBits vBits) =
    vBits ++ List.replicate ((vBits.length + 7) / 8 * 8 - vBits.length) false := by
  unfold unpackBits
  rw [packBits_length]
  refine List.ext_getElem ?_ fun q h₁ h₂ => ?_
  · simp
    omega
  · rw [List.getElem_map,List.getElem_range,packBits,(foldl_setBit vBits le_rfl).2,
      List.getElem_append]
    split_ifs with hq
    · simp [hq]
    · simp [hq]

namespace CPartialMerkleTree

def serialize (t : CPartialMerkleTree Uint256) : Bytes :=
  leBytes 4 t.nTransactions ++ (serializeVector (serializeBits 32) t.vHash ++
    serializeBlob (packBits t.vBits))

def unserialize : Reader (CPartialMerkleTree Uint256) := do
  let nTransactions ← ser_readdata 4
  let vHash ← unserializeVector (unserializeBits 256 32)
  let vBytes ← unserializeBlob
  pure { nTransactions, vBits := unpackBits vBytes, vHash, fBad := false }

/-- Only the padding of the last byte is added on the way. -/
theorem unserialize_serialize {t : CPartialMerkleTree Uint256} (hn : t.nTransactions < 2^32)
    (hhashes : t.vHash.length ≤ MAX_SIZE) (hbits : (t.vBits.length + 7) / 8 ≤ MAX_SIZE)
    (rest : Bytes) : unserialize.run (t.serialize ++ rest) =
      .ok (⟨t.nTransactions,unpackBits (packBits t.vBits),t.vHash,false⟩,rest) := by
  unfold unserialize serialize
  rw [List.append_assoc,(ser_readdata_inverts 4).run_bind hn,List.append_assoc,
    (unserializeVector_inverts (unserializeBits_inverts 256 32 rfl)).run_bind
      ⟨hhashes,fun _ _ => trivial⟩,
    unserializeBlob_inverts.run_bind (by rwa [packBits_length])]
  rfl

section
variable {α : Type} [DecidableEq α] [Inhabited α] {node : α → α → α} {vTxid : List α}
  {vMatch : List Bool}

omit [DecidableEq α] in
theorem calcHash_eq {height pos : ℕ} (hpos : pos < width vTxid.length height) :
    calcHash node vTxid vTxid.length height pos = nodeAt node vTxid height pos := by
  induction height generalizing pos with
  | zero =>
    rw [width_zero] at hpos
    rw [nodeAt_zero node vTxid hpos]
    exact (List.getElem_eq_getD default).symm
  | succ height ih =>
    have hleft : pos * 2 < width vTxid.length height := by
      rw [width_succ] at hpos
      omega
    have hwidth : calcTreeWidth vTxid.length height = width vTxid.length height := rfl
    rw [nodeAt_succ vTxid hpos,calcHash,ih hleft,hwidth,Nat.mul_comm 2 pos]
    split_ifs with hright
    · rw [ih hright]
    · rfl

def wanted (vMatch : List Bool) (i : ℕ) : Bool := vMatch.getD i false

omit [DecidableEq α] [Inhabited α] in
theorem any_eq_false {n k p : ℕ} : (List.range' (p * 2^k) (2^k)).any (fun i =>
    decide (i < n) && vMatch.getD i false) = false ↔ wantedBelow (wanted vMatch) n k p = [] := by
  unfold wantedBelow wanted
  rw [List.any_eq_false,List.filter_eq_nil_iff]

omit [DecidableEq α] in
/-- What is appended are the flags and hashes of the partial tree of the wanted txids. -/
theorem traverseAndBuild_eq {height pos : ℕ} {t : CPartialMerkleTree α}
    (hn : t.nTransactions = vTxid.length) (hpos : pos < width vTxid.length height) :
    traverseAndBuild node vTxid vMatch height pos t =
      { t with
        vBits := t.vBits ++ (prune node vTxid (wanted vMatch) height pos).bits
        vHash := t.vHash ++ (prune node vTxid (wanted vMatch) height pos).hashes } := by
  induction height generalizing pos t with
  | zero =>
    unfold traverseAndBuild prune
    dsimp only
    rw [hn,calcHash_eq hpos]
    cases hf : (List.range' (pos * 2^0) (2^0)).any fun i =>
        decide (i < vTxid.length) && vMatch.getD i false with
    | false =>
      rw [if_pos (any_eq_false.mp hf)]
      rfl
    | true =>
      rw [if_neg fun hnone => by rw [any_eq_false.mpr hnone] at hf; cases hf]
      rfl
  | succ height ih =>
    have hleft : 2 * pos < width vTxid.length height := by
      rw [width_succ] at hpos
      omega
    unfold traverseAndBuild prune
    dsimp only
    rw [hn]
    cases hf : (List.range' (pos * 2^(height + 1)) (2^(height + 1))).any fun i =>
        decide (i < vTxid.length) && vMatch.getD i false with
    | false =>
      rw [if_neg Bool.false_ne_true,if_pos (any_eq_false.mp hf),calcHash_eq hpos]
      rfl
    | true =>
      have hsome : wantedBelow (wanted vMatch) vTxid.length (height + 1) pos ≠ [] := fun hnone => by
        rw [any_eq_false.mpr hnone] at hf
        cases hf
      rw [if_pos rfl,if_neg hsome,Nat.mul_comm pos 2,ih rfl hleft]
      dsimp only
      have hwidth : calcTreeWidth vTxid.length height = width vTxid.length height := rfl
      rw [hwidth]
      split_ifs with hright
      · rw [ih rfl hright]
        simp [PartialTree.bits,PartialTree.hashes]
      · simp [PartialTree.bits,PartialTree.hashes]

omit [DecidableEq α] in
theorem build_eq (hpos : 0 < vTxid.length) : build node vTxid vMatch =
    ⟨vTxid.length,(prune node vTxid (wanted vMatch) (Nat.clog 2 vTxid.length) 0).bits,
      (prune node vTxid (wanted vMatch) (Nat.clog 2 vTxid.length) 0).hashes,false⟩ := by
  unfold build
  rw [calcHeight_root,traverseAndBuild_eq rfl (width_pos _ hpos)]
  simp

omit [Inhabited α] [DecidableEq α] in
theorem wantedBelow_root {n : ℕ} (want : ℕ → Bool) :
    wantedBelow want n (Nat.clog 2 n) 0 = (List.range n).filter want := by
  have hle := Nat.le_pow_clog (by decide : 1 < 2) n
  have hsplit : List.range' 0 (2^Nat.clog 2 n) =
      List.range' 0 n ++ List.range' (0 + n) (2^Nat.clog 2 n - n) := by
    rw [List.range'_append_1,Nat.add_sub_cancel' hle]
  unfold wantedBelow
  rw [Nat.zero_mul,hsplit,List.filter_append,List.range_eq_range']
  have hpast : (List.range' (0 + n) (2^Nat.clog 2 n - n)).filter
      (fun i => decide (i < n) && want i) = [] := by
    rw [List.filter_eq_nil_iff]
    intro i hi
    have := List.left_le_of_mem_range' hi
    simp only [Bool.and_eq_true,decide_eq_true_eq]
    omega
  rw [hpast,List.append_nil]
  refine List.filter_congr fun i hi => ?_
  have hlt : i < n := by
    have := List.mem_range'_1.mp hi
    omega
  simp [hlt]

omit [DecidableEq α] in
/-- The wanted leaves by position are those with a set flag. -/
theorem map_wanted (hlen : vMatch.length = vTxid.length) :
    ((List.range vTxid.length).filter (wanted vMatch)).map (fun i => vTxid.getD i default) =
      ((vTxid.zip vMatch).filter Prod.snd).map Prod.fst := by
  induction vTxid generalizing vMatch with
  | nil => simp
  | cons x xs ih =>
    cases vMatch with
    | nil => cases hlen
    | cons m ms =>
      have hrec := ih (Nat.succ.inj hlen)
      rw [List.length_cons,List.range_succ_eq_map,List.zip_cons_cons]
      rw [List.filter_cons,List.filter_map,List.filter_cons]
      have hcomp : wanted (m :: ms) ∘ Nat.succ = wanted ms := rfl
      have hhead : wanted (m :: ms) 0 = m := rfl
      rw [hcomp,hhead]
      cases m with
      | false =>
        rw [if_neg Bool.false_ne_true,if_neg Bool.false_ne_true,List.map_map]
        exact hrec
      | true =>
        rw [if_pos rfl,if_pos rfl,List.map_cons,List.map_cons,List.map_map]
        exact congrArg (x :: ·) hrec

/-- The object with the padding of the wire still encodes its tree. -/
theorem extractMatches_build (hpos : 0 < vTxid.length)
    (hmax : vTxid.length ≤ MAX_BLOCK_SIZE / 60) (hlen : vMatch.length = vTxid.length)
    (hnodup : vTxid.Nodup) (hinj : Set.InjOn (fun q => node q.1 q.2) (levelPairs node vTxid)) :
    ∃ t', extractMatches node ⟨vTxid.length,
      unpackBits (packBits (build node vTxid vMatch).vBits),(build node vTxid vMatch).vHash,false⟩ =
      .ok (some (root node vTxid),((vTxid.zip vMatch).filter Prod.snd).map Prod.fst,t') := by
  have hroot := width_pos (Nat.clog 2 vTxid.length) hpos
  rw [build_eq hpos,unpackBits_packBits]
  dsimp only
  generalize htree : prune node vTxid (wanted vMatch) (Nat.clog 2 vTxid.length) 0 = tree
  have hmatched : tree.matched = ((vTxid.zip vMatch).filter Prod.snd).map Prod.fst := by
    rw [← htree,prune_matched,wantedBelow_root,map_wanted hlen]
  have hhash : tree.hash node = root node vTxid := by
    rw [← htree,prune_hash hroot,root_eq_nodeAt]
  have hfits : tree.Fits vTxid.length (Nat.clog 2 vTxid.length) 0 := htree ▸ prune_fits
  have hapart : tree.Apart node := htree ▸ prune_apart hnodup hinj le_rfl hroot
  have hhashes : tree.hashes.length ≤ vTxid.length := by
    rw [← htree]
    refine (prune_hashes_length hroot).trans_eq ?_
    rw [slice_zero (Nat.le_pow_clog (by decide) _)]
  have hbits := tree.hashes_le_bits
  have hrun := traverse_read (t := ⟨vTxid.length,
    tree.bits ++ List.replicate ((tree.bits.length + 7) / 8 * 8 - tree.bits.length) false,
    tree.hashes,false⟩) (s := ⟨0,0,[],false⟩) hfits hapart rfl (List.append_nil _).symm
  unfold extractMatches
  dsimp only
  rw [if_neg hpos.ne',if_neg (Nat.not_lt.mpr hmax),if_neg (Nat.not_lt.mpr hhashes),
    if_neg (by rw [List.length_append]; omega),calcHeight_root,hrun]
  dsimp only [bind,Except.bind,Extraction.after]
  rw [if_neg Bool.false_ne_true,if_neg,if_neg,hhash,List.nil_append,hmatched]
  · exact ⟨_,rfl⟩
  · simp
  · rw [List.length_append,List.length_replicate,not_not]
    omega

end

/-- What is built from the txids of a block with a mask, sent and extracted gives the root of the
block and the txids of the mask, in order, if no two pairs of the tree collide. -/
theorem merkle_proof_round_trip [Crypto] (vTxid : List Uint256) (vMatch : List Bool)
    (hne : vTxid ≠ []) (hmax : vTxid.length ≤ MAX_BLOCK_SIZE / 60)
    (hlen : vMatch.length = vTxid.length) (hnodup : vTxid.Nodup)
    (hinj : Set.InjOn (fun q => hashPair q.1 q.2) (levelPairs hashPair vTxid)) (rest : Bytes) :
    ∃ t, unserialize.run ((build hashPair vTxid vMatch).serialize ++ rest) = .ok (t,rest) ∧
      ∃ root mutated t', computeRoot hashPair vTxid = some (root,mutated) ∧
        extractMatches hashPair t =
          .ok (some root,((vTxid.zip vMatch).filter Prod.snd).map Prod.fst,t') := by
  have hpos := List.length_pos_iff.mpr hne
  have hmax' : vTxid.length ≤ 16666 := hmax
  have hbuild : build hashPair vTxid vMatch = _ := build_eq hpos
  have hroot := width_pos (Nat.clog 2 vTxid.length) hpos
  have hslice : slice vTxid (Nat.clog 2 vTxid.length) 0 = vTxid :=
    slice_zero (Nat.le_pow_clog (by decide) _)
  have hhashes : (build hashPair vTxid vMatch).vHash.length ≤ vTxid.length := by
    rw [hbuild]
    exact (prune_hashes_length hroot).trans_eq (by rw [hslice])
  have hclog : Nat.clog 2 vTxid.length ≤ 15 :=
    Nat.clog_le_of_le_pow (hmax'.trans (by decide))
  have hbits : (build hashPair vTxid vMatch).vBits.length ≤ vTxid.length * 16 := by
    rw [hbuild]
    refine (prune_bits_length hroot).trans ?_
    rw [hslice]
    exact Nat.mul_le_mul_left _ (by omega)
  obtain ⟨t',hextract⟩ := extractMatches_build hpos hmax hlen hnodup hinj
  obtain ⟨mutated,hcompute,_⟩ := computeRoot_eq hashPair
    (show vTxid.length ≤ 2^31 from hmax'.trans (by decide))
  have hmaxsize : MAX_SIZE = 33554432 := rfl
  refine ⟨_,unserialize_serialize (by rw [hbuild]; dsimp only; omega) (by omega) (by omega) rest,_,
    mutated,t',hcompute,?_⟩
  rw [show (build hashPair vTxid vMatch).nTransactions = vTxid.length by rw [hbuild]]
  exact hextract

local instance proofCrypto : Crypto := digitCrypto

theorem levelPairs_three {α : Type} [Inhabited α] (node : α → α → α) (a b c : α) :
    levelPairs node [a,b,c] ⊆ {(a,b),(c,c),(node a b,node c c)} := by
  rintro q ⟨k,hk,p,hp,rfl⟩
  have hclog : Nat.clog 2 3 = 2 := by decide
  rw [List.length_cons,List.length_cons,List.length_singleton,hclog] at hk
  have hleaf : ∀ {x : α} {xs : List α}, (List.take 1 (x :: xs)).head?.getD default = x := rfl
  interval_cases k
  · have hp2 : p < 2 := by simpa [width] using hp
    interval_cases p
    · refine Or.inl ?_
      simp [nodeAt,slice,treeHash,width,hleaf]
    · refine Or.inr (Or.inl ?_)
      simp [nodeAt,slice,treeHash,width,hleaf]
  · have hp1 : p < 1 := by simpa [width] using hp
    interval_cases p
    refine Or.inr (Or.inr ?_)
    simp [nodeAt,slice,treeHash,width,hleaf]

theorem round_trip_three : ∃ t, unserialize.run
      ((build hashPair [5,6,7] [false,true,true]).serialize ++ [0]) = .ok (t,[0]) ∧
      ∃ root mutated t', computeRoot hashPair [5,6,7] = some (root,mutated) ∧
        extractMatches hashPair t = .ok (some root,[6,7],t') :=
  merkle_proof_round_trip [5,6,7] [false,true,true] (by decide) (by decide) rfl (by decide)
    ((injOn_three (by decide +kernel) (by decide +kernel) (by decide +kernel)).mono
      (levelPairs_three hashPair 5 6 7)) [0]

end CPartialMerkleTree

end Sidechain
