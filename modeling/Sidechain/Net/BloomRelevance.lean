import Sidechain.Net.BloomFilter
import Sidechain.Script.SolverAnswer

/-! A filter that a peer has loaded: which transactions are relevant to it, and the outpoints it takes
in when an output is. -/
namespace Sidechain
open Run

namespace CBloomFilter

/-- The loop over a script, up to the first operation that cannot be read. A round reads at least a
byte. -/
def containsPush (f : CBloomFilter) : ℕ → CScript → Outcome Bool
  | 0,_ => .error (.undefined "no fuel")
  | fuel+1,pc =>
    match getOp pc with
    | none => .ok false
    | some op =>
      if op.vch.length ≠ 0 then do
        if ← f.contains op.vch then .ok true
        else containsPush f fuel op.pc
      else containsPush f fuel op.pc

/-- What is inserted for an output that matches. -/
def updateFor (f : CBloomFilter) (outpoint : COutPoint) (scriptPubKey : CScript) :
    Outcome CBloomFilter :=
  if f.nFlags &&& BLOOM_UPDATE_MASK = BLOOM_UPDATE_ALL then f.insert outpoint.serialize
  else if f.nFlags &&& BLOOM_UPDATE_MASK = BLOOM_UPDATE_P2PUBKEY_ONLY then do
    let solved ← solver scriptPubKey
    if solved.ret ∧ (solved.typeRet = .pubkey ∨ solved.typeRet = .multisig) then
      f.insert outpoint.serialize
    else .ok f
  else .ok f

/-- A round of the loop over the outputs. -/
def matchOutput (hash : Uint256) (s : CBloomFilter × Bool) (txout : CTxOut × ℕ) :
    Outcome (CBloomFilter × Bool) := do
  if ← s.1.containsPush (txout.1.scriptPubKey.length + 1) txout.1.scriptPubKey then
    let f ← s.1.updateFor ⟨hash,UInt32.ofNat txout.2⟩ txout.1.scriptPubKey
    .ok (f,true)
  else .ok s

/-- A round of the loop over the inputs. -/
def matchInput (f : CBloomFilter) (txin : CTxIn) : Outcome Bool := do
  if ← f.contains txin.prevout.serialize then .ok true
  else f.containsPush (txin.scriptSig.length + 1) txin.scriptSig

def isRelevantAndUpdate [Crypto] (f : CBloomFilter) (tx : CTransaction) :
    Outcome (CBloomFilter × Bool) :=
  if f.isFull then .ok (f,true)
  else if f.isEmpty then .ok (f,false)
  else do
    let hash := tx.getHash
    let fFound ← f.contains (serializeBits 32 hash)
    let (f,fFound) ← tx.vout.zipIdx.foldlM (matchOutput hash) (f,fFound)
    if fFound then .ok (f,true)
    else do
      let b ← tx.vin.anyM f.matchInput
      .ok (f,b)

inductive Call where
  | insert (vKey : Bytes)
  | isRelevantAndUpdate (tx : CTransaction)
  deriving DecidableEq, Repr

def call [Crypto] (f : CBloomFilter) : Call → Outcome CBloomFilter
  | .insert vKey => f.insert vKey
  | .isRelevantAndUpdate tx => do
    let (f,_) ← f.isRelevantAndUpdate tx
    .ok f

/-- A push of the data, before the first operation that cannot be read. -/
inductive Pushes (data : Bytes) : CScript → Prop
  | here {pc op} (h : getOp pc = some op) : op.vch = data → Pushes data pc
  | later {pc op} (h : getOp pc = some op) : Pushes data op.pc → Pushes data pc

/-- The transaction spends an output of another one whose script pushes the data. -/
def SpendsPush [Crypto] (funding spending : CTransaction) (data : Bytes) : Prop :=
  ∃ i txout, funding.vout[i]? = some txout ∧ Pushes data txout.scriptPubKey ∧
    ∃ txin ∈ spending.vin, txin.prevout = ⟨funding.getHash,UInt32.ofNat i⟩

variable {f : CBloomFilter}

theorem updateEmptyFull_sound (f : CBloomFilter) : f.updateEmptyFull.Sound := by
  cases hdata : f.vData with
  | nil => exact .inl (by rw [updateEmptyFull,hdata]; rfl)
  | cons b rest => exact .inr (.inl (by rw [updateEmptyFull,hdata]; exact List.cons_ne_nil b rest))

theorem contains_total (h : f.Sound) (vKey : Bytes) : ∃ b, f.contains vKey = .ok b :=
  (contains_ok h vKey).imp fun _ => And.left

/-- The loop ends, and it finds every push that the filter contains. -/
theorem containsPush_ok (h : f.Sound) {fuel : ℕ} {pc : CScript} (hfuel : pc.length < fuel) :
    ∃ b, f.containsPush fuel pc = .ok b ∧ ∀ data, data ≠ [] → f.contains data = .ok true →
      Pushes data pc → b = true := by
  induction fuel generalizing pc with
  | zero => omega
  | succ fuel ih =>
    rw [containsPush]
    cases hop : getOp pc with
    | none =>
      refine ⟨false,rfl,fun data _ _ hpush => ?_⟩
      cases hpush with
      | here h => rw [hop] at h; cases h
      | later h => rw [hop] at h; cases h
    | some op =>
      have hshorter := getOp_shorter hop
      obtain ⟨rest,hrest,hfound⟩ := @ih op.pc (by omega)
      dsimp only
      split_ifs with hne
      · obtain ⟨b,hb⟩ := contains_total h op.vch
        rw [hb]
        cases b with
        | true => exact ⟨true,rfl,fun _ _ _ _ => rfl⟩
        | false =>
          refine ⟨rest,hrest,fun data hdata hin hpush => ?_⟩
          cases hpush with
          | here h hvch =>
            obtain rfl := Option.some.inj (hop.symm.trans h)
            rw [hvch,hin] at hb
            cases hb
          | later h hpush =>
            obtain rfl := Option.some.inj (hop.symm.trans h)
            exact hfound data hdata hin hpush
      · refine ⟨rest,hrest,fun data hdata hin hpush => ?_⟩
        cases hpush with
        | here h hvch =>
          obtain rfl := Option.some.inj (hop.symm.trans h)
          exact absurd (List.length_eq_zero_iff.mp (not_not.mp hne)) (hvch ▸ hdata)
        | later h hpush =>
          obtain rfl := Option.some.inj (hop.symm.trans h)
          exact hfound data hdata hin hpush

theorem updateFor_ok (h : f.Sound) (outpoint : COutPoint) (scriptPubKey : CScript) : ∃ g,
    f.updateFor outpoint scriptPubKey = .ok g ∧ f.Grows g ∧
      (f.nFlags &&& BLOOM_UPDATE_MASK = BLOOM_UPDATE_ALL →
        g.contains outpoint.serialize = .ok true) := by
  obtain ⟨g,hg,hgrows,hkey⟩ := insert_ok h outpoint.serialize
  rw [updateFor]
  split_ifs with hall hpubkey
  · exact ⟨g,hg,hgrows,fun _ => hkey⟩
  · obtain ⟨solved,hsolved,-⟩ := solver_spec scriptPubKey
    rw [hsolved]
    by_cases hkeys : solved.ret = true ∧ (solved.typeRet = .pubkey ∨ solved.typeRet = .multisig)
    · exact ⟨g,(if_pos hkeys).trans hg,hgrows,fun h => absurd h hall⟩
    · exact ⟨f,if_neg hkeys,Grows.refl f,fun h => absurd h hall⟩
  · exact ⟨f,rfl,Grows.refl f,fun h => absurd h hall⟩

/-- What a push of an inserted element in an output leads to. -/
def Takes (f g : CBloomFilter) (hash : Uint256) (txout : CTxOut × ℕ) : Prop :=
  ∀ data, data ≠ [] → f.contains data = .ok true → Pushes data txout.1.scriptPubKey →
    f.nFlags &&& BLOOM_UPDATE_MASK = BLOOM_UPDATE_ALL →
      g.contains (COutPoint.serialize ⟨hash,UInt32.ofNat txout.2⟩) = .ok true

theorem matchOutput_ok (h : f.Sound) (hash : Uint256) (fFound : Bool) (txout : CTxOut × ℕ) :
    ∃ g b, matchOutput hash (f,fFound) txout = .ok (g,b) ∧ f.Grows g ∧ f.Takes g hash txout := by
  obtain ⟨b,hb,hpush⟩ := containsPush_ok h (Nat.lt_succ_self txout.1.scriptPubKey.length)
  rw [matchOutput,hb]
  cases b with
  | false =>
    refine ⟨f,fFound,rfl,Grows.refl f,fun data hdata hin hpushes => ?_⟩
    cases hpush data hdata hin hpushes
  | true =>
    obtain ⟨g,hg,hgrows,hall⟩ :=
      updateFor_ok h ⟨hash,UInt32.ofNat txout.2⟩ txout.1.scriptPubKey
    refine ⟨g,true,?_,hgrows,fun _ _ _ _ => hall⟩
    change (f.updateFor _ _ >>= _) = _
    rw [hg]
    rfl

theorem matchOutputs_ok (h : f.Sound) (hash : Uint256) (fFound : Bool)
    (txouts : List (CTxOut × ℕ)) : ∃ g b,
      txouts.foldlM (matchOutput hash) (f,fFound) = .ok (g,b) ∧ f.Grows g ∧
        ∀ txout ∈ txouts, f.Takes g hash txout := by
  induction txouts generalizing f fFound with
  | nil => exact ⟨f,fFound,rfl,Grows.refl f,fun _ hmem => nomatch hmem⟩
  | cons txout txouts ih =>
    obtain ⟨e,b,he,hgrows,htakes⟩ := matchOutput_ok h hash fFound txout
    have hsound := hgrows.same.sound h
    obtain ⟨g,b',hg,hgrows',htakes'⟩ := ih hsound b
    refine ⟨g,b',by rw [List.foldlM_cons,he]; exact hg,hgrows.trans hgrows',fun o ho => ?_⟩
    rcases List.mem_cons.mp ho with rfl | ho
    · exact fun data hdata hin hpush hall =>
        hgrows'.contains hsound (htakes data hdata hin hpush hall)
    · refine fun data hdata hin hpush hall =>
        htakes' o ho data hdata (hgrows.contains h hin) hpush ?_
      rw [hgrows.same.nFlags]
      exact hall

theorem matchInput_ok (h : f.Sound) (txin : CTxIn) : ∃ b, f.matchInput txin = .ok b ∧
    (f.contains txin.prevout.serialize = .ok true → b = true) := by
  obtain ⟨b,hb⟩ := contains_total h txin.prevout.serialize
  rw [matchInput,hb]
  cases b with
  | true => exact ⟨true,rfl,fun _ => rfl⟩
  | false =>
    obtain ⟨b,hpush,-⟩ := containsPush_ok h (Nat.lt_succ_self txin.scriptSig.length)
    exact ⟨b,hpush,fun h => nomatch h⟩

theorem matchInputs_ok (h : f.Sound) (vin : List CTxIn) : ∃ b, vin.anyM f.matchInput = .ok b ∧
    ((∃ txin ∈ vin, f.contains txin.prevout.serialize = .ok true) → b = true) := by
  induction vin with
  | nil => exact ⟨false,rfl,fun ⟨_,hmem,_⟩ => nomatch hmem⟩
  | cons txin vin ih =>
    obtain ⟨b,hb,hprevout⟩ := matchInput_ok h txin
    rw [List.anyM,hb]
    cases b with
    | true => exact ⟨true,rfl,fun _ => rfl⟩
    | false =>
      obtain ⟨b,hrest,hfound⟩ := ih
      refine ⟨b,hrest,fun ⟨t,ht,hin⟩ => ?_⟩
      rcases List.mem_cons.mp ht with rfl | ht
      · cases hprevout hin
      · exact hfound ⟨t,ht,hin⟩

/-- A transaction is processed: outputs that push an inserted element leave their outpoints in the
filter, and a transaction that spends an outpoint in the filter is relevant. -/
theorem isRelevantAndUpdate_ok [Crypto] (h : f.Sound) (tx : CTransaction) : ∃ g b,
    f.isRelevantAndUpdate tx = .ok (g,b) ∧ f.Grows g ∧
      (∀ txout ∈ tx.vout.zipIdx, f.Takes g tx.getHash txout) ∧
        ((∃ txin ∈ tx.vin, f.contains txin.prevout.serialize = .ok true) → b = true) := by
  rw [isRelevantAndUpdate]
  split_ifs with hfull hempty
  · exact ⟨f,true,rfl,Grows.refl f,fun _ _ _ _ _ _ _ => by rw [contains,if_pos hfull],fun _ => rfl⟩
  · have hnone : ∀ vKey, f.contains vKey = .ok false := fun vKey => by
      rw [contains,if_neg hfull,if_pos hempty]
    refine ⟨f,false,rfl,Grows.refl f,fun _ _ data _ hin => ?_,?_⟩
    · rw [hnone] at hin
      cases hin
    · rintro ⟨txin,_,hin⟩
      rw [hnone] at hin
      cases hin
  · obtain ⟨fFound,hhash⟩ := contains_total h (serializeBits 32 tx.getHash)
    obtain ⟨g,b,hg,hgrows,htakes⟩ := matchOutputs_ok h tx.getHash fFound tx.vout.zipIdx
    obtain ⟨b',hb',hspent⟩ := matchInputs_ok (hgrows.same.sound h) tx.vin
    simp only [bind_ok]
    cases b with
    | true =>
      exact ⟨g,true,⟨_,hhash,_,hg,rfl⟩,hgrows,htakes,fun _ => rfl⟩
    | false =>
      refine ⟨g,b',⟨_,hhash,_,hg,?_⟩,hgrows,htakes,?_⟩
      · rw [if_neg Bool.false_ne_true,hb']
        rfl
      · rintro ⟨txin,hmem,hin⟩
        exact hspent ⟨txin,hmem,hgrows.contains h hin⟩

theorem call_ok [Crypto] (h : f.Sound) (c : Call) : ∃ g, f.call c = .ok g ∧ f.Grows g := by
  cases c with
  | insert vKey =>
    obtain ⟨g,hg,hgrows,-⟩ := insert_ok h vKey
    exact ⟨g,hg,hgrows⟩
  | isRelevantAndUpdate tx =>
    obtain ⟨g,b,hg,hgrows,-⟩ := isRelevantAndUpdate_ok h tx
    exact ⟨g,by rw [call,hg]; rfl,hgrows⟩

theorem calls_ok [Crypto] (h : f.Sound) (calls : List Call) : ∃ g,
    calls.foldlM call f = .ok g ∧ f.Grows g := by
  induction calls generalizing f with
  | nil => exact ⟨f,rfl,Grows.refl f⟩
  | cons c calls ih =>
    obtain ⟨e,he,hgrows⟩ := call_ok h c
    obtain ⟨g,hg,hgrows'⟩ := ih (hgrows.same.sound h)
    exact ⟨g,by rw [List.foldlM_cons,he]; exact hg,hgrows.trans hgrows'⟩

theorem calls_inserted [Crypto] (h : f.Sound) {calls : List Call} {vKey : Bytes}
    (hmem : Call.insert vKey ∈ calls) {g : CBloomFilter} (hg : calls.foldlM call f = .ok g) :
    g.contains vKey = .ok true := by
  obtain ⟨before,after,rfl⟩ := List.append_of_mem hmem
  obtain ⟨d,hd,hd'⟩ := foldlM_append_ok.mp hg
  obtain ⟨e,he,he'⟩ := foldlM_cons_ok.mp hd'
  obtain ⟨d',hd'',hgrows⟩ := calls_ok h before
  obtain rfl := Except.ok.inj (hd''.symm.trans hd)
  have hsound := hgrows.same.sound h
  obtain ⟨e',hinsert,hgrows',hkey⟩ := insert_ok hsound vKey
  obtain rfl := Except.ok.inj (hinsert.symm.trans he)
  obtain ⟨g',hg',hgrows''⟩ := calls_ok (hgrows'.same.sound hsound) after
  obtain rfl := Except.ok.inj (hg'.symm.trans he')
  exact hgrows''.contains (hgrows'.same.sound hsound) hkey

theorem calls_outpoint [Crypto] (h : f.Sound) {before after : List Call} {funding : CTransaction}
    {data : Bytes} (hdata : data ≠ []) (hinserted : Call.insert data ∈ before)
    (hall : f.nFlags &&& BLOOM_UPDATE_MASK = BLOOM_UPDATE_ALL) {i : ℕ} {txout : CTxOut}
    (hout : funding.vout[i]? = some txout) (hpush : Pushes data txout.scriptPubKey)
    {g : CBloomFilter}
    (hg : (before ++ Call.isRelevantAndUpdate funding :: after).foldlM call f = .ok g) :
    g.contains (COutPoint.serialize ⟨funding.getHash,UInt32.ofNat i⟩) = .ok true := by
  obtain ⟨d,hd,hd'⟩ := foldlM_append_ok.mp hg
  obtain ⟨e,he,he'⟩ := foldlM_cons_ok.mp hd'
  have hin := calls_inserted h hinserted hd
  obtain ⟨d',hd'',hgrows⟩ := calls_ok h before
  obtain rfl := Except.ok.inj (hd''.symm.trans hd)
  have hsound := hgrows.same.sound h
  obtain ⟨e',b,hprocessed,hgrows',htakes,-⟩ := isRelevantAndUpdate_ok hsound funding
  rw [call,hprocessed] at he
  obtain rfl := Except.ok.inj he
  obtain ⟨g',hg',hgrows''⟩ := calls_ok (hgrows'.same.sound hsound) after
  obtain rfl := Except.ok.inj (hg'.symm.trans he')
  refine hgrows''.contains (hgrows'.same.sound hsound) ?_
  refine htakes (txout,i) (List.mem_zipIdx_iff_getElem?.mpr hout) data hdata hin hpush ?_
  rw [hgrows.same.nFlags]
  exact hall

/-- Whatever filter a peer sends, no call fails, inserted keys are found, and a transaction is
relevant that spends an output whose script pushes an inserted element that is not empty. -/
theorem loaded_run [Crypto] (f : CBloomFilter) (calls : List Call) : ∃ g,
    calls.foldlM call f.updateEmptyFull = .ok g ∧ (∀ vKey, ∃ b, g.contains vKey = .ok b) ∧
      (∀ vKey, Call.insert vKey ∈ calls → g.contains vKey = .ok true) ∧
        ∀ before after data funding spending,
          calls = before ++ Call.isRelevantAndUpdate funding :: after →
            Call.insert data ∈ before → data ≠ [] →
              f.nFlags &&& BLOOM_UPDATE_MASK = BLOOM_UPDATE_ALL →
                SpendsPush funding spending data →
                  ∃ g', g.isRelevantAndUpdate spending = .ok (g',true) := by
  have h := updateEmptyFull_sound f
  obtain ⟨g,hg,hgrows⟩ := calls_ok h calls
  have hsound := hgrows.same.sound h
  refine ⟨g,hg,contains_total hsound,fun vKey hmem => calls_inserted h hmem hg,?_⟩
  rintro before after data funding spending rfl hinserted hdata hall ⟨i,txout,hout,hpush,hspends⟩
  have houtpoint := calls_outpoint h hdata hinserted hall hout hpush hg
  obtain ⟨txin,hmem,hprevout⟩ := hspends
  obtain ⟨g',b,hb,-,-,hspent⟩ := isRelevantAndUpdate_ok hsound spending
  obtain rfl := hspent ⟨txin,hmem,hprevout ▸ houtpoint⟩
  exact ⟨g',hb⟩

section Samples
local instance bloomCrypto : Crypto := digitCrypto

def sampleFunding (scriptPubKey : CScript) : CTransaction := {vout := [⟨5,scriptPubKey⟩]}

def sampleSpending (scriptPubKey : CScript) : CTransaction :=
  {vin := [{prevout := ⟨(sampleFunding scriptPubKey).getHash,0⟩}]}

def sampleFilter : CBloomFilter := ⟨[0,0,0,0,0,0,0,0],false,false,3,0,BLOOM_UPDATE_ALL⟩

def sampleCalls (data : Bytes) (scriptPubKey : CScript) : List Call :=
  [.insert data,.isRelevantAndUpdate (sampleFunding scriptPubKey)]

theorem spendsPush_sample {data : Bytes} {scriptPubKey : CScript}
    (h : Pushes data scriptPubKey) :
    SpendsPush (sampleFunding scriptPubKey) (sampleSpending scriptPubKey) data :=
  ⟨0,_,rfl,h,_,List.mem_cons_self,rfl⟩

theorem loaded_run_push : ∃ g,
    (sampleCalls [7] [1,7]).foldlM call sampleFilter.updateEmptyFull = .ok g ∧
      ∃ g', g.isRelevantAndUpdate (sampleSpending [1,7]) = .ok (g',true) :=
  (loaded_run sampleFilter (sampleCalls [7] [1,7])).imp fun _ h =>
    ⟨h.1,h.2.2.2 [.insert [7]] [] [7] (sampleFunding [1,7]) _ rfl List.mem_cons_self
      (List.cons_ne_nil _ _) rfl (spendsPush_sample (.here rfl rfl))⟩

/-- The empty element is inserted, a script pushes it, and the transaction that spends the output
is not relevant. -/
theorem emptyPush_missed :
    SpendsPush (sampleFunding [OP_0]) (sampleSpending [OP_0]) [] ∧
      ((sampleCalls [] [OP_0]).foldlM call sampleFilter.updateEmptyFull >>=
        fun g => (·.2) <$> g.isRelevantAndUpdate (sampleSpending [OP_0])) = .ok false := by
  refine ⟨spendsPush_sample (.here rfl rfl),?_⟩
  decide +kernel

end Samples
end CBloomFilter
end Sidechain
