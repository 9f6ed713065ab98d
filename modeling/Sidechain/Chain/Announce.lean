import Sidechain.Chain.Grounded
import Sidechain.Primitives.Outcome

/-! New blocks are announced to a peer: a round of `ActivateBestChain` that moves the tip queues the
hashes of what it connected, and `SendMessages` makes headers or an inventory of the queue. As long as
no block in the queue comes back to the active chain, the headers made of it connect. -/
namespace Sidechain

/-- What of a `CNodeState` tells which headers the peer has, and how it wants to hear of new ones. -/
structure HeaderState where
  hashLastUnknownBlock : Uint256 := 0
  pindexBestKnownBlock : Option Uint256 := none
  pindexBestHeaderSent : Option Uint256 := none
  fPreferHeaders : Bool := false
  deriving DecidableEq, Repr

/-- What `SendMessages` sends for the queue; a header is named by its hash. -/
inductive Announcement where
  | nothing
  | inv (hashToAnnounce : Uint256)
  | headers (vHeaders : List Uint256)
  deriving DecidableEq, Repr

/-- The variables of the loop over the queue. -/
structure HeaderSearch where
  fRevertToInv : Bool := false
  fFoundStartingHeader : Bool := false
  pBestIndex : Option Uint256 := none
  vHeaders : List Uint256 := []
  deriving DecidableEq, Repr

def MAX_BLOCKS_TO_ANNOUNCE : ℕ := 8

namespace BlockTree

/-- `vHashes`, lowest block first: the blocks above the fork with the old tip, if there is a new
tip, but not more than the highest ones. -/
def announcedHashes (t : BlockTree) (pindexOldTip : Option Uint256) : List Uint256 :=
  let pindexFork := pindexOldTip.bind t.findFork
  match t.tip with
  | none => []
  | some pindexNewTip =>
    if pindexFork = some pindexNewTip then []
    else (((t.path pindexNewTip).takeWhile fun h => some h ≠ pindexFork).take
      MAX_BLOCKS_TO_ANNOUNCE).reverse

/-- One round of the loop, with the hashes it pushes to the peer. -/
def activateRound (addr : Uint256 → ℕ) (hashGenesisBlock : Uint256)
    (connects : BlockTree → Uint256 → Bool) (t : BlockTree) :
    Option (BlockTree × List Uint256) :=
  match findMostWorkChain addr (t.setBlockIndexCandidates.card + 1) t with
  | (none,t) => some (t,[])
  | (some pindexMostWork,t) =>
    if t.tip = some pindexMostWork then some (t,[])
    else
      match activateBestChainStep addr hashGenesisBlock connects pindexMostWork t with
      | none => none
      | some t' => some (t',t'.announcedHashes t.tip)

/-- `pindex->GetAncestor(height)`. -/
def getAncestor (t : BlockTree) (pindex : Uint256) (height : ℕ) : Option Uint256 :=
  if height > (t.entry pindex).nHeight then none
  else (t.path pindex)[(t.entry pindex).nHeight - height]?

def peerHasHeader (t : BlockTree) (state : HeaderState) (pindex : Uint256) : Bool :=
  let height := (t.entry pindex).nHeight
  (state.pindexBestKnownBlock.bind fun best => t.getAncestor best height) == some pindex ||
    (state.pindexBestHeaderSent.bind fun best => t.getAncestor best height) == some pindex

def processBlockAvailability (t : BlockTree) (state : HeaderState) : HeaderState :=
  let hash := state.hashLastUnknownBlock
  if hash = 0 then state
  else if hash ∈ t.mapBlockIndex ∧ (t.entry hash).nChainWork > 0 then
    { state with
      hashLastUnknownBlock := 0
      pindexBestKnownBlock :=
        match state.pindexBestKnownBlock with
        | none => some hash
        | some best =>
          if (t.entry hash).nChainWork ≥ (t.entry best).nChainWork then some hash else some best }
  else state

/-- The loop over the queue: it gives up at a block off the active chain, and at one that would not
connect. -/
def announceHeaders (t : BlockTree) (state : HeaderState) :
    List Uint256 → HeaderSearch → Outcome HeaderSearch
  | [],s => .ok s
  | hash::hashes,s =>
    if hash ∉ t.mapBlockIndex then .error (.assertion "mi != mapBlockIndex.end()")
    else if !t.contains hash then .ok { s with fRevertToInv := true }
    else if s.pBestIndex ≠ none ∧ (t.entry hash).pprev ≠ s.pBestIndex then
      .error (.assertion "pBestIndex == NULL || pindex->pprev == pBestIndex")
    else
      let s := { s with pBestIndex := some hash }
      if s.fFoundStartingHeader then
        announceHeaders t state hashes { s with vHeaders := s.vHeaders ++ [hash] }
      else if t.peerHasHeader state hash then announceHeaders t state hashes s
      else if (t.entry hash).pprev.all (t.peerHasHeader state) then
        announceHeaders t state hashes
          { s with fFoundStartingHeader := true, vHeaders := s.vHeaders ++ [hash] }
      else .ok { s with fRevertToInv := true }

/-- No headers are looked for if the peer does not want them, or if there are too many. -/
def searchHeaders (t : BlockTree) (state : HeaderState) (vBlockHashesToAnnounce : List Uint256) :
    Outcome HeaderSearch :=
  let fRevertToInv := !state.fPreferHeaders ||
    decide (vBlockHashesToAnnounce.length > MAX_BLOCKS_TO_ANNOUNCE)
  if fRevertToInv then .ok { fRevertToInv }
  else t.announceHeaders state vBlockHashesToAnnounce {}

/-- The part of `SendMessages` that announces blocks; it ends with an empty queue. -/
def sendAnnouncements (t : BlockTree) (state : HeaderState)
    (vBlockHashesToAnnounce : List Uint256) : Outcome (Announcement × HeaderState) := do
  let state := t.processBlockAvailability state
  let s ← t.searchHeaders state vBlockHashesToAnnounce
  if s.fRevertToInv then
    match vBlockHashesToAnnounce.getLast? with
    | none => pure (.nothing,state)
    | some hashToAnnounce =>
      if hashToAnnounce ∉ t.mapBlockIndex then .error (.assertion "mi != mapBlockIndex.end()")
      else if t.peerHasHeader state hashToAnnounce then pure (.nothing,state)
      else pure (.inv hashToAnnounce,state)
  else if s.vHeaders = [] then pure (.nothing,state)
  else pure (.headers s.vHeaders,{ state with pindexBestHeaderSent := s.pBestIndex })

variable {t t' : BlockTree} {addr : Uint256 → ℕ} {g : Uint256}

theorem IsTree.eq_of_mem_path (ht : t.IsTree) {a b : Uint256} (hab : a ∈ t.path b)
    (hba : b ∈ t.path a) : a = b := by
  obtain ⟨above,hb⟩ := ht.path_eq_append hab
  obtain ⟨above',ha⟩ := ht.path_eq_append hba
  have hlen := congrArg List.length hb
  have hlen' := congrArg List.length ha
  rw [List.length_append] at hlen hlen'
  rw [List.eq_nil_of_length_eq_zero (show above.length = 0 by omega),List.nil_append] at hb
  have hhead := congrArg List.head? hb
  rw [IsTree.head?_path,IsTree.head?_path] at hhead
  exact (Option.some.inj hhead).symm

theorem IsTree.isChain_path (ht : t.IsTree) (h : Uint256) :
    (t.path h).IsChain fun x y => (t.entry x).pprev = some y := by
  induction h using ht.induct with
  | hstep h ih =>
    cases hp : (t.entry h).pprev with
    | none =>
      rw [IsTree.path_root hp]
      exact List.isChain_singleton h
    | some p =>
      rw [ht.path_child hp,List.isChain_cons]
      refine ⟨fun y hy => ?_,ih p hp⟩
      rw [IsTree.head?_path] at hy
      cases hy
      exact hp

theorem contains_congr (hs : SameShape t t') (hchain : t'.vChain = t.vChain) :
    t'.contains = t.contains := by
  funext h
  unfold contains
  rw [hs.nHeight,hchain]

/-- The path of the new tip is what the round connected, above what was active before. -/
theorem path_split {tip' : Uint256} (h : Grounded g t) (h' : Grounded g t') (hs : SameShape t t')
    (htip' : t'.tip = some tip') : ∃ above below, t'.path tip' = above ++ below ∧
      t'.announcedHashes t.tip = (above.take MAX_BLOCKS_TO_ANNOUNCE).reverse ∧
      (∀ x ∈ above, t.contains x = false) ∧ ∀ tip, t.tip = some tip → below ≠ [] ∧
        below ⊆ t.path tip := by
  unfold announcedHashes
  simp only [htip']
  cases htip : t.tip with
  | none =>
    refine ⟨t'.path tip',[],(List.append_nil _).symm,?_,fun x _ => contains_of_no_tip htip x,
      fun _ hn => nomatch hn⟩
    rw [Option.bind_none,if_neg (Option.some_ne_none tip').symm,List.takeWhile_eq_self_iff.mpr]
    exact fun x _ => decide_eq_true (Option.some_ne_none x)
  | some tip =>
    have hgenesis := h.rooted.genesis_mem_path h.tree (h.tip_mem htip)
    obtain ⟨f,hfork⟩ : ∃ f, t'.findFork tip = some f := by
      rw [← Option.isSome_iff_exists]
      unfold findFork
      rw [List.find?_isSome,hs.path]
      exact ⟨g,hgenesis,(h'.contains_iff htip').mpr
        (h'.rooted.genesis_mem_path h'.tree (h'.tip_mem htip'))⟩
    obtain ⟨hcon,off,rest,hsplit,hoff⟩ := List.find?_eq_some_iff_append.mp hfork
    obtain ⟨above,habove⟩ := h'.tree.path_eq_append ((h'.contains_iff htip').mp hcon)
    have hf : t'.path f = f::rest := h'.tree.path_of_eq_append hsplit
    have hnodup : (above ++ t'.path f).Nodup := habove ▸ h'.tree.path_nodup tip'
    have hdisjoint := List.disjoint_of_nodup_append hnodup
    rw [hs.path] at hsplit
    refine ⟨above,t'.path f,habove,?_,?_,?_⟩
    · have htake : (t'.path tip').takeWhile (fun x => decide (some x ≠ some f)) = above := by
        rw [habove,hf,List.takeWhile_append_of_pos]
        · simp
        · intro a ha
          have hne : a ≠ f := by
            rintro rfl
            exact hdisjoint ha (IsTree.self_mem_path t' a)
          simpa using hne
      rw [Option.bind_some,hfork]
      split_ifs with hself
      · cases hself
        rw [List.self_eq_append_left.mp habove]
        rfl
      · rw [htake]
    · intro x hx
      rw [← Bool.not_eq_true,h.contains_iff htip,hsplit]
      intro hin
      rcases List.mem_append.mp hin with hin | hin
      · have hx' : t'.contains x = true := by
          rw [h'.contains_iff htip',habove]
          exact List.mem_append_left _ hx
        simpa [hx'] using hoff x hin
      · exact hdisjoint hx (hf ▸ hin)
    · rintro _ ⟨⟩
      refine ⟨by simp [hf],?_⟩
      rw [hf,hsplit]
      exact List.subset_append_right _ _

/-- A block of the active chain is below the next one in the queue, and the last one is the tip. -/
structure Connected (t : BlockTree) (hashes : List Uint256) : Prop where
  chain : hashes.IsChain fun x y => t.contains x = true → (t.entry y).pprev = some x
  last : ∀ x ∈ hashes.getLast?, t.contains x = true → t.tip = some x

/-- The queue is longer than what can be announced with headers, or it is connected. -/
structure Waiting (t : BlockTree) (hashes : List Uint256) : Prop where
  mem : hashes ⊆ t.mapBlockIndex
  connected : MAX_BLOCKS_TO_ANNOUNCE < hashes.length ∨ Connected t hashes

theorem Waiting.nil (t : BlockTree) : Waiting t [] where
  mem := List.nil_subset _
  connected := Or.inr ⟨List.isChain_nil,fun _ hx => nomatch hx⟩

/-- No block of the queue comes back to the active chain. -/
def NoReturn (t : BlockTree) (hashes : List Uint256) (t' : BlockTree) : Prop :=
  ∀ x ∈ hashes, t'.contains x = true → t.contains x = true

/-- The tree grows, or the active chain gets shorter. -/
theorem Waiting.recede {hashes : List Uint256} (hw : Waiting t hashes) (h : Grounded g t)
    (h' : Grounded g t') (hgrows : Grows t t') (hbelow : Grounded.Below t t') :
    Waiting t' hashes := by
  have hcontains : ∀ {x}, t'.contains x = true → ∃ tip tip', t.tip = some tip ∧
      t'.tip = some tip' ∧ tip' ∈ t.path tip ∧ x ∈ t.path tip' ∧ t.contains x = true := by
    intro x hx
    cases htip' : t'.tip with
    | none =>
      rw [contains_of_no_tip htip'] at hx
      cases hx
    | some tip' =>
      obtain ⟨tip,htip,hin⟩ := hbelow htip'
      rw [h'.contains_iff htip',hgrows.path (h.tree.path_subset (h.tip_mem htip) hin)] at hx
      refine ⟨tip,tip',htip,rfl,hin,hx,?_⟩
      rw [h.contains_iff htip]
      exact h.tree.mem_path_trans hx hin
  refine ⟨fun x hx => hgrows.mapBlockIndex (hw.mem hx),hw.connected.imp_right fun hc => ?_⟩
  constructor
  · refine hc.chain.imp_of_mem_imp fun x y _ hy hxy hx => ?_
    obtain ⟨_,_,_,_,_,_,hx'⟩ := hcontains hx
    rw [hgrows.pprev (hw.mem hy)]
    exact hxy hx'
  · intro x hlast hx
    obtain ⟨tip,tip',htip,htip',hin,hbelow',hx'⟩ := hcontains hx
    cases htip.symm.trans (hc.last x hlast hx')
    rw [htip',h.tree.eq_of_mem_path hin hbelow']

/-- What a round pushes is connected to the queue. -/
theorem Waiting.push {hashes : List Uint256} (hw : Waiting t hashes) (h : Grounded g t)
    (h' : Grounded g t') (hs : SameShape t t') (hreturn : NoReturn t hashes t') :
    Waiting t' (hashes ++ t'.announcedHashes t.tip) := by
  cases htip' : t'.tip with
  | none =>
    have hnone : t'.announcedHashes t.tip = [] := by
      unfold announcedHashes
      rw [htip']
    rw [hnone,List.append_nil]
    exact hw.recede h h' hs.grows fun h => nomatch htip'.symm.trans h
  | some tip' =>
    obtain ⟨above,below,hpath,heq,habove,hbelow⟩ := path_split h h' hs htip'
    have hchain := h'.tree.isChain_path tip'
    rw [hpath,List.isChain_append] at hchain
    obtain ⟨hchain,_,hjoin⟩ := hchain
    have hsub : above ⊆ t'.mapBlockIndex := fun x hx => h'.tree.path_subset (h'.tip_mem htip')
      (hpath ▸ List.mem_append_left _ hx)
    rw [heq]
    refine ⟨List.append_subset.mpr ⟨hs.mapBlockIndex ▸ hw.mem,fun x hx =>
      hsub (List.take_subset _ _ (List.mem_reverse.mp hx))⟩,?_⟩
    rw [List.length_append,List.length_reverse,List.length_take]
    rcases hw.connected with hlong | hc
    · exact Or.inl (by omega)
    by_cases hroom : MAX_BLOCKS_TO_ANNOUNCE < hashes.length + min MAX_BLOCKS_TO_ANNOUNCE above.length
    · exact Or.inl hroom
    refine Or.inr ?_
    -- the last block of the queue is the old tip if it is active, and then it is the fork
    have hfork : ∀ x ∈ hashes.getLast?, t'.contains x = true → below.head? = some x := by
      intro x hx hin
      have hold := hreturn x (List.mem_of_getLast? hx) hin
      obtain ⟨hne,hsubset⟩ := hbelow x (hc.last x hx hold)
      obtain ⟨b,rest,rfl⟩ := List.exists_cons_of_ne_nil hne
      rw [h'.contains_iff htip',hpath] at hin
      have hx' : x ∈ b::rest := (List.mem_append.mp hin).resolve_left fun hin => by
        rw [habove x hin] at hold
        cases hold
      rw [← h'.tree.path_of_eq_append hpath] at hx'
      have hb := hsubset List.mem_cons_self
      rw [← hs.path] at hb
      rw [List.head?_cons,h'.tree.eq_of_mem_path hx' hb]
    constructor
    · refine List.isChain_append.mpr ⟨?_,?_,?_⟩
      · refine hc.chain.imp_of_mem_imp fun x y hx _ hxy hin => ?_
        rw [hs.pprev]
        exact hxy (hreturn x hx hin)
      · rw [List.isChain_reverse]
        exact (hchain.take _).imp fun _ _ hxy _ => hxy
      · intro x hx y hy hin
        have hpos : 0 < hashes.length := List.length_pos_of_mem (List.mem_of_getLast? hx)
        rw [List.take_of_length_le (by omega),List.head?_reverse] at hy
        exact hjoin y hy x (hfork x hx hin)
    · intro x hx hin
      cases above with
      | nil =>
        rw [List.take_nil,List.reverse_nil,List.append_nil] at hx
        have hhead := congrArg List.head? hpath
        rw [IsTree.head?_path,List.nil_append,hfork x hx hin] at hhead
        exact htip'.trans hhead
      | cons a above =>
        have hhead := congrArg List.head? hpath
        rw [IsTree.head?_path] at hhead
        cases hhead
        have hx' : some tip' = some x := by simpa [MAX_BLOCKS_TO_ANNOUNCE] using hx
        exact htip'.trans hx'

/-- The loop so far: the headers go down from the last block seen, to one whose parent the peer
has. -/
structure SearchSound (t : BlockTree) (state : HeaderState) (s : HeaderSearch) : Prop where
  found : s.fFoundStartingHeader = true ↔ s.vHeaders ≠ []
  best : ∀ {b}, s.pBestIndex = some b → t.contains b = true ∧ s.vHeaders.reverse <+: t.path b
  start : s.pBestIndex = none → s.vHeaders = []
  parent : ∀ {first}, s.vHeaders.head? = some first →
    (t.entry first).pprev.all (t.peerHasHeader state) = true

/-- A block above the last one seen is added to the headers. -/
theorem SearchSound.append {state : HeaderState} {s : HeaderSearch} {hash : Uint256}
    (hs : SearchSound t state s) (ht : t.IsTree) (hactive : t.contains hash = true)
    (hbest : ∀ b, s.pBestIndex = some b → (t.entry hash).pprev = some b)
    (hparent : s.vHeaders = [] → (t.entry hash).pprev.all (t.peerHasHeader state) = true) :
    SearchSound t state { s with
      fFoundStartingHeader := true
      pBestIndex := some hash
      vHeaders := s.vHeaders ++ [hash] } where
  found := iff_of_true rfl (List.concat_ne_nil _ _)
  best := by
    rintro _ ⟨⟩
    refine ⟨hactive,?_⟩
    obtain ⟨above,habove⟩ : ∃ above, t.path hash = hash::above :=
      List.head?_eq_some_iff.mp (IsTree.head?_path t hash)
    rw [List.reverse_append,List.reverse_singleton,List.singleton_append]
    cases hb : s.pBestIndex with
    | none =>
      rw [hs.start hb,habove]
      exact List.prefix_cons_inj hash |>.mpr (List.nil_prefix)
    | some b =>
      rw [ht.path_child (hbest b hb)]
      exact List.prefix_cons_inj hash |>.mpr (hs.best hb).2
  start h := nomatch h
  parent {first} hfirst := by
    cases hheaders : s.vHeaders with
    | nil =>
      rw [hheaders] at hfirst
      cases hfirst
      exact hparent hheaders
    | cons x xs =>
      rw [hheaders] at hfirst
      exact hs.parent (by rw [hheaders]; exact hfirst)

theorem announceHeaders_spec {state : HeaderState} {hashes : List Uint256} {s : HeaderSearch}
    (ht : t.IsTree) (hmem : hashes ⊆ t.mapBlockIndex)
    (hchain : (s.pBestIndex.toList ++ hashes).IsChain fun x y =>
      t.contains x = true → (t.entry y).pprev = some x) (hs : SearchSound t state s) :
    ∃ s', t.announceHeaders state hashes s = .ok s' ∧ SearchSound t state s' := by
  induction hashes generalizing s with
  | nil => exact ⟨s,rfl,hs⟩
  | cons hash hashes ih =>
    obtain ⟨hin,hmem⟩ := List.cons_subset.mp hmem
    rw [announceHeaders,if_neg (not_not.mpr hin)]
    by_cases hactive : t.contains hash = true
    swap
    · rw [Bool.not_eq_true] at hactive
      rw [hactive]
      exact ⟨_,rfl,hs.found,hs.best,hs.start,hs.parent⟩
    have hbest : ∀ b, s.pBestIndex = some b → (t.entry hash).pprev = some b := by
      intro b hb
      rw [hb,Option.toList_some,List.singleton_append,List.isChain_cons_cons] at hchain
      exact hchain.1 (hs.best hb).1
    have hparent : ¬ (s.pBestIndex ≠ none ∧ (t.entry hash).pprev ≠ s.pBestIndex) := by
      rintro ⟨hne,hdiff⟩
      obtain ⟨b,hb⟩ := Option.ne_none_iff_exists'.mp hne
      exact hdiff ((hbest b hb).trans hb.symm)
    have hnext : (hash::hashes).IsChain fun x y =>
        t.contains x = true → (t.entry y).pprev = some x := hchain.right_of_append
    -- a header the peer has, or one that is given up, adds nothing
    have hskip : s.vHeaders = [] → ∀ revert, SearchSound t state { s with
        fRevertToInv := revert, pBestIndex := some hash } := by
      intro hnil revert
      refine ⟨hs.found,?_,(fun h => nomatch h),hs.parent⟩
      rintro _ ⟨⟩
      refine ⟨hactive,?_⟩
      dsimp only
      rw [hnil]
      exact List.nil_prefix
    rw [hactive,Bool.not_true,if_neg Bool.false_ne_true,if_neg hparent]
    dsimp only
    split_ifs with hfound hhas hprev
    · have happend := hs.append ht hactive hbest fun hnil => absurd hnil (hs.found.mp hfound)
      rw [← hfound] at happend
      exact ih hmem hnext happend
    · exact ih hmem hnext (hskip (by simpa [hfound] using hs.found) s.fRevertToInv)
    · exact ih hmem hnext (hs.append ht hactive hbest fun _ => hprev)
    · exact ⟨_,rfl,hskip (by simpa [hfound] using hs.found) true⟩

theorem Waiting.search {hashes : List Uint256} (hw : Waiting t hashes) (h : Grounded g t)
    (state : HeaderState) :
    ∃ s, t.searchHeaders state hashes = .ok s ∧ SearchSound t state s := by
  have hstart : SearchSound t state {} :=
    ⟨iff_of_false Bool.false_ne_true (not_not.mpr rfl),(fun hb => nomatch hb),fun _ => rfl,
      fun hfirst => nomatch hfirst⟩
  unfold searchHeaders
  dsimp only
  split_ifs with hrevert
  · exact ⟨_,rfl,hstart.found,(fun hb => nomatch hb),hstart.start,hstart.parent⟩
  · have hroom : ¬ MAX_BLOCKS_TO_ANNOUNCE < hashes.length := by
      intro hlong
      simp [hlong] at hrevert
    exact announceHeaders_spec h.tree hw.mem (hw.connected.resolve_left hroom).chain hstart

/-- Nothing is asserted in vain, and headers are a part of the active chain that connects. -/
theorem Waiting.send {hashes : List Uint256} (hw : Waiting t hashes) (h : Grounded g t)
    (state : HeaderState) : ∃ message state', t.sendAnnouncements state hashes =
      .ok (message,state') ∧ ∀ vHeaders, message = .headers vHeaders → vHeaders <:+: t.vChain ∧
        ∃ first, vHeaders.head? = some first ∧
          (t.entry first).pprev.all (t.peerHasHeader (t.processBlockAvailability state)) = true := by
  obtain ⟨s,hsearch,hs⟩ := hw.search h (t.processBlockAvailability state)
  unfold sendAnnouncements
  dsimp only
  rw [hsearch]
  change ∃ message state', (if s.fRevertToInv = true then _ else _) = Except.ok (message,state') ∧ _
  by_cases hinv : s.fRevertToInv = true
  · rw [if_pos hinv]
    cases hlast : hashes.getLast? with
    | none => exact ⟨_,_,rfl,fun _ hm => nomatch hm⟩
    | some hash =>
      dsimp only
      rw [if_neg (not_not.mpr (hw.mem (List.mem_of_getLast? hlast)))]
      split_ifs
      · exact ⟨_,_,rfl,fun _ hm => nomatch hm⟩
      · exact ⟨_,_,rfl,fun _ hm => nomatch hm⟩
  rw [if_neg hinv]
  by_cases hnil : s.vHeaders = []
  · rw [if_pos hnil]
    exact ⟨_,_,rfl,fun _ hm => nomatch hm⟩
  rw [if_neg hnil]
  refine ⟨_,_,rfl,?_⟩
  rintro _ ⟨⟩
  constructor
  · obtain ⟨b,hb⟩ : ∃ b, s.pBestIndex = some b :=
      Option.ne_none_iff_exists'.mp fun hnone => hnil (hs.start hnone)
    obtain ⟨hactive,hbelow⟩ := hs.best hb
    cases htip : t.tip with
    | none =>
      rw [contains_of_no_tip htip] at hactive
      cases hactive
    | some tip =>
      obtain ⟨above,hpath⟩ := h.tree.path_eq_append ((h.contains_iff htip).mp hactive)
      rw [h.active tip htip,← List.reverse_reverse s.vHeaders,List.reverse_infix,hpath]
      exact hbelow.isInfix.trans (List.suffix_append above (t.path b)).isInfix
  · obtain ⟨first,hfirst⟩ := Option.ne_none_iff_exists'.mp (mt List.head?_eq_none_iff.mp hnil)
    exact ⟨first,hfirst,hs.parent hfirst⟩

section
variable [Crypto]

/-- A call between two `SendMessages`, for one peer: `ActivateBestChain` takes one round, whose
hashes are pushed, and nothing else pushes any. -/
def announceStep (addr : Uint256 → ℕ) (hashGenesisBlock : Uint256) (t : BlockTree)
    (vBlockHashesToAnnounce : List Uint256) : ChainCall → Option (BlockTree × List Uint256)
  | .activate connects =>
    (t.activateRound addr hashGenesisBlock connects).map fun (t',hashes) =>
      (t',vBlockHashesToAnnounce ++ hashes)
  | call =>
    (chainStep addr hashGenesisBlock t call).map fun t' => (t',vBlockHashesToAnnounce)

/-- The trees and queues that well-formed calls reach, each of which satisfies `P`; `SendMessages`
can come at any time, and empties the queue. -/
inductive AnnounceReached (addr : Uint256 → ℕ) (hashGenesisBlock : Uint256)
    (P : BlockTree → List Uint256 → BlockTree → Prop) : BlockTree → List Uint256 → Prop
  | start : AnnounceReached addr hashGenesisBlock P {} []
  | call {t t' : BlockTree} {hashes hashes' : List Uint256} {call : ChainCall}
      (h : AnnounceReached addr hashGenesisBlock P t hashes)
      (hwf : call.WellFormed hashGenesisBlock t) (hP : P t hashes t')
      (hstep : announceStep addr hashGenesisBlock t hashes call = some (t',hashes')) :
      AnnounceReached addr hashGenesisBlock P t' hashes'
  | sent {t : BlockTree} {hashes : List Uint256}
      (h : AnnounceReached addr hashGenesisBlock P t hashes) :
      AnnounceReached addr hashGenesisBlock P t []

omit [Crypto] in
theorem Waiting.activateRound {connects : BlockTree → Uint256 → Bool}
    {hashes pushed : List Uint256} (hw : Waiting t hashes) (h : Grounded g t)
    (hreturn : NoReturn t hashes t') (hround : t.activateRound addr g connects = some (t',pushed)) :
    Waiting t' (hashes ++ pushed) ∧ Grounded g t' := by
  unfold BlockTree.activateRound at hround
  cases hfind : BlockTree.findMostWorkChain addr (t.setBlockIndexCandidates.card + 1) t with
  | mk chosen t1 =>
    obtain ⟨hs,hchain,h1,hmem⟩ := h.findMostWorkChain hfind
    have hw1 := hw.recede h h1 hs.grows (Grounded.below_of_vChain hchain)
    have htip : t1.tip = t.tip := congrArg List.getLast? hchain
    rw [hfind] at hround
    cases chosen with
    | none =>
      cases hround
      rw [List.append_nil]
      exact ⟨hw1,h1⟩
    | some target =>
      dsimp only at hround
      split_ifs at hround
      · cases hround
        rw [List.append_nil]
        exact ⟨hw1,h1⟩
      · cases hstep : BlockTree.activateBestChainStep addr g connects target t1 with
        | none =>
          rw [hstep] at hround
          cases hround
        | some t2 =>
          rw [hstep] at hround
          cases hround
          obtain ⟨hs',h2⟩ := h1.activateBestChainStep (hs.mapBlockIndex ▸ hmem target rfl) hstep
          refine ⟨hw1.push h1 h2 hs' fun x hx hin => ?_,h2⟩
          rw [contains_congr hs hchain]
          exact hreturn x hx hin

/-- The step lemma of the run. -/
theorem Waiting.announceStep {hashes hashes' : List Uint256} {call : ChainCall}
    (hw : Waiting t hashes) (h : Grounded g t) (hwf : call.WellFormed g t)
    (hreturn : NoReturn t hashes t')
    (hstep : BlockTree.announceStep addr g t hashes call = some (t',hashes')) :
    Waiting t' hashes' ∧ Grounded g t' := by
  cases call with
  | header block passes =>
    cases hstep
    cases haccept : t.acceptBlockHeader g block passes with
    | none => exact ⟨hw,h⟩
    | some t1 =>
      obtain ⟨hgrows,hchain,h1,_⟩ := h.acceptBlockHeader hwf haccept
      exact ⟨hw.recede h h1 hgrows (Grounded.below_of_vChain hchain),h1⟩
  | block block headerPasses passes =>
    cases hstep
    obtain ⟨hgrows,hchain,h1⟩ := h.processBlock hwf.1
    exact ⟨hw.recede h h1 hgrows (Grounded.below_of_vChain hchain),h1⟩
  | activate connects =>
    obtain ⟨⟨t1,pushed⟩,hround,heq⟩ := Option.map_eq_some_iff.mp hstep
    cases heq
    exact hw.activateRound h hreturn hround
  | invalidate pindex =>
    obtain ⟨t1,hcall,heq⟩ := Option.map_eq_some_iff.mp hstep
    cases heq
    obtain ⟨hs,h1,hbelow⟩ := h.invalidateBlock hwf hcall
    exact ⟨hw.recede h h1 hs.grows hbelow,h1⟩
  | reconsider pindex =>
    obtain ⟨t1,hcall,heq⟩ := Option.map_eq_some_iff.mp hstep
    cases heq
    obtain ⟨hs,h1,hchain⟩ := h.reconsiderBlock hwf hcall
    exact ⟨hw.recede h h1 hs.grows (Grounded.below_of_vChain hchain),h1⟩

theorem AnnounceReached.waiting {hashes : List Uint256}
    (h : AnnounceReached addr g NoReturn t hashes) : Waiting t hashes ∧ Grounded g t := by
  induction h with
  | start => exact ⟨Waiting.nil {},Grounded.empty g⟩
  | call _ hwf hreturn hstep ih => exact ih.1.announceStep ih.2 hwf hreturn hstep
  | sent _ ih => exact ⟨Waiting.nil _,ih.2⟩

/-- As long as no block of the queue comes back to the active chain, `SendMessages` finds what it
asserts, whatever the peer has; and the headers it sends are a part of the active chain, the first
of which has no parent or one that the peer has. -/
theorem sendAnnouncements_connects (addr : Uint256 → ℕ) (hashGenesisBlock : Uint256)
    (t : BlockTree) (vBlockHashesToAnnounce : List Uint256) (state : HeaderState)
    (h : AnnounceReached addr hashGenesisBlock NoReturn t vBlockHashesToAnnounce) :
    ∃ message state', t.sendAnnouncements state vBlockHashesToAnnounce = .ok (message,state') ∧
      ∀ vHeaders, message = .headers vHeaders → vHeaders <:+: t.vChain ∧
        ∃ first, vHeaders.head? = some first ∧
          (t.entry first).pprev.all (t.peerHasHeader (t.processBlockAvailability state)) = true :=
  h.waiting.1.send h.waiting.2 state

end

section
local instance announceCrypto : Crypto := nonceCrypto

/-- The tree and the queue after a call, where there are any. -/
def announceAfter (s : BlockTree × List Uint256) (call : ChainCall) : BlockTree × List Uint256 :=
  (announceStep (fun _ => 0) 1 s.1 s.2 call).getD s

theorem AnnounceReached.after {P : BlockTree → List Uint256 → BlockTree → Prop}
    (s : BlockTree × List Uint256) (h : AnnounceReached (fun _ => 0) 1 P s.1 s.2)
    (call : ChainCall) (hwf : call.WellFormed 1 s.1)
    (hP : P s.1 s.2 (announceAfter s call).1)
    (hstep : (BlockTree.announceStep (fun _ => 0) 1 s.1 s.2 call).isSome = true) :
    AnnounceReached (fun _ => 0) 1 P (announceAfter s call).1 (announceAfter s call).2 := by
  obtain ⟨s',hs'⟩ := Option.isSome_iff_exists.mp hstep
  have hafter : announceAfter s call = s' := by rw [announceAfter,hs']; rfl
  rw [hafter] at hP ⊢
  exact h.call hwf hP hs'

/-- The genesis block is announced. -/
def announcedFirst : BlockTree × List Uint256 :=
  announceAfter (announceAfter ({},[]) (.block (easyBlock 0 1) true true))
    (.activate fun _ _ => true)

/-- After that a second block becomes the tip. -/
def announcedSecond : BlockTree × List Uint256 :=
  announceAfter (announceAfter (announcedFirst.1,[]) (.block (easyBlock 1 2) true true))
    (.activate fun _ _ => true)

theorem announcedSecond_reached {P : BlockTree → List Uint256 → BlockTree → Prop}
    (hP : ∀ t t', P t [] t') :
    AnnounceReached (fun _ => 0) 1 P announcedSecond.1 announcedSecond.2 := by
  have h1 := AnnounceReached.start.after ({},[]) (.block (easyBlock 0 1) true true)
    ⟨by decide,fun _ => by decide,fun _ => rfl⟩ (hP _ _) rfl
  have h2 := h1.after _ (.activate fun _ _ => true) trivial (hP _ _) (by decide)
  have h3 := h2.sent.after (announcedFirst.1,[]) (.block (easyBlock 1 2) true true)
    ⟨by decide,fun _ => by decide,fun _ => rfl⟩ (hP _ _) rfl
  exact h3.after _ (.activate fun _ _ => true) trivial (hP _ _) (by decide)

/-- A peer that has the first block and prefers headers. -/
def headerPeer : HeaderState := { pindexBestKnownBlock := some 1, fPreferHeaders := true }

/-- It is sent the header of the second block. -/
theorem sendAnnouncements_second : ∃ t hashes state',
    AnnounceReached (fun _ => 0) 1 NoReturn t hashes ∧
    t.sendAnnouncements headerPeer hashes = .ok (.headers [2],state') ∧ [2] <:+: t.vChain ∧
      (t.entry 2).pprev.all (t.peerHasHeader (t.processBlockAvailability headerPeer)) = true := by
  have hreached := announcedSecond_reached (P := NoReturn) fun _ _ _ hx => nomatch hx
  obtain ⟨message,state',hsend,hheaders⟩ :=
    sendAnnouncements_connects (fun _ => 0) 1 _ _ headerPeer hreached
  have hvalue : (announcedSecond.1.sendAnnouncements headerPeer announcedSecond.2).toOption.map
      Prod.fst = some (.headers [2]) := by decide
  rw [hsend] at hvalue
  cases hvalue
  obtain ⟨hpart,first,hfirst,hparent⟩ := hheaders [2] rfl
  cases hfirst
  exact ⟨_,_,state',hreached,hsend,hpart,hparent⟩

/-- The second block is marked, forgiven, and becomes the tip once more. -/
def announcedTwice : BlockTree × List Uint256 :=
  announceAfter (announceAfter (announceAfter announcedSecond (.invalidate 2)) (.reconsider 2))
    (.activate fun _ _ => true)

/-- It is in the queue twice, and the assertion fails. -/
theorem sendAnnouncements_twice :
    ∃ t hashes, AnnounceReached (fun _ => 0) 1 (fun _ _ _ => True) t hashes ∧ hashes = [2,2] ∧
      t.sendAnnouncements headerPeer hashes =
        .error (.assertion "pBestIndex == NULL || pindex->pprev == pBestIndex") := by
  have h1 := (announcedSecond_reached (P := fun _ _ _ => True) fun _ _ => trivial).after _
    (.invalidate 2) (by change _ ∈ _; decide) trivial (by decide)
  have h2 := h1.after _ (.reconsider 2) (by change _ ∈ _; decide) trivial
    (by decide)
  have h3 := h2.after _ (.activate fun _ _ => true) trivial trivial (by decide)
  exact ⟨announcedTwice.1,announcedTwice.2,h3,by decide,by decide⟩

end

end BlockTree
end Sidechain
