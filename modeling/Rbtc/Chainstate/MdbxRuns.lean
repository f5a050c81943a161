import Rbtc.Chainstate.RedbChainStore
import Rbtc.Chainstate.MdbxPaging

/-! Commits that follow the chain act as in the plain store and keep the interned times right: the time
registered last for a height is that of the chain's block there. -/

namespace Rbtc.Chainstate

open Foundation Bitcoin List

variable {mtpOf : BlockTimes} {start : ExecutionTip} {chain : Transitions} {store : MdbxStore} {plain : PlainStore}

section
open MdbxStore Option UtxoUndo

variable {key : OutPointKey}

/-- The tip of a chain of blocks, newest first, over a trusted start. -/
def chainTip (start : ExecutionTip) : Transitions → ExecutionTip
  | [] => start
  | block :: _ => block.next

def Stacked (start : ExecutionTip) : Transitions → Prop
  | [] => True
  | block :: rest => (chainTip start rest).Precedes block ∧ Stacked start rest

def chainTime (mtpOf : BlockTimes) : Transitions → Nat → Nat
  | [], _ => 0
  | block :: rest, height => if height = block.next.height then mtpOf block.next.hash else chainTime mtpOf rest height

def chainUndo : Transitions → BlockHash → Option (List UtxoUndo)
  | [], _ => none
  | block :: rest, hash =>
    if hash = block.next.hash then some (block.transactionUndos.map untouched) else chainUndo rest hash

def Recorded (mtpOf : BlockTimes) : Transitions → Prop
  | [] => True
  | block :: rest => chainUndo rest block.next.hash = none ∧
      (∀ undo ∈ block.transactionUndos, ∀ entry ∈ undo.spent, CreatedIn mtpOf (block :: rest) entry.1 entry.2) ∧
      Recorded mtpOf rest

section
variable {coin : Utxo} {block newest : ConnectTransition}

theorem ConnectTransition.CreatedCoin.untouched
    (created : block.CreatedCoin mtpOf key coin) : block.CreatedCoin mtpOf key coin.untouched :=
  ⟨created.height_eq, created.mtp_eq, created.listed⟩

theorem CreatedIn.untouched (created : CreatedIn mtpOf chain key coin) : CreatedIn mtpOf chain key coin.untouched :=
  created.imp fun _ holds => ⟨holds.1, holds.2.untouched⟩

theorem CreatedIn.mono {longer : Transitions}
    (created : CreatedIn mtpOf chain key coin) (sub : chain ⊆ longer) : CreatedIn mtpOf longer key coin :=
  created.imp fun _ holds => ⟨sub holds.1, holds.2⟩

theorem ExecutionTip.Precedes.height_eq {tip : ExecutionTip}
    (precedes : tip.Precedes block) : tip.height + 1 = block.next.height :=
  (checkedAdd_eq_some.mp precedes.2).2

theorem Stacked.height_le (stacked : Stacked start chain) :
    ∀ block ∈ chain, block.next.height ≤ (chainTip start chain).height := by
  induction chain with
  | nil => simp
  | cons newest _ ih =>
    refine forall_mem_cons.mpr ⟨Nat.le_refl _, fun block member => ?_⟩
    have below := ih stacked.2 block member
    have step := stacked.1.height_eq
    change block.next.height ≤ newest.next.height
    omega

theorem Stacked.height_lt (stacked : Stacked start (newest :: chain)) :
    ∀ block ∈ chain, block.next.height < newest.next.height := by
  intro block member
  have below := stacked.2.height_le block member
  have step := stacked.1.height_eq
  omega

theorem Stacked.time_eq (stacked : Stacked start chain)
    (created : CreatedIn mtpOf chain key coin) : coin.creationMtp = chainTime mtpOf chain coin.height := by
  induction chain with
  | nil =>
    obtain ⟨_, member, _⟩ := created
    cases member
  | cons newest _ ih =>
    obtain ⟨creator, member, isCreator⟩ := created
    rw [chainTime]
    rcases mem_cons.mp member with rfl | older
    · rw [if_pos isCreator.height_eq, isCreator.mtp_eq]
    have lower := stacked.height_lt creator older
    have apart : coin.height ≠ newest.next.height := by
      rw [isCreator.height_eq]
      exact Nat.ne_of_lt lower
    rw [if_neg apart]
    exact ih stacked.2 ⟨creator, older, isCreator⟩

theorem Stacked.created_of_lt
    (created : CreatedIn mtpOf (newest :: chain) key coin) (lower : coin.height < newest.next.height) :
    CreatedIn mtpOf chain key coin := by
  obtain ⟨creator, member, isCreator⟩ := created
  rcases mem_cons.mp member with rfl | older
  · exact absurd isCreator.height_eq (Nat.ne_of_lt lower)
  · exact ⟨creator, older, isCreator⟩

theorem Stacked.extend (stacked : Stacked start chain) {blocks : Transitions}
    (contiguous : (chainTip start chain).Contiguous blocks) : Stacked start (blocks.reverse ++ chain) ∧
      chainTip start (blocks.reverse ++ chain) = (chainTip start chain).after blocks := by
  induction blocks generalizing chain with
  | nil => exact ⟨stacked, rfl⟩
  | cons block _ ih =>
    rw [reverse_cons, append_assoc]
    exact @ih (block :: chain) ⟨contiguous.1, stacked⟩ contiguous.2

theorem mem_of_chainUndo {hash : BlockHash} {undos : List UtxoUndo} (found : chainUndo chain hash = some undos) :
    ∃ block ∈ chain, undos = block.transactionUndos.map untouched := by
  induction chain with
  | nil => cases found
  | cons newest _ ih =>
    rw [chainUndo] at found
    split at found
    · exact ⟨newest, mem_cons_self, (some.inj found).symm⟩
    · obtain ⟨block, member, isUndo⟩ := ih found
      exact ⟨block, .tail _ member, isUndo⟩

theorem Recorded.spent (recorded : Recorded mtpOf chain) :
    ∀ block ∈ chain, ∀ undo ∈ block.transactionUndos, ∀ entry ∈ undo.spent, CreatedIn mtpOf chain entry.1 entry.2 := by
  induction chain with
  | nil => simp
  | cons _ _ ih =>
    refine forall_mem_cons.mpr ⟨recorded.2.1, fun block member undo isUndo entry isEntry => ?_⟩
    exact (ih recorded.2.2 block member undo isUndo entry isEntry).mono (subset_cons_self _ _)

end

def MdbxStore.Interned (store : MdbxStore) (coin : Utxo) : Prop :=
  store.creationMtps.lookup coin.height = some coin.creationMtp

/-- The store encodes the plain one, which holds the tip, undos and coins of the chain. -/
structure Sound (mtpOf : BlockTimes) (start : ExecutionTip) (chain : Transitions)
    (store : MdbxStore) (plain : PlainStore) : Prop where
  mirrors : Mirrors store plain
  disjoint : plain.tiers.Disjoint
  stacked : Stacked start chain
  recorded : Recorded mtpOf chain
  tip : plain.tip = some (chainTip start chain)
  undo : ∀ hash, plain.undo.lookup hash = chainUndo chain hash
  coins : ∀ key coin, plain.tiers.lookup key = some coin →
    coin.untouched = coin ∧ CreatedIn mtpOf chain key coin ∧ store.Interned coin
  undoCoins : ∀ block ∈ chain, ∀ undo ∈ block.transactionUndos, ∀ entry ∈ undo.spent, store.Interned entry.2

theorem MdbxStore.Interned.decodeCoin_eq {coin : Utxo} (interned : store.Interned coin) :
    store.decodeCoin coin.compact = .ok coin.untouched := by
  have found : store.creationMtps.lookup coin.compact.height = some coin.creationMtp := interned
  rw [decodeCoin, readCreationMtp, found]
  rfl

theorem decodeUndo_compact {undo : UtxoUndo} (interned : ∀ entry ∈ undo.spent, store.Interned entry.2) :
    store.decodeUndo undo.compact = .ok undo.untouched := by
  have decoded : ∀ entry ∈ undo.spent, (store.decodeCoin entry.2.compact >>= fun coin => pure (entry.1, coin)) =
        .ok (entry.1, entry.2.untouched) := by
    intro entry member
    rw [(interned entry member).decodeCoin_eq]
    rfl
  exact congrArg (· >>= fun spent => Except.ok (UtxoUndo.mk spent undo.created)) (mapM_map_of_ok decoded)

variable {coin : Utxo}

section
variable (sound : Sound mtpOf start chain store plain)
include sound

theorem Sound.decodeCoin_lookup {coin : Utxo}
    (found : plain.tiers.lookup key = some coin) : store.decodeCoin coin.compact = .ok coin := by
  obtain ⟨untouched, -, interned⟩ := sound.coins key coin found
  rw [interned.decodeCoin_eq, untouched]

theorem Sound.get_eq (key : OutPointKey) : store.get key = .ok (plain.tiers.lookup key) := by
  rw [MdbxStore.get, sound.mirrors.tiers.lookup_eq]
  cases found : plain.tiers.lookup key with
  | none => rfl
  | some coin =>
    change (store.decodeCoin coin.compact >>= fun utxo => .ok (some utxo)) = _
    rw [sound.decodeCoin_lookup found]
    rfl

theorem Sound.readCoin_eq : store.readCoin = plain.readCoin := by
  funext key
  rw [readCoin, PlainStore.readCoin, sound.mirrors.tiers.lookup_eq]
  cases found : plain.tiers.lookup key with
  | none => rfl
  | some coin =>
    change store.decodeCoin coin.compact = _
    rw [sound.decodeCoin_lookup found]
    rfl

theorem Sound.blockUndo_eq (hash : BlockHash) : store.blockUndo hash = .ok (plain.undo.lookup hash) := by
  rw [blockUndo, sound.mirrors.undo]
  cases found : plain.undo.lookup hash with
  | none => rfl
  | some _ =>
    rw [sound.undo] at found
    obtain ⟨block, member, rfl⟩ := mem_of_chainUndo found
    have decoded : ((block.transactionUndos.map untouched).map compact).mapM
        store.decodeUndo = .ok (block.transactionUndos.map untouched) := by
      rw [List.map_map]
      refine mapM_map_of_ok fun undo isUndo => ?_
      rw [Function.comp_apply, undo.compact_untouched]
      exact decodeUndo_compact (sound.undoCoins block member undo isUndo)
    exact congrArg (· >>= fun decoded => Except.ok (some decoded)) decoded

theorem Sound.getNext_eq {answered : List (OutPointKey × Option Utxo) × Table Nat Nat}
    (cached : ∀ height mtp, answered.2.lookup height = some mtp → store.creationMtps.lookup height = some mtp)
    (outpoint : OutPointKey) : ∃ cache : Table Nat Nat, store.getNext answered outpoint =
        .ok (answered.1 ++ [(outpoint, plain.tiers.lookup outpoint)], cache) ∧
      ∀ height mtp, cache.lookup height = some mtp → store.creationMtps.lookup height = some mtp := by
  rw [getNext, sound.mirrors.tiers.lookup_eq]
  cases found : plain.tiers.lookup outpoint with
  | none => exact ⟨answered.2, rfl, cached⟩
  | some coin =>
    obtain ⟨untouched, -, interned⟩ := sound.coins outpoint coin found
    have registered : store.creationMtps.lookup coin.compact.height = some coin.creationMtp := interned
    have decoded : coin.compact.utxo coin.creationMtp = coin := untouched
    simp only [map_some, decodeCoinCached]
    cases inCache : answered.2.lookup coin.compact.height with
    | none =>
      refine ⟨answered.2.insert coin.compact.height coin.creationMtp, ?_, fun height mtp hit => ?_⟩
      · simp [readCreationMtp, registered, decoded, pure, Except.pure]
      rw [Table.lookup_insert] at hit
      split at hit
      · next same => rw [same, registered, hit]
      · exact cached height mtp hit
    | some mtp =>
      have same : mtp = coin.creationMtp := mem_unique (cached _ _ inCache) registered
      refine ⟨answered.2, ?_, cached⟩
      simp [same, decoded]

theorem Sound.foldOutcome_getNext (outpoints : List OutPointKey)
    {answered : List (OutPointKey × Option Utxo) × Table Nat Nat}
    (cached : ∀ height mtp, answered.2.lookup height = some mtp → store.creationMtps.lookup height = some mtp) :
    ∃ cache : Table Nat Nat, foldOutcome store.getNext answered outpoints =
      .ok (answered.1 ++ outpoints.map fun key => (key, plain.tiers.lookup key), cache) := by
  induction outpoints generalizing answered with
  | nil => exact ⟨answered.2, by simp⟩
  | cons key _ ih =>
    obtain ⟨cache, stepped, stillCached⟩ := sound.getNext_eq cached key
    obtain ⟨final, remaining⟩ := @ih (answered.1 ++ [(key, plain.tiers.lookup key)], cache) stillCached
    refine ⟨final, ?_⟩
    rw [foldOutcome_cons, stepped, ok_bind, remaining, append_assoc]
    rfl

theorem Sound.getMany_eq (outpoints : List OutPointKey) :
    store.getMany outpoints = .ok (outpoints.map fun key => (key, plain.tiers.lookup key)) := by
  obtain ⟨_, finished⟩ := @Sound.foldOutcome_getNext _ _ _ _ _ sound outpoints ([], ∅) (by simp)
  rw [getMany, finished]
  rfl

theorem Sound.legible : store.Legible where
  apart key inHot := by
    rw [sound.mirrors.tiers.hot, Ne, map_eq_none_iff] at inHot
    rw [sound.mirrors.tiers.cold, sound.disjoint key inHot, map_none]
  hotInterned key row found := by
    rw [sound.mirrors.tiers.hot] at found
    obtain ⟨coin, isCoin, rfl⟩ := map_eq_some_iff.mp found
    have visible : plain.tiers.lookup key = some coin := by rw [CoinTiers.lookup, isCoin, some_or]
    exact ne_of_eq_of_ne (sound.coins key coin visible).2.2 (some_ne_none _)
  coldInterned key row found := by
    rw [sound.mirrors.tiers.cold] at found
    obtain ⟨coin, isCoin, rfl⟩ := map_eq_some_iff.mp found
    have notHot : plain.tiers.hot.lookup key = none := by
      by_contra present
      rw [sound.disjoint key present] at isCoin
      cases isCoin
    have visible : plain.tiers.lookup key = some coin := by rw [CoinTiers.lookup, notHot, isCoin, none_or]
    exact ne_of_eq_of_ne (sound.coins key coin visible).2.2 (some_ne_none _)

theorem Sound.get_eq_some : store.get key = .ok (some coin) ↔ plain.tiers.lookup key = some coin := by
  rw [sound.get_eq, Except.ok.injEq]

theorem Sound.snapshotEntries_eq :
    ∃ entries, store.snapshotEntries = .ok entries ∧ ∀ key, entries.lookup key = plain.tiers.lookup key := by
  obtain ⟨entries, scanned, reads⟩ := sound.legible.snapshotEntries_eq
  exact ⟨entries, scanned, fun key => Option.ext fun coin => (reads (key, coin)).trans sound.get_eq_some⟩

theorem Sound.snapshotPage_eq (cursor : MdbxStore.RowCursor)
    (after : Option OutPointKey) (limit : Nat) : ∃ page, store.snapshotPage cursor after limit = .ok page ∧
      ∀ entry ∈ page, plain.tiers.lookup entry.1 = some entry.2 :=
  ⟨_, sound.legible.snapshotPage_eq cursor after limit, fun _ member =>
    sound.get_eq_some.mp (sound.legible.get_of_mem_page (sound.legible.snapshotPage_eq cursor after limit) member)⟩

theorem Sound.readsAs : ReadsAs mtpOf chain store plain where
  get := sound.get_eq
  getMany := sound.getMany_eq
  snapshotEntries := sound.snapshotEntries_eq
  snapshotPage := sound.snapshotPage_eq
  blockUndo := sound.blockUndo_eq
  coins key coin found := (sound.coins key coin found).2.1
  undoCoins hash undos found undo isUndo entry isEntry := by
    rw [sound.undo] at found
    obtain ⟨block, member, rfl⟩ := mem_of_chainUndo found
    obtain ⟨original, isOriginal, rfl⟩ := mem_map.mp isUndo
    obtain ⟨source, isSource, rfl⟩ := mem_map.mp isEntry
    exact (sound.recorded.spent block member original isOriginal source isSource).untouched

end

end

section
open PlainStore Chainstate Table Lockstep

theorem Stacked.lookup_registerAll (stacked : Stacked start chain) {mtps : Table Nat Nat} {coins : List Utxo}
    (registered : ∀ coin ∈ coins, ∃ key, CreatedIn mtpOf chain key coin) {key : OutPointKey} {coin : Utxo}
    (created : CreatedIn mtpOf chain key coin)
    (known : mtps.lookup coin.height = some coin.creationMtp ∨ coin ∈ coins) :
    (registerAll mtps coins).lookup coin.height = some coin.creationMtp := by
  refine Chainstate.lookup_registerAll (fun other member => ?_) (stacked.time_eq created) known
  obtain ⟨_, isCreated⟩ := registered other member
  exact stacked.time_eq isCreated

variable {blocks : Transitions}

def undoneCoins (blocks : Transitions) : List Utxo :=
  blocks.flatMap fun block => block.transactionUndos.flatMap fun undo => undo.spent.map Prod.snd

theorem mem_undoneCoins {coin : Utxo} : coin ∈ undoneCoins blocks ↔
      ∃ block ∈ blocks, ∃ undo ∈ block.transactionUndos, ∃ entry ∈ undo.spent, entry.2 = coin := by
  simp [undoneCoins]

structure BlocksRecorded (mtpOf : BlockTimes) (chain blocks : Transitions) (store : MdbxStore)
    (plain : PlainStore) (left : MdbxStore) (right : PlainStore) : Prop where
  mirrors : Mirrors left right
  tiers_eq : right.tiers = plain.tiers
  mtps : left.creationMtps = registerAll store.creationMtps (undoneCoins blocks)
  undo : ∀ hash, right.undo.lookup hash = chainUndo (blocks.reverse ++ chain) hash
  recorded : Recorded mtpOf (blocks.reverse ++ chain)

theorem recordBlocks_lockstep (mirrors : Mirrors store plain)
    (undo : ∀ hash, plain.undo.lookup hash = chainUndo chain hash) (recorded : Recorded mtpOf chain)
    (consistent : ConsistentBatch mtpOf chain blocks) :
    Lockstep (BlocksRecorded mtpOf chain blocks store plain) (foldOutcome MdbxStore.recordBlock store blocks)
      (foldOutcome recordBlock plain blocks) := by
  induction blocks generalizing chain store plain with
  | nil => exact .ok ⟨mirrors, rfl, rfl, undo, recorded⟩
  | cons block rest ih =>
    rw [foldOutcome_cons, foldOutcome_cons, MdbxStore.recordBlock, recordBlock, bind_assoc, bind_assoc]
    have sameGuard : store.undo.lookup block.next.hash = none ↔ plain.undo.lookup block.next.hash = none := by
      rw [mirrors.undo, Option.map_eq_none_iff]
    refine ensure sameGuard fun unrecorded => ?_
    have written := @ih (block :: chain)
      { store with
        undo := store.undo.insert block.next.hash (block.transactionUndos.map UtxoUndo.compact)
        creationMtps := MdbxStore.registerUndoCreationMtps store.creationMtps block.transactionUndos }
      { plain with
        undo := plain.undo.insert block.next.hash (block.transactionUndos.map UtxoUndo.untouched) }
      ⟨mirrors.tiers, fun hash => by
        rw [lookup_insert, lookup_insert, mirrors.undo]
        split
        · rw [Option.map_some, map_map]
          exact congrArg some (map_congr_left fun undo _ => undo.compact_untouched.symm)
        · rfl, mirrors.tip⟩
      (fun hash => by rw [lookup_insert, undo, chainUndo])
      ⟨(undo _).symm.trans unrecorded, consistent.1.spent, recorded⟩ consistent.2
    refine written.mono fun left right done => ?_
    have reversed : (block :: rest).reverse ++ chain = rest.reverse ++ block :: chain := by simp
    refine ⟨done.mirrors, done.tiers_eq, ?_, reversed ▸ done.undo, reversed ▸ done.recorded⟩
    rw [done.mtps, registerUndoCreationMtps_eq, ← registerAll_append]
    rfl

theorem ConsistentBatch.created (consistent : ConsistentBatch mtpOf chain blocks) :
    ∀ block ∈ blocks, ∀ entry ∈ block.created, block.CreatedCoin mtpOf entry.1 entry.2 := by
  induction blocks generalizing chain with
  | nil => simp
  | cons _ _ ih => exact forall_mem_cons.mpr ⟨consistent.1.created, ih consistent.2⟩

section
variable (sound : Sound mtpOf start chain store plain)
include sound

theorem Sound.extended (contiguous : (chainTip start chain).Contiguous blocks) {spent : List OutPointKey}
    {created : List CoinEntry}
    (own : ∀ entry ∈ created, ∃ block ∈ blocks, block.CreatedCoin mtpOf entry.1 entry.2)
    {applied left : MdbxStore} {plainApplied right : PlainStore}
    (isApplied : Applied store plain spent created applied plainApplied)
    (isRecorded : BlocksRecorded mtpOf chain blocks applied plainApplied left right) :
    Sound mtpOf start (blocks.reverse ++ chain)
      { left with tip := some ((chainTip start chain).after blocks) }
      { right with tip := some ((chainTip start chain).after blocks) } := by
  obtain ⟨stacked, tipEq⟩ := sound.stacked.extend contiguous
  have mtps : left.creationMtps = registerAll store.creationMtps (created.map Prod.snd ++ undoneCoins blocks) := by
    rw [isRecorded.mtps, isApplied.mtps, registerAll_append]
  have ownCreated : ∀ entry ∈ created, CreatedIn mtpOf (blocks.reverse ++ chain) entry.1 entry.2 := by
    intro entry member
    obtain ⟨block, isBlock, isCreated⟩ := own entry member
    exact ⟨block, mem_append_left _ (mem_reverse.mpr isBlock), isCreated⟩
  have registered : ∀ coin ∈ created.map Prod.snd ++ undoneCoins blocks,
      ∃ key, CreatedIn mtpOf (blocks.reverse ++ chain) key coin := by
    intro coin member
    rcases mem_append.mp member with isCreated | isUndone
    · obtain ⟨entry, isEntry, rfl⟩ := mem_map.mp isCreated
      exact ⟨entry.1, ownCreated entry isEntry⟩
    · obtain ⟨block, isBlock, undo, isUndo, entry, isEntry, rfl⟩ := mem_undoneCoins.mp isUndone
      exact ⟨entry.1, isRecorded.recorded.spent block (mem_append_left _ (mem_reverse.mpr isBlock))
        undo isUndo entry isEntry⟩
  refine ⟨⟨isRecorded.mirrors.tiers, isRecorded.mirrors.undo, rfl⟩, ?_, stacked, isRecorded.recorded,
    congrArg some tipEq.symm, isRecorded.undo, fun key coin found => ?_,
    fun block member undo isUndo entry isEntry => ?_⟩
  · rw [isRecorded.tiers_eq]
    exact isApplied.disjoint
  · rw [isRecorded.tiers_eq] at found
    rw [mtps]
    rcases isApplied.source key coin found with ⟨entry, isEntry, rfl, rfl⟩ | ⟨_, before⟩
    · have isCreated := ownCreated entry isEntry
      have listed : entry.2 ∈ created.map Prod.snd ++ undoneCoins blocks :=
        mem_append_left _ (mem_map_of_mem isEntry)
      have interned := @Stacked.lookup_registerAll _ _ _ stacked store.creationMtps _ registered _ _ isCreated
        (.inr listed)
      exact ⟨rfl, isCreated.untouched, interned⟩
    · obtain ⟨untouched, isCreated, interned⟩ := sound.coins key coin before
      have stillCreated := isCreated.mono (subset_append_right blocks.reverse chain)
      exact ⟨untouched, stillCreated, stacked.lookup_registerAll registered stillCreated (.inl interned)⟩
  · have isCreated := isRecorded.recorded.spent block member undo isUndo entry isEntry
    rw [mtps]
    refine stacked.lookup_registerAll registered isCreated ?_
    rcases mem_append.mp member with isNew | isOld
    · exact .inr (mem_append_right _ (mem_undoneCoins.mpr
        ⟨block, mem_reverse.mp isNew, undo, isUndo, entry, isEntry, rfl⟩))
    · exact .inl (sound.undoCoins block isOld undo isUndo entry isEntry)

theorem Sound.connectBlocks {blocks : Transitions}
    (contiguous : (chainTip start chain).Contiguous blocks) (consistent : ConsistentBatch mtpOf chain blocks)
    {created : List CoinEntry}
    (own : ∀ entry ∈ created, ∃ block ∈ blocks, block.CreatedCoin mtpOf entry.1 entry.2) (recordUndo : Bool)
    (spent : List OutPointKey) (tipHeight : Nat) :
    Lockstep (fun left right => left.2 = right.2 ∧ Sound mtpOf start (blocks.reverse ++ chain) left.1 right.1) (do
        let (applied, aggregate) ← store.applyNetChanges recordUndo spent created tipHeight
        let recorded ← foldOutcome MdbxStore.recordBlock applied blocks
        return ({ recorded with tip := some ((chainTip start chain).after blocks) }, aggregate)) (do
        let (applied, aggregate) ← plain.applyNetChanges recordUndo spent created tipHeight
        let recorded ← foldOutcome recordBlock applied blocks
        return ({ recorded with tip := some ((chainTip start chain).after blocks) }, aggregate)) := by
  have agree : ∀ entry ∈ created, entry.2.creationMtp = chainTime mtpOf (blocks.reverse ++ chain) entry.2.height := by
    intro entry member
    obtain ⟨block, isBlock, isCreated⟩ := own entry member
    exact (sound.stacked.extend contiguous).1.time_eq
      ⟨block, mem_append_left _ (mem_reverse.mpr isBlock), isCreated⟩
  have applying := applyNetChanges_lockstep sound.mirrors sound.disjoint sound.readCoin_eq agree recordUndo spent
    tipHeight
  refine applying.bind fun left right applied => ?_
  have undoEq : ∀ hash, right.1.undo.lookup hash = chainUndo chain hash := by
    rw [applied.2.undo_eq]
    exact sound.undo
  have recording := recordBlocks_lockstep applied.2.mirrors undoEq sound.recorded consistent
  refine recording.bind fun recordedLeft recordedRight recorded => ?_
  exact .ok ⟨applied.1, sound.extended contiguous own applied.2 recorded⟩

theorem Sound.readTip_eq : MdbxStore.tables.readTip store = .ok (chainTip start chain) ∧
      PlainStore.tables.readTip plain = .ok (chainTip start chain) := by
  simp [CommitTables.readTip, MdbxStore.tables, PlainStore.tables, sound.mirrors.tip, sound.tip]

end

section
variable {tip : ExecutionTip} {block : ConnectTransition}

theorem validateTipAdvance_eq_ok :
    validateTipAdvance tip block.expectedParent block.next = .ok () ↔ tip.Precedes block := by
  simp only [validateTipAdvance, bind_eq_ok, ensure_eq_ok, exists_const]
  exact and_congr_left fun _ => eq_comm

theorem Sound.commitConnect (sound : Sound mtpOf start chain store plain)
    (follows : MdbxCall.Follows mtpOf chain store (.connect block)) :
    Lockstep (fun left right => left.2 = right.2 ∧ Sound mtpOf start (block :: chain) left.1 right.1)
      (MdbxStore.tables.commitConnect store block) (PlainStore.tables.commitConnect plain block) := by
  obtain ⟨tipStore, tipPlain⟩ := sound.readTip_eq
  rw [CommitTables.commitConnect, CommitTables.commitConnect, tipStore, tipPlain, ok_bind]
  refine bind_same fun _ advances => ?_
  have precedes := validateTipAdvance_eq_ok.mp advances
  have consistent := follows _ (sound.mirrors.tip.trans sound.tip) precedes
  have connected := @Sound.connectBlocks _ _ _ _ _ sound [block] ⟨precedes, trivial⟩ ⟨consistent, trivial⟩
    block.created (fun entry member => ⟨block, mem_singleton_self block, consistent.created entry member⟩)
    true block.spent block.next.height
  simp only [foldOutcome_singleton] at connected
  exact connected

theorem foldOutcome_advanceTo {last : ExecutionTip}
    (advanced : foldOutcome advanceTo tip blocks = .ok last) : tip.Contiguous blocks ∧ last = tip.after blocks := by
  induction blocks generalizing tip with
  | nil =>
    cases advanced
    exact ⟨trivial, rfl⟩
  | cons _ _ ih =>
    simp only [foldOutcome_cons, advanceTo, bind_eq_ok, pure_eq_ok] at advanced
    obtain ⟨_, ⟨_, precedes, rfl⟩, remaining⟩ := advanced
    obtain ⟨contiguous, isLast⟩ := ih remaining
    exact ⟨⟨validateTipAdvance_eq_ok.mp precedes, contiguous⟩, isLast⟩

theorem mem_created_of_folded {change : NetChange OutPointKey Utxo}
    (folded : foldOutcome foldTransition ∅ blocks = .ok change) :
    ∀ entry ∈ sortedEntries change.created, ∃ block ∈ blocks, entry ∈ block.created := by
  intro entry member
  obtain ⟨-, rfl⟩ := foldOutcome_foldTransition.mp folded
  rcases NetChange.mem_of_created_editAll (mem_sortedEntries.mp member) with before | inserted
  · cases before
  obtain ⟨block, isBlock, isEdit⟩ := mem_flatMap.mp inserted
  exact ⟨block, isBlock, Edit.mem_created_of_insert isEdit⟩

theorem Sound.commitConnectBatch (sound : Sound mtpOf start chain store plain)
    (follows : MdbxCall.Follows mtpOf chain store (.connectBatch blocks)) :
    Lockstep (Sound mtpOf start (blocks.reverse ++ chain)) (MdbxStore.tables.commitConnectBatch store blocks)
      (PlainStore.tables.commitConnectBatch plain blocks) := by
  obtain ⟨tipStore, tipPlain⟩ := sound.readTip_eq
  rw [CommitTables.commitConnectBatch, CommitTables.commitConnectBatch]
  split
  · next empty =>
    rw [empty]
    exact .ok sound
  refine ensure Iff.rfl fun _ => bind_same fun change folded => ?_
  rw [tipStore, tipPlain, ok_bind]
  refine bind_same fun last advanced => ?_
  obtain ⟨contiguous, rfl⟩ := foldOutcome_advanceTo advanced
  have consistent := follows _ (sound.mirrors.tip.trans sound.tip) contiguous
  have own : ∀ entry ∈ sortedEntries change.created, ∃ block ∈ blocks, block.CreatedCoin mtpOf entry.1 entry.2 := by
    intro entry member
    obtain ⟨block, isBlock, isCreated⟩ := mem_created_of_folded (mapError_eq_ok.mp folded) entry member
    exact ⟨block, isBlock, consistent.created block isBlock entry isCreated⟩
  have connected := sound.connectBlocks contiguous consistent own false (sortedKeys change.spent)
    ((chainTip start chain).after blocks).height
  have stores : ∀ left right : _ × UtxoUndo,
      left.2 = right.2 ∧ Sound mtpOf start (blocks.reverse ++ chain) left.1 right.1 →
        Lockstep (Sound mtpOf start (blocks.reverse ++ chain)) (pure left.1 : Outcome UtxoError _) (pure right.1) :=
    fun _ _ holds => .ok holds.2
  simpa [MdbxStore.tables, PlainStore.tables] using connected.bind stores

end

theorem Sound.newest_of_recorded (sound : Sound mtpOf start chain store plain)
    (present : plain.undo.lookup (chainTip start chain).hash ≠ none) : ∃ newest older, chain = newest :: older := by
  cases chain with
  | nil => exact absurd (sound.undo _) present
  | cons newest older => exact ⟨newest, older, rfl⟩

section
variable {newest : ConnectTransition} {older : Transitions} {parent : ExecutionTip}
  {spent : List OutPointKey} {created : List CoinEntry}

section
variable (sound : Sound mtpOf start (newest :: older) store plain)
include sound

theorem Sound.newest_undo :
    store.blockUndo newest.next.hash = .ok (some (newest.transactionUndos.map UtxoUndo.untouched)) := by
  rw [sound.blockUndo_eq, sound.undo, chainUndo, if_pos rfl]

variable (reverts : Reverts (newest :: older) store newest.next parent spent created)
include reverts

theorem Sound.restored_older : ∀ entry ∈ created, CreatedIn mtpOf older entry.1 entry.2 := by
  intro entry member
  obtain ⟨_, isUndos, ⟨_, isUndo, isEntry⟩, lower⟩ := reverts.restored entry member
  rw [sound.newest_undo] at isUndos
  cases isUndos
  obtain ⟨original, isOriginal, rfl⟩ := mem_map.mp isUndo
  obtain ⟨source, isSource, rfl⟩ := mem_map.mp isEntry
  exact Stacked.created_of_lt (sound.recorded.2.1 original isOriginal source isSource).untouched lower

theorem Sound.kept_older {key : OutPointKey} {coin : Utxo}
    (found : plain.tiers.lookup key = some coin) (kept : key ∉ spent) : CreatedIn mtpOf older key coin := by
  obtain ⟨-, ⟨creator, member, isCreator⟩, -⟩ := sound.coins key coin found
  rcases mem_cons.mp member with rfl | isOlder
  · obtain ⟨undo, isUndo, listed⟩ := isCreator.listed
    have readable : store.get key = .ok (some coin) := by rw [sound.get_eq, found]
    exact absurd (reverts.removed _ sound.newest_undo undo.untouched (mem_map_of_mem isUndo) key listed coin
      readable isCreator.height_eq) kept
  · exact ⟨creator, isOlder, isCreator⟩

theorem Sound.reverted
    (below : checkedAdd 32 parent.height 1 = some newest.next.height) {left : MdbxStore} {right : PlainStore}
    (applied : Applied store plain spent created left right) : Sound mtpOf start older
      { left with undo := left.undo.erase newest.next.hash, tip := some parent }
      { right with undo := right.undo.erase newest.next.hash, tip := some parent } := by
  have restored := sound.restored_older reverts
  have stacked := sound.stacked.2
  have registered : ∀ coin ∈ created.map Prod.snd, ∃ key, CreatedIn mtpOf older key coin := by
    intro coin member
    obtain ⟨entry, isEntry, rfl⟩ := mem_map.mp member
    exact ⟨entry.1, restored entry isEntry⟩
  have parentEq : parent = chainTip start older := by
    have step := sound.stacked.1.height_eq
    have sameHeight := (checkedAdd_eq_some.mp below).2
    refine ExecutionTip.ext (by omega) ?_
    exact (reverts.parent_eq newest rfl).trans sound.stacked.1.1
  refine ⟨⟨applied.mirrors.tiers, fun hash => ?_, rfl⟩, applied.disjoint, stacked, sound.recorded.2.2,
    congrArg some parentEq, fun hash => ?_, fun key coin found => ?_, fun block member undo isUndo entry isEntry => ?_⟩
  · rw [lookup_erase, lookup_erase, applied.mirrors.undo]
    split <;> rfl
  · rw [lookup_erase, applied.undo_eq, sound.undo, chainUndo]
    split
    · next same => rw [same, sound.recorded.1]
    · rfl
  · rw [applied.mtps]
    rcases applied.source key coin found with ⟨entry, isEntry, rfl, rfl⟩ | ⟨kept, before⟩
    · have interned := @Stacked.lookup_registerAll _ _ _ stacked store.creationMtps _ registered _ _
        (restored entry isEntry) (.inr (mem_map_of_mem isEntry))
      exact ⟨rfl, (restored entry isEntry).untouched, interned⟩
    · have isOlder := sound.kept_older reverts before kept
      obtain ⟨untouched, -, interned⟩ := sound.coins key coin before
      exact ⟨untouched, isOlder, stacked.lookup_registerAll registered isOlder (.inl interned)⟩
  · have isCreated := sound.recorded.2.2.spent block member undo isUndo entry isEntry
    rw [applied.mtps]
    exact stacked.lookup_registerAll registered isCreated
      (.inl (sound.undoCoins block (.tail _ member) undo isUndo entry isEntry))

end

theorem Sound.commitDisconnect (sound : Sound mtpOf start chain store plain) {expectedCurrent : ExecutionTip}
    (follows : MdbxCall.Follows mtpOf chain store (.disconnect expectedCurrent parent spent created)) :
    Lockstep (fun left right => left.2 = right.2 ∧ Sound mtpOf start chain.tail left.1 right.1)
      (MdbxStore.tables.commitDisconnect store expectedCurrent parent spent created)
      (PlainStore.tables.commitDisconnect plain expectedCurrent parent spent created) := by
  refine ensure Iff.rfl fun below => ensure (Eq.congr_left sound.mirrors.tip) fun onTip => ?_
  have reverts := follows (sound.mirrors.tip.trans onTip)
  obtain rfl := Option.some.inj (sound.tip.symm.trans onTip)
  have agree : ∀ entry ∈ created, entry.2.creationMtp = chainTime mtpOf chain entry.2.height := by
    intro entry member
    obtain ⟨_, isUndos, -⟩ := reverts.restored entry member
    have present : plain.undo.lookup (chainTip start chain).hash ≠ none := by
      rw [sound.blockUndo_eq] at isUndos
      simp [Except.ok.inj isUndos]
    obtain ⟨_, _, rfl⟩ := sound.newest_of_recorded present
    exact sound.stacked.time_eq ((sound.restored_older reverts entry member).mono (subset_cons_self _ _))
  refine (applyNetChanges_lockstep sound.mirrors sound.disjoint sound.readCoin_eq agree true spent
    parent.height).bind fun left right applied => ?_
  have sameGuard : left.1.undo.lookup (chainTip start chain).hash ≠ none ↔
      right.1.undo.lookup (chainTip start chain).hash ≠ none := by
    rw [applied.2.mirrors.undo, Ne, Option.map_eq_none_iff]
  simp only [MdbxStore.tables, PlainStore.tables, MdbxStore.removeUndo, removeUndo, bind_assoc]
  refine ensure sameGuard fun present => ?_
  rw [applied.2.undo_eq] at present
  obtain ⟨_, _, rfl⟩ := sound.newest_of_recorded present
  exact .ok ⟨applied.1, sound.reverted reverts below applied.2⟩

end

theorem Sound.perform (sound : Sound mtpOf start chain store plain) {call : MdbxCall}
    (follows : call.Follows mtpOf chain store) :
    Lockstep (fun left right => left.2 = right.2 ∧ Sound mtpOf start (call.extend chain) left.1 right.1)
      (store.perform call) (plain.perform call) := by
  cases call with
  | connect _ =>
    refine (sound.commitConnect follows).bind fun left right done => ?_
    exact .ok ⟨congrArg some done.1, done.2⟩
  | connectBatch _ =>
    refine (sound.commitConnectBatch follows).bind fun left right done => ?_
    exact .ok ⟨rfl, done⟩
  | disconnect _ _ _ _ =>
    refine (sound.commitDisconnect follows).bind fun left right done => ?_
    exact .ok ⟨congrArg some done.1, done.2⟩

theorem Sound.initialized (mtpOf : BlockTimes) (start : ExecutionTip) :
    Sound mtpOf start [] (MdbxStore.initialized start) (initialized start) where
  mirrors := ⟨⟨fun _ => rfl, fun _ => rfl⟩, fun _ => rfl, rfl⟩
  disjoint _ _ := rfl
  stacked := trivial
  recorded := trivial
  tip := rfl
  undo _ := rfl
  coins _ _ found := by cases found
  undoCoins _ member := absurd member not_mem_nil

theorem Sound.performAll {calls : List MdbxCall} {finalChain : Transitions} {finalStore : MdbxStore}
    (along : Along mtpOf chain store calls finalChain finalStore) (sound : Sound mtpOf start chain store plain) :
    performAll MdbxStore.perform store calls = (finalStore, (performAll PlainStore.perform plain calls).2) ∧
      Sound mtpOf start finalChain finalStore (performAll PlainStore.perform plain calls).1 := by
  induction along generalizing plain with
  | nil _ _ => exact ⟨rfl, sound⟩
  | accepted follows performed _ ih =>
    obtain ⟨_, plainPerformed, sameUndo, nextSound⟩ := (sound.perform follows).of_ok performed
    obtain ⟨ran, finalSound⟩ := ih nextSound
    rw [performAll, performAll, performed, plainPerformed]
    dsimp only at sameUndo ⊢
    rw [ran, sameUndo]
    exact ⟨rfl, finalSound⟩
  | refused follows failed _ ih =>
    have plainFailed := (sound.perform follows).of_error failed
    obtain ⟨ran, finalSound⟩ := ih sound
    rw [performAll, performAll, failed, plainFailed]
    rw [ran]
    exact ⟨rfl, finalSound⟩

namespace CompetingBlocks

def blockMtp (hash : BlockHash) : Nat := 100 * hash.value

def output (txid : Nat) : OutPointKey := ⟨⟨txid⟩, 0⟩

def coin (height mtp : Nat) : Utxo :=
  { valueSats := 50, height, isCoinbase := true, lastTouched := 0, creationMtp := mtp, scriptPubkey := [] }

def trusted : ExecutionTip := ⟨0, ⟨0⟩⟩

def losing : ConnectTransition :=
  { expectedParent := ⟨0⟩, next := ⟨1, ⟨1⟩⟩, spent := [], created := [(output 1, coin 1 100)],
    transactionUndos := [⟨[], [output 1]⟩] }

def winning : ConnectTransition :=
  { expectedParent := ⟨0⟩, next := ⟨1, ⟨2⟩⟩, spent := [], created := [(output 2, coin 1 200)],
    transactionUndos := [⟨[], [output 2]⟩] }

def child : ConnectTransition :=
  { expectedParent := ⟨2⟩, next := ⟨2, ⟨3⟩⟩, spent := [output 2], created := [(output 3, coin 2 300)],
    transactionUndos := [⟨[(output 2, coin 1 200)], [output 3]⟩] }

def calls : List MdbxCall :=
  [.connect losing, .disconnect losing.next trusted [output 1] [], .connectBatch [winning, child],
    .disconnect child.next winning.next [output 3] [(output 2, coin 1 200)]]

def lost : MdbxStore :=
  { tiers := ⟨.singleton (output 1) (coin 1 100).compact, ∅⟩
    undo := .singleton ⟨1⟩ [⟨[], [output 1]⟩]
    creationMtps := .singleton 1 100
    tip := some losing.next }

def rewound : MdbxStore := { tiers := ⟨∅, ∅⟩, undo := ∅, creationMtps := .singleton 1 100, tip := some trusted }

def replaced : MdbxStore :=
  { tiers := ⟨.singleton (output 3) (coin 2 300).compact, ∅⟩
    undo := (singleton ⟨2⟩ [⟨[], [output 2]⟩]).insert ⟨3⟩ [⟨[(output 2, (coin 1 200).compact)], [output 3]⟩]
    creationMtps := (singleton 2 300).insert 1 200
    tip := some child.next }

def restored : MdbxStore :=
  { tiers := ⟨.singleton (output 2) (coin 1 200).compact, ∅⟩
    undo := .singleton ⟨2⟩ [⟨[], [output 2]⟩]
    creationMtps := (singleton 2 300).insert 1 200
    tip := some winning.next }

theorem losing_consistent : losing.Consistent blockMtp [] :=
  ⟨forall_mem_singleton.mpr ⟨rfl, rfl, by simp [losing]⟩, by simp [losing]⟩

theorem winning_consistent : winning.Consistent blockMtp [] :=
  ⟨forall_mem_singleton.mpr ⟨rfl, rfl, by simp [winning]⟩, by simp [winning]⟩

theorem child_consistent : child.Consistent blockMtp [winning] := by
  refine ⟨forall_mem_singleton.mpr ⟨rfl, rfl, by simp [child]⟩, ?_⟩
  simp only [child, forall_mem_singleton]
  exact ⟨winning, by simp, rfl, rfl, by simp [winning]⟩

theorem losing_reverted : Reverts [losing] lost losing.next trusted [output 1] [] := by
  refine ⟨by simp [losing, trusted], ?_, by simp⟩
  rintro undos read
  cases read
  simp

theorem child_reverted :
    Reverts [child, winning] replaced child.next winning.next [output 3] [(output 2, coin 1 200)] := by
  refine ⟨by simp [child, winning], ?_, ?_⟩
  · rintro undos read
    cases read
    simp
  · rw [forall_mem_singleton]
    exact ⟨_, rfl, ⟨_, mem_singleton_self _, mem_singleton_self _⟩, by decide⟩

theorem along : Along blockMtp [] (MdbxStore.initialized trusted) calls [winning] restored := by
  have connectLosing : (MdbxStore.initialized trusted).perform (.connect losing) =
      .ok (lost, some ⟨[], [output 1]⟩) := rfl
  have disconnectLosing : lost.perform (.disconnect losing.next trusted [output 1] []) =
      .ok (rewound, some ⟨[(output 1, coin 1 100)], []⟩) := rfl
  have connectBoth : rewound.perform (.connectBatch [winning, child]) = .ok (replaced, none) := rfl
  have disconnectChild : replaced.perform (.disconnect child.next winning.next [output 3] [(output 2, coin 1 200)]) =
        .ok (restored, some ⟨[(output 3, coin 2 300)], [output 2]⟩) := rfl
  refine .accepted (fun _ _ _ => losing_consistent) connectLosing ?_
  refine .accepted (fun _ => losing_reverted) disconnectLosing ?_
  refine .accepted (fun _ _ _ => ⟨winning_consistent, child_consistent, trivial⟩) connectBoth ?_
  exact .accepted (fun _ => child_reverted) disconnectChild (.nil _ restored)

end CompetingBlocks

open CompetingBlocks

/-- Along commits that follow the chain, the interned store answers like the plain one, with the right times. -/
theorem mdbx_keeps_creation_mtps {calls : List MdbxCall}
    (along : Along mtpOf [] (MdbxStore.initialized start) calls chain store) :
    performAll MdbxStore.perform (MdbxStore.initialized start) calls =
        (store, (performAll PlainStore.perform (PlainStore.initialized start) calls).2) ∧
      ReadsAs mtpOf chain store (performAll PlainStore.perform (PlainStore.initialized start) calls).1 := by
  obtain ⟨ran, sound⟩ := Sound.performAll along (Sound.initialized mtpOf start)
  exact ⟨ran, sound.readsAs⟩

/-- A block is replaced by one with another time, whose coin is spent and then restored. -/
theorem mdbx_keeps_creation_mtps_competing : performAll MdbxStore.perform (MdbxStore.initialized trusted) calls =
        (restored, (performAll perform (initialized trusted) calls).2) ∧
      ReadsAs blockMtp [winning] restored (performAll perform (initialized trusted) calls).1 :=
  mdbx_keeps_creation_mtps along

end

end Rbtc.Chainstate
