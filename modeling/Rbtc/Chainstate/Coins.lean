import Rbtc.Bitcoin.Primitives
import Rbtc.Foundation.NetChange
import Rbtc.Foundation.Words

/-! Coins, their keys, the records and errors the execution stores exchange, and the abstract chainstate
every store stands for. -/

namespace Rbtc.Chainstate

open Foundation Bitcoin

@[ext] structure Utxo where
  valueSats : Nat
  height : Nat
  isCoinbase : Bool
  lastTouched : Nat
  creationMtp : Nat
  scriptPubkey : List UInt8
  deriving DecidableEq, Repr

abbrev CoinEntry := OutPointKey × Utxo

abbrev CoinTable := Table OutPointKey Utxo

/-- What a store answers for each key. -/
abbrev CoinMap := OutPointKey → Option Utxo

/-- A coin without the time it was last touched, which only places it in a tier. -/
def Utxo.untouched (coin : Utxo) : Utxo := { coin with lastTouched := 0 }

def SameCoins (left right : CoinMap) : Prop :=
  ∀ key, (left key).map Utxo.untouched = (right key).map Utxo.untouched

theorem SameCoins.eq_none {left right : CoinMap} (same : SameCoins left right)
    (key : OutPointKey) : left key = none ↔ right key = none := by
  have equal := same key
  cases foundLeft : left key <;> cases foundRight : right key <;> simp_all

/-- Logical undo data of one atomic mutation: the records it removed and the keys it inserted. -/
@[ext] structure UtxoUndo where
  spent : List CoinEntry
  created : List OutPointKey
  deriving DecidableEq, Repr

@[ext] structure ExecutionTip where
  height : Nat
  hash : BlockHash
  deriving DecidableEq, Repr

@[ext] structure ConnectTransition where
  expectedParent : BlockHash
  next : ExecutionTip
  spent : List OutPointKey
  created : List CoinEntry
  transactionUndos : List UtxoUndo
  deriving DecidableEq, Repr

/-- The blocks of a batch, oldest first. -/
abbrev Transitions := List ConnectTransition

inductive UtxoError where
  | malformed (text : String)
  | duplicate (key : OutPointKey)
  | missing (key : OutPointKey)
  | duplicateSpend (key : OutPointKey)
  deriving DecidableEq, Repr

inductive ExecutionStoreError where
  | nonSequential (currentHeight : Nat) (currentHash : BlockHash)
  | validationTargetExceeded (targetHeight nextHeight : Nat)
  | validationTargetMismatch (stored requested : ExecutionTip)
  | malformed (text : String)
  | snapshotRequiresFreshChainstate
  | assumedSnapshotChanged
  | validationTargetExtensionUnbound
  | validationTargetExtensionIncomplete (target tip : ExecutionTip)
  | validationTargetExtensionNotForward (storedHeight requestedHeight : Nat)
  | validationTargetBehindTip (targetHeight tipHeight : Nat)
  | validationTargetOnAssumedChainstate
  deriving DecidableEq, Repr

inductive UndoStoreError where
  | duplicate (block : BlockHash)
  | malformed (text : String)
  | pendingExists
  | wrongPending (block : BlockHash)
  deriving DecidableEq, Repr

inductive ChainStoreError where
  | utxo (error : UtxoError)
  | undo (error : UndoStoreError)
  | execution (error : ExecutionStoreError)
  deriving DecidableEq, Repr

namespace ExecutionTip

def Precedes (tip : ExecutionTip) (transition : ConnectTransition) : Prop :=
  transition.expectedParent = tip.hash ∧ checkedAdd 32 tip.height 1 = some transition.next.height

instance (tip : ExecutionTip) (transition : ConnectTransition) :
    Decidable (tip.Precedes transition) :=
  inferInstanceAs (Decidable (_ ∧ _))

def after (tip : ExecutionTip) (transitions : Transitions) : ExecutionTip :=
  transitions.foldl (fun _ transition => transition.next) tip

def Contiguous : ExecutionTip → Transitions → Prop
  | _, [] => True
  | tip, transition :: rest => tip.Precedes transition ∧ Contiguous transition.next rest

theorem contiguous_append {tip : ExecutionTip} {front back : Transitions} :
    tip.Contiguous (front ++ back) ↔ tip.Contiguous front ∧ (tip.after front).Contiguous back := by
  induction front generalizing tip with
  | nil => simp [Contiguous, after]
  | cons _ _ ih =>
    simp only [List.cons_append, Contiguous, ih, and_assoc]
    exact Iff.rfl

theorem contiguous_withoutCreated {tip : ExecutionTip} {transitions : Transitions} :
    tip.Contiguous (transitions.map ({ · with created := [] })) ↔ tip.Contiguous transitions := by
  induction transitions generalizing tip with
  | nil => rfl
  | cons _ _ ih => exact and_congr Iff.rfl ih

end ExecutionTip

def ConnectTransition.change (transition : ConnectTransition) : NetChange OutPointKey Utxo :=
  ⟨transition.spent.toFinset, Table.ofList transition.created⟩

@[ext] structure Ledger where
  tip : ExecutionTip
  coins : CoinMap

namespace Ledger

/-- The transition extends the tip, spends unspent coins once each, and creates absent ones once each. -/
structure Accepts (ledger : Ledger) (transition : ConnectTransition) : Prop where
  precedes : ledger.tip.Precedes transition
  spent_nodup : transition.spent.Nodup
  created_nodup : (transition.created.map Prod.fst).Nodup
  fits : transition.change.Fits ledger.coins

def connect (ledger : Ledger) (transition : ConnectTransition) : Ledger :=
  { tip := transition.next
    coins := transition.change.onto ledger.coins }

def connectAll (ledger : Ledger) (transitions : Transitions) : Ledger :=
  transitions.foldl connect ledger

def AcceptsAll : Ledger → Transitions → Prop
  | _, [] => True
  | ledger, transition :: rest => ledger.Accepts transition ∧ AcceptsAll (ledger.connect transition) rest

theorem AcceptsAll.contiguous {ledger : Ledger} {transitions : Transitions}
    (accepts : ledger.AcceptsAll transitions) : ledger.tip.Contiguous transitions := by
  induction transitions generalizing ledger with
  | nil => trivial
  | cons _ _ ih => exact ⟨accepts.1.precedes, ih accepts.2⟩

end Ledger

end Rbtc.Chainstate
