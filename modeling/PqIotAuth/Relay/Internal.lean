import PqIotAuth.Relay.Hashing

/-!
# The internal functions of `AccountableRelay`

Credits and slashes on the ledger, the registration and release of "valid" attestations, and the two resolutions. Each
function acts on the group of storage variables it touches; a function that returns has not reverted.
-/

namespace PqIotAuth

open Lib

/-! ## Credits and slashes -/

def credit (recipient : Address) (amount : ℕ) (l : Ledger) : Except Error Ledger :=
  if amount > 0 then do
    let pending ← checkedAdd (l.pendingWithdrawals recipient) amount
    return { l with pendingWithdrawals := Function.update l.pendingWithdrawals recipient pending }
  else return l

/-- Deduct `amount` from one pool of `account`, the verifier pool when `fromVerifierPool`, and what is missing from the
other; the result is the amount deducted. -/
def collectFromPool (account : Address) (amount : ℕ) (fromVerifierPool : Bool) (l : Ledger) :
    Except Error (Ledger × ℕ) :=
  if fromVerifierPool then do
    let vStake := l.verifierStake account
    let take := if vStake < amount then vStake else amount
    let left ← checkedSub vStake take
    let l := { l with verifierStake := Function.update l.verifierStake account left }
    -- `unchecked`: `take` is at most `amount`
    let amount := amount - take
    let deducted := take
    if amount > 0 then do
      let rStake := l.relayStake account
      let take := if rStake < amount then rStake else amount
      let left ← checkedSub rStake take
      let deducted ← checkedAdd deducted take
      return ({ l with relayStake := Function.update l.relayStake account left }, deducted)
    else return (l, deducted)
  else do
    let rStake := l.relayStake account
    let take := if rStake < amount then rStake else amount
    let left ← checkedSub rStake take
    let l := { l with relayStake := Function.update l.relayStake account left }
    let amount := amount - take
    let deducted := take
    if amount > 0 then do
      let vStake := l.verifierStake account
      let take := if vStake < amount then vStake else amount
      let left ← checkedSub vStake take
      let deducted ← checkedAdd deducted take
      return ({ l with verifierStake := Function.update l.verifierStake account left }, deducted)
    else return (l, deducted)

def slashFromPool (account : Address) (amount : ℕ) (recipient : Address) (fromVerifierPool : Bool) (l : Ledger) :
    Except Error Ledger := do
  let (l, deducted) ← collectFromPool account amount fromVerifierPool l
  if deducted > 0 then credit recipient deducted l else return l

def payAttesters (attesters : List Address) (total : ℕ) (l : Ledger) : Except Error Ledger :=
  if attesters.length = 0 ∨ total = 0 then return l
  else
    let share := total / attesters.length
    attesters.foldlM (fun l a => credit a share l) l

/-! ## "Valid" attestations -/

def registerValidAtt (key : Bytes32) (v : Address) (x : Exposure) : Except Error Exposure :=
  if ¬ x.targetValidHas key v then do
    let list ← push (x.targetValidList key) v
    let live ← checkedAdd (x.verifierLiveExposures v) 1
    return { x with
      targetValidHas := Function.update x.targetValidHas key (Function.update (x.targetValidHas key) v true)
      targetValidList := Function.update x.targetValidList key list
      verifierLiveExposures := Function.update x.verifierLiveExposures v live }
  else return x

def releaseExposures (key : Bytes32) (x : Exposure) : Except Error Exposure := do
  let live ← (x.targetValidList key).foldlM (fun live v => do
    let n ← checkedSub (live v) 1
    return Function.update live v n) x.verifierLiveExposures
  return { x with
    verifierLiveExposures := live
    targetValidList := Function.update x.targetValidList key [] }

def rememberExposedLeaf (batchIndex leafIndex : ℕ) (x : Exposure) : Except Error Exposure :=
  if leafIndex ∈ x.exposedLeaves batchIndex then return x
  else do
    let leaves ← push (x.exposedLeaves batchIndex) leafIndex
    return { x with exposedLeaves := Function.update x.exposedLeaves batchIndex leaves }

/-! ## Targets -/

def targetRelay (d : Dispute) (c : Court) : Except Error Address :=
  if d.targetType = 0 then do
    let r ← load boundsPanic c.records d.targetIndex
    return r.relay
  else do
    let b ← load boundsPanic c.batches d.targetIndex
    return b.relay

/-- `batchLeafState[batchIndex][leafIndex] = state`. -/
def Court.setLeaf (batchIndex leafIndex : ℕ) (state : LeafState) (c : Court) : Court :=
  let leafStates := Function.update (c.batchLeafState batchIndex) leafIndex state
  { c with batchLeafState := Function.update c.batchLeafState batchIndex leafStates }

def revokeTarget (d : Dispute) (s : Storage) : Except Error Storage :=
  if d.targetType = 0 then do
    let records ← modifyAt boundsPanic s.court.records d.targetIndex fun r => { r with state := .revoked }
    return { s with court := { s.court with records } }
  else if s.court.batchLeafState d.targetIndex d.leafIndex ≠ .revoked then do
    let b ← load boundsPanic s.court.batches d.targetIndex
    let revokedLeafCount ← checkedAdd b.revokedLeafCount 1
    let batches ← store s.court.batches d.targetIndex { b with revokedLeafCount }
    let s := { s with court := { s.court.setLeaf d.targetIndex d.leafIndex .revoked with batches } }
    return s.emit (.leafRevoked d.targetIndex d.leafIndex)
  else return s

/-- What `_resolveSpurious` does to its target. -/
def upholdTarget (d : Dispute) (c : Court) : Except Error Court :=
  if d.targetType = 0 then do
    let records ← modifyAt boundsPanic c.records d.targetIndex fun r => { r with state := .provisional }
    return { c with records }
  else return c.setLeaf d.targetIndex d.leafIndex .upheld

def closeDispute (d : Dispute) (c : Court) : Except Error Court := do
  let relay ← targetRelay d c
  let active ← checkedSub (c.relayActiveDisputes relay) 1
  let c := { c with relayActiveDisputes := Function.update c.relayActiveDisputes relay active }
  if d.targetType = 1 then do
    let openLeaves ← checkedSub (c.batchOpenLeafDisputes d.targetIndex) 1
    return { c with batchOpenLeafDisputes := Function.update c.batchOpenLeafDisputes d.targetIndex openLeaves }
  else return c

/-! ## Resolutions -/

/-- `disputes[disputeId].resolved = true`. -/
def Court.markResolved (disputeId : ℕ) (d : Dispute) (c : Court) : Court :=
  { c with disputes := c.disputes.set disputeId { d with resolved := true } }

def resolveFraud (D : Deployment) (disputeId : ℕ) (s : Storage) : Except Error Storage := do
  let d ← load boundsPanic s.court.disputes disputeId
  let s := { s with court := s.court.markResolved disputeId d }
  let s ← revokeTarget d s
  let court ← closeDispute d s.court
  let key := targetKey D.toEvm d
  let exposure ← d.validAttesters.foldlM (fun x v => registerValidAtt key v x) s.exposure
  let exposure ←
    if d.targetType = 1 then rememberExposedLeaf d.targetIndex d.leafIndex exposure else pure exposure
  let wrongSide := exposure.targetValidList key
  let ledger ← wrongSide.foldlM (fun l v => slashFromPool v D.verifierSlashAmount d.challenger true l) s.ledger
  let exposure ← releaseExposures key exposure
  let relay ← targetRelay d court
  let (ledger, collected) ← collectFromPool relay D.relaySlashAmount false ledger
  let collected3 ← checkedMul collected 3
  let ledger ← credit d.challenger (collected3 / 5) ledger
  let collected2 ← checkedMul collected 2
  let ledger ← payAttesters d.fraudAttesters (collected2 / 5) ledger
  let ledger ← credit d.challenger d.bond ledger
  return { s with court, exposure, ledger }.emit (.disputeResolved disputeId true)

def resolveSpurious (D : Deployment) (disputeId : ℕ) (s : Storage) : Except Error Storage := do
  let d ← load boundsPanic s.court.disputes disputeId
  let court := s.court.markResolved disputeId d
  let court ← upholdTarget d court
  let court ← closeDispute d court
  let key := targetKey D.toEvm d
  let exposure ← d.validAttesters.foldlM (fun x v => registerValidAtt key v x) s.exposure
  let exposure ←
    if d.targetType = 1 then rememberExposedLeaf d.targetIndex d.leafIndex exposure else pure exposure
  let ledger ← payAttesters d.validAttesters (d.bond / 2) s.ledger
  let relay ← targetRelay d court
  let ledger ← credit relay (d.bond - d.bond / 2) ledger
  return { s with court, exposure, ledger }.emit (.disputeResolved disputeId false)

end PqIotAuth
