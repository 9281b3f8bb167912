import PqIotAuth.RelaySystem

/-!
# The simulated chain as a ledger

Devices, relays and batches submit to one simulated chain in any order. What they put there is a list of entries
(`Call.entries`), and all that the chain answers is a function of this list and of its seed (`Holds`): the receipt of a
transaction is found under its hash and does not change, the blocks are numbered without gaps, and every relay has
counted its own. The latencies are reproducible: they depend on the sizes of the calls and on the seed only, not on who
submits what.

A batch is submitted as its items one by one, at the same gas; what is shared is the latency, which for a whole batch
is that of one transaction.

The chain of the scalability experiment gets meta-transactions only; it is this one with fewer variables
(`submitAll_simulates`).
-/

namespace PqIotAuth.RelaySystem

/-! ## Calls -/

/-- A chain and its relays. -/
structure System where
  relays : ℕ → RelayNode
  blockchain : SimulatedBlockchain

/-- The calls on a chain, and on the relay with a number. -/
inductive Call where
  | submitTransaction (sender dataHash : String) (payloadSize : ℕ) (storeSignature : Bool)
  | submitMetaTransaction (relayAddress dataHash : String) (signatureSize : ℕ) (didActive : Bool)
  | submitBatchTransaction (relayAddress : String) (batchData : List BatchItem)
  | submitVerifiedTransaction (relay : ℕ) (dataHash : String) (signature : List Byte) (verified : Bool)
  | submitBatch (relay : ℕ) (batch : List GatewayResult) (signatures : List (List Byte))

/-- New relays with these identifiers on a new chain. -/
def System.init (ids : ℕ → String) : System := ⟨fun i => ⟨ids i, 0⟩, SimulatedBlockchain.init⟩

section Run

variable (R : Rng) (X : Hashes)

/-- A call, with the hashes that it returns. -/
def Call.run (call : Call) (s : System) : Except KeyError (List String) × System :=
  match call with
  | submitTransaction sender dataHash payloadSize storeSignature =>
    let (txHash, bc) := s.blockchain.submitTransaction R X sender dataHash payloadSize storeSignature
    (.ok [txHash], { s with blockchain := bc })
  | submitMetaTransaction relayAddress dataHash signatureSize didActive =>
    let (txHash, bc) := s.blockchain.submitMetaTransaction R X relayAddress dataHash signatureSize didActive
    (.ok [txHash], { s with blockchain := bc })
  | submitBatchTransaction relayAddress batchData =>
    let (txHashes, bc) := s.blockchain.submitBatchTransaction R X relayAddress batchData
    (txHashes, { s with blockchain := bc })
  | submitVerifiedTransaction i dataHash signature verified =>
    let (txHash, relay, bc) := (s.relays i).submitVerifiedTransaction R X dataHash signature verified s.blockchain
    (.ok [txHash], ⟨Function.update s.relays i relay, bc⟩)
  | submitBatch i batch signatures =>
    let (txHashes, relay, bc) := (s.relays i).submitBatch R X batch signatures s.blockchain
    (.ok txHashes, ⟨Function.update s.relays i relay, bc⟩)

/-- The system after the calls; an exception is caught by the caller. -/
def System.after (calls : List Call) (s : System) : System := calls.foldl (fun s call => (call.run R X s).2) s

end Run

/-! ## Entries -/

/-- What a submission puts on the chain. -/
structure Entry where
  sender : String
  dataHash : String
  kind : Kind
  gas : ℕ
  /-- The size of the batch whose latency it shares. -/
  batch : Option ℕ

/-- The draws that it takes: in a batch the first is overwritten. -/
def Entry.draws (e : Entry) : ℕ :=
  match e.batch with
  | none => 1
  | some _ => 2

def Entry.latency (R : Rng) (draws : ℕ) (e : Entry) : ℚ :=
  match e.batch with
  | none => R.uniform draws
  | some size => R.uniform (draws + 1) / size

def directEntry (sender dataHash : String) (payloadSize : ℕ) (storeSignature : Bool) : Entry :=
  ⟨sender, dataHash, .direct payloadSize storeSignature,
    SimulatedBlockchain.directGas payloadSize storeSignature, none⟩

def metaEntry (relayAddress dataHash : String) (signatureSize : ℕ) (didActive : Bool) : Entry :=
  ⟨relayAddress, dataHash, .metaTransaction signatureSize, SimulatedBlockchain.metaGas didActive, none⟩

/-- The entries of the items in front of the first one without a hash. -/
def itemEntries (relayAddress : String) : List BatchItem → List Entry
  | [] => []
  | item :: items =>
    match item.dataHash with
    | none => []
    | some dataHash =>
      metaEntry relayAddress dataHash (item.signatureSize.getD falcon512SignatureSizeMax) (item.verified.getD true) ::
        itemEntries relayAddress items

/-- An entry in a batch. -/
def Entry.shared (size : ℕ) (e : Entry) : Entry := { e with batch := some size }

/-- The entries that a call puts on the chain, where the relays have these identifiers. -/
def Call.entries (ids : ℕ → String) : Call → List Entry
  | submitTransaction sender dataHash payloadSize storeSignature =>
    [directEntry sender dataHash payloadSize storeSignature]
  | submitMetaTransaction relayAddress dataHash signatureSize didActive =>
    [metaEntry relayAddress dataHash signatureSize didActive]
  | submitBatchTransaction relayAddress batchData =>
    (itemEntries relayAddress batchData).map (Entry.shared batchData.length)
  | submitVerifiedTransaction i dataHash signature verified =>
    [metaEntry (ids i) dataHash signature.length verified]
  | submitBatch i batch signatures =>
    (batch.zip signatures).map fun p => metaEntry (ids i) p.1.dataHash p.2.length p.1.verified

def entries (ids : ℕ → String) (calls : List Call) : List Entry := calls.flatMap (Call.entries ids)

/-- The relay that a call is on. -/
def Call.relay : Call → Option ℕ
  | submitVerifiedTransaction i _ _ _ => some i
  | submitBatch i _ _ => some i
  | _ => none

def totalDraws (es : List Entry) : ℕ := (es.map Entry.draws).sum

/-- The transaction of an entry behind others that are `number` many and have taken `draws` draws. -/
def Entry.transaction (R : Rng) (number draws : ℕ) (e : Entry) : Transaction where
  sender := e.sender
  dataHash := e.dataHash
  kind := e.kind
  gasUsed := e.gas
  blockNumber := number + 1
  latencyMs := e.latency R draws

/-- The transactions of entries behind others. -/
def transactionsFrom (R : Rng) : ℕ → ℕ → List Entry → List Transaction
  | _, _, [] => []
  | number, draws, e :: es => e.transaction R number draws :: transactionsFrom R (number + 1) (draws + e.draws) es

/-- The transactions of the entries of a chain. -/
def transactionsOf (R : Rng) (es : List Entry) : List Transaction := transactionsFrom R 0 0 es

section Entries

variable (R : Rng) (number draws : ℕ) (es es' : List Entry)

theorem length_transactionsFrom : (transactionsFrom R number draws es).length = es.length := by
  induction es generalizing number draws with
  | nil => rfl
  | cons e es ih => exact congrArg (· + 1) (ih (number + 1) (draws + e.draws))

theorem totalDraws_append : totalDraws (es ++ es') = totalDraws es + totalDraws es' := by
  rw [totalDraws, List.map_append, List.sum_append]
  rfl

theorem transactionsFrom_append : transactionsFrom R number draws (es ++ es') =
    transactionsFrom R number draws es ++ transactionsFrom R (number + es.length) (draws + totalDraws es) es' := by
  induction es generalizing number draws with
  | nil => rfl
  | cons e es ih =>
    have hnumber : number + 1 + es.length = number + (e :: es).length := by
      rw [List.length_cons]
      omega
    have hdraws : draws + e.draws + totalDraws es = draws + totalDraws (e :: es) := by
      rw [totalDraws, totalDraws, List.map_cons, List.sum_cons]
      omega
    rw [List.cons_append, transactionsFrom, ih, hnumber, hdraws]
    rfl

theorem transactionsOf_append : transactionsOf R (es ++ es') =
    transactionsOf R es ++ transactionsFrom R es.length (totalDraws es) es' := by
  rw [transactionsOf, transactionsFrom_append, Nat.zero_add, Nat.zero_add]
  rfl

end Entries

/-! ## What a chain holds -/

/-- What a chain is when the entries `es` have been put on it. -/
structure Holds (R : Rng) (X : Hashes) (es : List Entry) (bc : SimulatedBlockchain) : Prop where
  receipt : ∀ txHash t, bc.getReceipt txHash = some t ↔
    ∃ i, X.hash i = txHash ∧ (transactionsOf R es)[i]? = some t
  order : bc.txOrder = (List.range es.length).map X.hash
  block : bc.blockNumber = es.length
  draws : bc.draws = totalDraws es

variable {R : Rng} {X : Hashes} {es : List Entry} {bc bc' : SimulatedBlockchain}

theorem length_transactionsOf (R : Rng) (es : List Entry) : (transactionsOf R es).length = es.length :=
  length_transactionsFrom R 0 0 es

theorem Holds.init : Holds R X [] SimulatedBlockchain.init where
  receipt := by
    intro txHash t
    constructor
    · intro h
      cases h
    · rintro ⟨i, -, h⟩
      cases h
  order := rfl
  block := rfl
  draws := rfl

theorem Holds.length (h : Holds R X es bc) : bc.txOrder.length = es.length := by
  rw [h.order, List.length_map, List.length_range]

/-- A transaction under the next hash. -/
theorem Holds.append (h : Holds R X es bc) {e : Entry}
    (htransactions : bc'.transactions =
      Function.update bc.transactions (X.hash es.length) (some (e.transaction R es.length (totalDraws es))))
    (horder : bc'.txOrder = bc.txOrder ++ [X.hash es.length]) (hblock : bc'.blockNumber = bc.blockNumber + 1)
    (hdraws : bc'.draws = bc.draws + e.draws) : Holds R X (es ++ [e]) bc' := by
  have hlength := length_transactionsOf R es
  have hof : transactionsOf R (es ++ [e]) = transactionsOf R es ++ [e.transaction R es.length (totalDraws es)] :=
    transactionsOf_append R es [e]
  constructor
  · intro txHash t
    rw [SimulatedBlockchain.getReceipt, htransactions, hof]
    by_cases htx : txHash = X.hash es.length
    · rw [htx, Function.update_self]
      constructor
      · intro ht
        refine ⟨es.length, rfl, ?_⟩
        rw [← hlength, List.getElem?_concat_length, hlength]
        exact ht
      · rintro ⟨i, hi, ht⟩
        rw [X.injective hi, ← hlength, List.getElem?_concat_length, hlength] at ht
        exact ht
    · rw [Function.update_of_ne htx]
      refine (h.receipt txHash t).trans (exists_congr fun i => and_congr_right fun hi => ?_)
      -- the new hash is that of the last number only
      have hne : i ≠ (transactionsOf R es).length := by
        rintro rfl
        rw [hlength] at hi
        exact htx hi.symm
      rcases lt_or_gt_of_ne hne with hlt | hgt
      · rw [List.getElem?_append_left hlt]
      · rw [List.getElem?_eq_none (by omega), List.getElem?_eq_none (by
          rw [List.length_append, List.length_singleton]
          omega)]
  · rw [horder, h.order, List.length_append, List.length_singleton, List.range_succ, List.map_append]
    rfl
  · rw [hblock, h.block, List.length_append, List.length_singleton]
  · rw [hdraws, h.draws, totalDraws_append]
    rfl

theorem Holds.record (h : Holds R X es bc) {e : Entry} (he : e.batch = none) :
    (bc.record R X e.sender e.dataHash e.kind e.gas).1 = X.hash es.length ∧
      Holds R X (es ++ [e]) (bc.record R X e.sender e.dataHash e.kind e.gas).2 := by
  have hhash : X.hash bc.txOrder.length = X.hash es.length := by rw [h.length]
  refine ⟨hhash, h.append ?_ ?_ rfl ?_⟩
  · simp only [SimulatedBlockchain.record, SimulatedBlockchain.networkLatency, hhash, h.block, h.draws,
      Entry.transaction, Entry.latency, he]
  · exact congrArg (bc.txOrder ++ [·]) hhash
  · simp only [SimulatedBlockchain.record, SimulatedBlockchain.networkLatency, Entry.draws, he]

/-- An item of a batch: the latency that it has been given is overwritten by a share of another one. -/
theorem Holds.item (h : Holds R X es bc) (e : Entry) (size : ℕ) :
    Holds R X (es ++ [e.shared size])
      (((bc.record R X e.sender e.dataHash e.kind e.gas).2.networkLatency R).2.setLatency (X.hash es.length)
        (((bc.record R X e.sender e.dataHash e.kind e.gas).2.networkLatency R).1 / size)) := by
  have hhash : X.hash bc.txOrder.length = X.hash es.length := by rw [h.length]
  refine h.append ?_ ?_ rfl ?_
  · simp only [SimulatedBlockchain.setLatency, SimulatedBlockchain.record, SimulatedBlockchain.networkLatency, hhash,
      Function.update_self, Function.update_idem, Option.map_some, h.block, h.draws, Entry.transaction, Entry.latency,
      Entry.shared]
  · exact congrArg (bc.txOrder ++ [·]) hhash
  · simp only [SimulatedBlockchain.setLatency, SimulatedBlockchain.record, SimulatedBlockchain.networkLatency,
      Entry.draws, Entry.shared]

/-! ## What a call does -/

/-- The hashes of `count` transactions from `number` on. -/
def Hashes.next (X : Hashes) (number count : ℕ) : List String := (List.range' number count).map X.hash

/-- Every item of a batch has a hash. -/
def Complete (batchData : List BatchItem) : Prop := ∀ item ∈ batchData, item.dataHash.isSome

instance : DecidablePred Complete := fun batchData =>
  inferInstanceAs (Decidable (∀ item ∈ batchData, item.dataHash.isSome))

theorem Holds.submitItems (h : Holds R X es bc) (relayAddress : String) (size : ℕ) (items : List BatchItem) :
    Holds R X (es ++ (itemEntries relayAddress items).map (Entry.shared size))
        (bc.submitItems R X relayAddress size items).2 ∧
      (bc.submitItems R X relayAddress size items).1 =
        if Complete items then .ok (X.next es.length items.length) else .error ⟨"data_hash"⟩ := by
  induction items generalizing es bc with
  | nil =>
    refine ⟨?_, rfl⟩
    rw [itemEntries, List.map_nil, List.append_nil]
    exact h
  | cons item items ih =>
    rcases hhash : item.dataHash with _ | dataHash
    · have hmissing : ¬ Complete (item :: items) := by
        intro hall
        have := hall item List.mem_cons_self
        rw [hhash] at this
        cases this
      simp only [SimulatedBlockchain.submitItems, itemEntries, hhash, if_neg hmissing, List.map_nil, List.append_nil]
      exact ⟨h, trivial⟩
    · let e := metaEntry relayAddress dataHash (item.signatureSize.getD falcon512SignatureSizeMax)
        (item.verified.getD true)
      have hcomplete : Complete (item :: items) ↔ Complete items := by
        simp only [Complete, List.forall_mem_cons, hhash, Option.isSome_some, true_and]
      obtain ⟨hhashes, hrecord⟩ := h.record (e := e) rfl
      obtain ⟨hholds, hreturned⟩ := ih (h.item e size)
      rw [List.length_append, List.length_singleton] at hreturned
      constructor
      · rw [List.append_assoc] at hholds
        simp only [itemEntries, hhash, SimulatedBlockchain.submitItems, List.map_cons]
        rw [show (bc.submitMetaTransaction R X relayAddress dataHash
          (item.signatureSize.getD falcon512SignatureSizeMax) (item.verified.getD true)).1 =
            X.hash es.length from hhashes]
        exact hholds
      · simp only [hhash, SimulatedBlockchain.submitItems]
        rw [show (bc.submitMetaTransaction R X relayAddress dataHash
          (item.signatureSize.getD falcon512SignatureSizeMax) (item.verified.getD true)).1 =
            X.hash es.length from hhashes]
        refine (congrArg (Except.map (X.hash es.length :: ·)) hreturned).trans ?_
        simp only [hcomplete]
        split
        · rfl
        · rfl

theorem Holds.submitPairs (h : Holds R X es bc) (relay : RelayNode) (pairs : List (GatewayResult × List Byte)) :
    Holds R X (es ++ pairs.map fun p => metaEntry relay.relayId p.1.dataHash p.2.length p.1.verified)
        (relay.submitPairs R X pairs bc).2.2 ∧
      (relay.submitPairs R X pairs bc).1 = X.next es.length pairs.length ∧
      (relay.submitPairs R X pairs bc).2.1 = ⟨relay.relayId, relay.submittedCount + pairs.length⟩ := by
  induction pairs generalizing es bc relay with
  | nil =>
    refine ⟨?_, rfl, rfl⟩
    rw [List.map_nil, List.append_nil]
    exact h
  | cons p pairs ih =>
    obtain ⟨item, signature⟩ := p
    let e := metaEntry relay.relayId item.dataHash signature.length item.verified
    obtain ⟨hhash, hrecord⟩ := h.record (e := e) rfl
    obtain ⟨hholds, hreturned, hrelay⟩ := ih hrecord ⟨relay.relayId, relay.submittedCount + 1⟩
    rw [List.length_append, List.length_singleton] at hreturned
    refine ⟨?_, ?_, ?_⟩
    · rw [List.append_assoc] at hholds
      exact hholds
    · exact List.cons_eq_cons.2 ⟨hhash, hreturned⟩
    · refine hrelay.trans ?_
      rw [List.length_cons, Nat.add_assoc, Nat.add_comm 1]

/-- The transactions that the calls have put on the chain through the relay `i`. -/
def countThrough (ids : ℕ → String) (i : ℕ) (calls : List Call) : ℕ :=
  ((calls.filter fun call => call.relay = some i).map fun call => (call.entries ids).length).sum

/-- The system after the calls. -/
structure Books (R : Rng) (X : Hashes) (ids : ℕ → String) (calls : List Call) (s : System) : Prop where
  holds : Holds R X (entries ids calls) s.blockchain
  relays : ∀ i, s.relays i = ⟨ids i, countThrough ids i calls⟩

/-- What a call returns when there are `number` transactions. -/
def Call.returned (X : Hashes) (ids : ℕ → String) (number : ℕ) : Call → Except KeyError (List String)
  | submitBatchTransaction _ batchData =>
    if Complete batchData then .ok (X.next number batchData.length) else .error ⟨"data_hash"⟩
  | call => .ok (X.next number (call.entries ids).length)

variable {ids : ℕ → String} {calls : List Call} {s : System}

theorem Books.init : Books R X ids [] (System.init ids) := ⟨.init, fun _ => rfl⟩

theorem entries_concat (call : Call) : entries ids (calls ++ [call]) = entries ids calls ++ call.entries ids := by
  rw [entries, List.flatMap_append, List.flatMap_singleton]
  rfl

theorem countThrough_concat (i : ℕ) (call : Call) : countThrough ids i (calls ++ [call]) =
    countThrough ids i calls + if call.relay = some i then (call.entries ids).length else 0 := by
  rw [countThrough, List.filter_append, List.map_append, List.sum_append]
  by_cases h : call.relay = some i
  · rw [if_pos h, List.filter_singleton, decide_eq_true h, cond_true, List.map_singleton, List.sum_singleton]
    rfl
  · rw [if_neg h, List.filter_singleton, decide_eq_false h, cond_false]
    rfl

/-- A call that is on no relay. -/
theorem Books.direct (h : Books R X ids calls s) (call : Call) (hrelay : call.relay = none)
    {bc : SimulatedBlockchain} (hholds : Holds R X (entries ids calls ++ call.entries ids) bc) :
    Books R X ids (calls ++ [call]) { s with blockchain := bc } := by
  constructor
  · rw [entries_concat]
    exact hholds
  · intro i
    rw [countThrough_concat, hrelay, if_neg (by simp)]
    exact h.relays i

/-- A call on the relay `i`. -/
theorem Books.relayed (h : Books R X ids calls s) (call : Call) {i : ℕ} (hrelay : call.relay = some i)
    {relay : RelayNode} (hnode : relay = ⟨ids i, countThrough ids i calls + (call.entries ids).length⟩)
    {bc : SimulatedBlockchain} (hholds : Holds R X (entries ids calls ++ call.entries ids) bc) :
    Books R X ids (calls ++ [call]) ⟨Function.update s.relays i relay, bc⟩ := by
  constructor
  · rw [entries_concat]
    exact hholds
  · intro j
    rw [countThrough_concat, hrelay]
    dsimp only
    by_cases hj : j = i
    · subst hj
      rw [Function.update_self, if_pos rfl]
      exact hnode
    · rw [Function.update_of_ne hj, if_neg (by simpa using Ne.symm hj)]
      exact h.relays j

/-- **One call.** It puts its entries behind the others and returns their hashes. -/
theorem Books.step (h : Books R X ids calls s) (call : Call) :
    Books R X ids (calls ++ [call]) (call.run R X s).2 ∧
      (call.run R X s).1 = call.returned X ids (entries ids calls).length := by
  cases call with
  | submitTransaction sender dataHash payloadSize storeSignature =>
    obtain ⟨hhash, hholds⟩ := h.holds.record (e := directEntry sender dataHash payloadSize storeSignature) rfl
    exact ⟨h.direct (.submitTransaction ..) rfl hholds, congrArg (Except.ok [·]) hhash⟩
  | submitMetaTransaction relayAddress dataHash signatureSize didActive =>
    obtain ⟨hhash, hholds⟩ := h.holds.record (e := metaEntry relayAddress dataHash signatureSize didActive) rfl
    exact ⟨h.direct (.submitMetaTransaction ..) rfl hholds, congrArg (Except.ok [·]) hhash⟩
  | submitBatchTransaction relayAddress batchData =>
    obtain ⟨hholds, hreturned⟩ := h.holds.submitItems relayAddress batchData.length batchData
    exact ⟨h.direct (.submitBatchTransaction ..) rfl hholds, hreturned⟩
  | submitVerifiedTransaction i dataHash signature verified =>
    obtain ⟨hhash, hholds⟩ :=
      h.holds.record (e := metaEntry (ids i) dataHash signature.length verified) rfl
    have hid : (s.relays i).relayId = ids i := by rw [h.relays i]
    have hcount : (s.relays i).submittedCount = countThrough ids i calls := by rw [h.relays i]
    rw [← hid] at hholds hhash
    constructor
    · refine h.relayed (.submitVerifiedTransaction ..) rfl ?_ (by rw [Call.entries, ← hid]; exact hholds)
      rw [← hid, ← hcount]
      rfl
    · exact congrArg (Except.ok [·]) hhash
  | submitBatch i batch signatures =>
    obtain ⟨hholds, hreturned, hrelay⟩ := h.holds.submitPairs (s.relays i) (batch.zip signatures)
    have hid : (s.relays i).relayId = ids i := by rw [h.relays i]
    have hcount : (s.relays i).submittedCount = countThrough ids i calls := by rw [h.relays i]
    constructor
    · refine h.relayed (.submitBatch ..) rfl (hrelay.trans ?_) (by rw [Call.entries, ← hid]; exact hholds)
      rw [hid, hcount, Call.entries, List.length_map]
    · refine (congrArg Except.ok hreturned).trans ?_
      rw [Call.returned, Call.entries, List.length_map]
      exact nofun

/-- **After any calls**, and with what any call then returns. -/
theorem books_after (R : Rng) (X : Hashes) (ids : ℕ → String) (calls : List Call) :
    Books R X ids calls ((System.init ids).after R X calls) := by
  induction calls using List.reverseRecOn with
  | nil => exact .init
  | append_singleton calls call ih =>
    rw [System.after, List.foldl_append]
    exact (ih.step call).1

/-! ## The chain of the scalability experiment -/

/-- The receipt of a meta-transaction, as the scalability experiment keeps it. -/
def Transaction.metaReceipt (t : Transaction) : Option Scalability.SimulatedReceipt :=
  match t.kind with
  | .metaTransaction signatureSize =>
    some ⟨t.sender, t.dataHash, signatureSize, t.gasUsed, t.blockNumber, t.latencyMs⟩
  | .direct _ _ => none

/-- The experiment's relay is this relay on this chain, which has drawn once for each transaction. -/
structure Simulates (relay : RelayNode) (bc : SimulatedBlockchain) (node : Scalability.RelayNode) : Prop where
  relayId : node.relayId = relay.relayId
  count : node.submittedCount = relay.submittedCount
  transactions : ∀ txHash, node.blockchain.transactions txHash = (bc.transactions txHash).bind Transaction.metaReceipt
  order : node.blockchain.txOrder = bc.txOrder
  block : node.blockchain.blockNumber = bc.blockNumber
  draws : bc.draws = bc.txOrder.length

/-- What the experiment draws and measures is what its chain does. -/
structure Agrees (R : Rng) (X : Hashes) (M : Scalability.Measured) : Prop where
  txHash : M.txHash = X.hash
  networkLatency : M.networkLatency = R.uniform

variable {M : Scalability.Measured} {relay : RelayNode} {node : Scalability.RelayNode}

/-- A submission has the same metrics in both. -/
theorem Simulates.submit (h : Simulates relay bc node) (hM : Agrees R X M) (dataHash : String) (signature : List Byte)
    (verified : Bool) :
    ∃ metrics relay' bc' node', relay.submitWithMetrics R X (M.elapsed relay.submittedCount) dataHash signature verified
        bc = some (metrics, relay', bc') ∧
      node.submitVerifiedTransaction M dataHash signature verified =
        some (⟨metrics.txHash, metrics.totalLatencyMs, metrics.gasUsed, metrics.blockNumber⟩, node') ∧
      Simulates relay' bc' node' := by
  have hhash : M.txHash node.blockchain.txOrder.length = X.hash bc.txOrder.length := by rw [hM.txHash, h.order]
  have hlatency : M.networkLatency node.blockchain.txOrder.length = R.uniform bc.draws := by
    rw [hM.networkLatency, h.order, h.draws]
  refine ⟨_, _, _, _, by
    simp only [RelayNode.submitWithMetrics, RelayNode.submitVerifiedTransaction,
      SimulatedBlockchain.submitMetaTransaction, SimulatedBlockchain.record, SimulatedBlockchain.networkLatency,
      SimulatedBlockchain.getReceipt, Function.update_self]
    rfl, by
    simp only [Scalability.RelayNode.submitVerifiedTransaction, Scalability.SimulatedBlockchain.submitMetaTransaction,
      Function.update_self, hhash, hlatency, h.count, h.block, h.relayId]
    rfl, ?_⟩
  constructor
  · rfl
  · rfl
  · intro txHash
    dsimp only
    by_cases htx : txHash = X.hash bc.txOrder.length
    · rw [htx, Function.update_self, Function.update_self]
      rfl
    · rw [Function.update_of_ne htx, Function.update_of_ne htx]
      exact h.transactions txHash
  · rw [h.order]
  · rfl
  · rw [List.length_append, List.length_singleton, h.draws]

/-- A turn of the second phase, with this relay and this chain. -/
def submitTurn (R : Rng) (X : Hashes) (M : Scalability.Measured)
    (s : RelayNode × SimulatedBlockchain × List ℚ × List ℕ) (item : VerifiedItem Scalability.Reading) :
    Option (RelayNode × SimulatedBlockchain × List ℚ × List ℕ) := do
  let (relay, bc, bcLatencies, gasCosts) := s
  let (metrics, relay, bc) ← relay.submitWithMetrics R X (M.elapsed relay.submittedCount) item.item.dataHash
    item.item.signature true bc
  return (relay, bc, bcLatencies ++ [metrics.totalLatencyMs], gasCosts ++ [metrics.gasUsed])

/-- **The second phase of the scalability experiment** is a run on this chain, with the same latencies and gas. -/
theorem submitAll_simulates (hM : Agrees R X M) (items : List (VerifiedItem Scalability.Reading)) :
    ∃ relay bc s, Scalability.submitAll M items = some s ∧
      items.foldlM (submitTurn R X M) (⟨"relay-scale", 0⟩, SimulatedBlockchain.init, [], []) =
        some (relay, bc, s.bcLatencies, s.gasCosts) ∧
      Simulates relay bc s.relay := by
  induction items using List.reverseRecOn with
  | nil => exact ⟨_, _, _, rfl, rfl, rfl, rfl, fun _ => rfl, rfl, rfl, rfl⟩
  | append_singleton items item ih =>
    obtain ⟨relay, bc, s, hall, hloop, hsim⟩ := ih
    obtain ⟨metrics, relay', bc', node, hmetrics, hnode, hsim'⟩ :=
      hsim.submit hM item.item.dataHash item.item.signature true
    refine ⟨relay', bc', ⟨node, s.bcLatencies ++ [metrics.totalLatencyMs], s.gasCosts ++ [metrics.gasUsed]⟩, ?_, ?_,
      hsim'⟩
    · rw [Scalability.submitAll, List.foldlM_append, ← Scalability.submitAll, hall]
      simp only [Option.bind_eq_bind, Option.bind_some, List.foldlM_cons, List.foldlM_nil, Scalability.submitTurn,
        hnode]
      rfl
    · rw [List.foldlM_append, hloop]
      simp only [Option.bind_eq_bind, Option.bind_some, List.foldlM_cons, List.foldlM_nil, submitTurn, hmetrics]
      rfl

/-! ## What depends on what -/

/-- The receipts in the order of submission. -/
def SimulatedBlockchain.receipts (bc : SimulatedBlockchain) : List (Option Transaction) :=
  bc.txOrder.map bc.getReceipt

/-- What a receipt says of the cost of its transaction. -/
def Transaction.cost (t : Transaction) : ℕ × ℕ × ℚ := (t.gasUsed, t.blockNumber, t.latencyMs)

/-- A receipt without its latency. -/
def Transaction.timeless (t : Transaction) : Transaction := { t with latencyMs := 0 }

/-- The latencies of all transactions. -/
def SimulatedBlockchain.totalLatency (bc : SimulatedBlockchain) : ℚ :=
  (bc.receipts.map fun t => (t.map Transaction.latencyMs).getD 0).sum

/-- A call without the texts and the bytes of which it is made, and on another relay. -/
def Call.shape : Call → Call
  | submitTransaction _ _ payloadSize storeSignature => .submitTransaction "" "" payloadSize storeSignature
  | submitMetaTransaction _ _ signatureSize didActive => .submitMetaTransaction "" "" signatureSize didActive
  | submitBatchTransaction _ batchData =>
    .submitBatchTransaction "" (batchData.map fun item => { item with dataHash := item.dataHash.map fun _ => "" })
  | submitVerifiedTransaction _ _ signature verified =>
    .submitVerifiedTransaction 0 "" (List.replicate signature.length 0) verified
  | submitBatch _ batch signatures =>
    .submitBatch 0 (batch.map fun item => ⟨"", "", item.verified, "", 0⟩)
      (signatures.map fun signature => List.replicate signature.length 0)

/-- The items of a batch one by one, up to the first one without a hash. -/
def plainCalls (relayAddress : String) : List BatchItem → List Call
  | [] => []
  | item :: items =>
    match item.dataHash with
    | none => []
    | some dataHash =>
      .submitMetaTransaction relayAddress dataHash (item.signatureSize.getD falcon512SignatureSizeMax)
        (item.verified.getD true) :: plainCalls relayAddress items

/-- What of an entry decides the cost of its transaction. -/
def Entry.size (e : Entry) : ℕ × Option ℕ := (e.gas, e.batch)

theorem entries_plainCalls (relayAddress : String) (items : List BatchItem) :
    entries ids (plainCalls relayAddress items) = itemEntries relayAddress items := by
  induction items with
  | nil => rfl
  | cons item items ih =>
    rcases hhash : item.dataHash with _ | dataHash
    · simp only [plainCalls, itemEntries, hhash]
      rfl
    · simp only [plainCalls, itemEntries, hhash]
      exact congrArg (metaEntry relayAddress dataHash (item.signatureSize.getD falcon512SignatureSizeMax)
        (item.verified.getD true) :: ·) ih

theorem size_itemEntries (relayAddress relayAddress' : String) (items : List BatchItem) :
    (itemEntries relayAddress' (items.map fun item => { item with dataHash := item.dataHash.map fun _ => "" })).map
      Entry.size = (itemEntries relayAddress items).map Entry.size := by
  induction items with
  | nil => rfl
  | cons item items ih =>
    rcases hhash : item.dataHash with _ | dataHash
    · simp only [List.map_cons, itemEntries, hhash, Option.map_none, List.map_nil]
    · simp only [List.map_cons, itemEntries, hhash, Option.map_some, ih]
      rfl

/-- The sizes of the entries of a call are those of its shape. -/
theorem Call.size_entries (ids ids' : ℕ → String) (call : Call) :
    (call.shape.entries ids').map Entry.size = (call.entries ids).map Entry.size := by
  cases call with
  | submitTransaction => rfl
  | submitMetaTransaction => rfl
  | submitBatchTransaction relayAddress batchData =>
    have hshared : ∀ l : List Entry, (l.map (Entry.shared batchData.length)).map Entry.size =
        (l.map Entry.size).map fun p => (p.1, some batchData.length) := by
      intro l
      rw [List.map_map, List.map_map]
      rfl
    rw [Call.shape, Call.entries, Call.entries, List.length_map, hshared, hshared,
      size_itemEntries relayAddress]
  | submitVerifiedTransaction i dataHash signature verified =>
    rw [Call.shape, Call.entries, List.length_replicate]
    rfl
  | submitBatch i batch signatures =>
    rw [Call.shape, Call.entries, Call.entries, List.zip_map, List.map_map, List.map_map, List.map_map]
    refine List.map_congr_left fun p _ => ?_
    simp only [Function.comp_apply, Prod.map_fst, Prod.map_snd]
    rfl

theorem size_entries (ids ids' : ℕ → String) {calls' : List Call}
    (h : calls'.map Call.shape = calls.map Call.shape) :
    (entries ids' calls').map Entry.size = (entries ids calls).map Entry.size := by
  have hshape : ∀ (ids' : ℕ → String) (l : List Call), (entries ids' l).map Entry.size =
      (l.map Call.shape).flatMap fun call => (call.entries ids).map Entry.size := by
    intro ids' l
    rw [entries, List.map_flatMap, List.flatMap_map]
    exact List.flatMap_congr fun call _ => (call.size_entries ids' ids).symm
  rw [hshape ids', hshape ids, h]

theorem cost_transactionsFrom {es' : List Entry} (h : es'.map Entry.size = es.map Entry.size) (number draws : ℕ) :
    (transactionsFrom R number draws es').map Transaction.cost =
      (transactionsFrom R number draws es).map Transaction.cost := by
  induction es generalizing es' number draws with
  | nil =>
    rw [List.map_nil, List.map_eq_nil_iff] at h
    rw [h]
  | cons e es ih =>
    obtain ⟨e', es', rfl, he, hes⟩ := List.map_eq_cons_iff.1 h
    obtain ⟨hgas, hbatch⟩ := Prod.mk.inj he
    have hdraws : e'.draws = e.draws := by rw [Entry.draws, hbatch, Entry.draws]
    have hlatency : e'.latency R draws = e.latency R draws := by rw [Entry.latency, hbatch, Entry.latency]
    have hcost : (e'.transaction R number draws).cost = (e.transaction R number draws).cost := by
      simp only [Transaction.cost, Entry.transaction, hgas, hlatency]
    rw [transactionsFrom, transactionsFrom, List.map_cons, List.map_cons, hcost, hdraws, ih hes]

/-- What a receipt says but for the order of the transactions. -/
theorem contents_transactionsFrom (R : Rng) (number draws : ℕ) (es : List Entry) :
    (transactionsFrom R number draws es).map (fun t => (t.sender, t.dataHash, t.gasUsed)) =
      es.map fun e => (e.sender, e.dataHash, e.gas) := by
  induction es generalizing number draws with
  | nil => rfl
  | cons e es ih => exact congrArg ((e.sender, e.dataHash, e.gas) :: ·) (ih (number + 1) (draws + e.draws))

/-- A batch and its items one by one differ in the latencies. -/
theorem timeless_shared (es : List Entry) (size number draws draws' : ℕ) :
    (transactionsFrom R number draws (es.map (Entry.shared size))).map Transaction.timeless =
      (transactionsFrom R number draws' es).map Transaction.timeless := by
  induction es generalizing number draws draws' with
  | nil => rfl
  | cons e es ih =>
    rw [List.map_cons, transactionsFrom, transactionsFrom, List.map_cons, List.map_cons,
      ih (number + 1) (draws + (e.shared size).draws) (draws' + e.draws)]
    rfl

/-- The latencies of the items of a batch sum to their part of that of one transaction. -/
theorem latency_shared (es : List Entry) {size : ℕ} (hsize : 0 < size) (number draws : ℕ) :
    5 * es.length / size ≤
        ((transactionsFrom R number draws (es.map (Entry.shared size))).map Transaction.latencyMs).sum ∧
      ((transactionsFrom R number draws (es.map (Entry.shared size))).map Transaction.latencyMs).sum ≤
        25 * es.length / size := by
  have hpos : (0 : ℚ) < size := Nat.cast_pos.2 hsize
  induction es generalizing number draws with
  | nil => simp [transactionsFrom]
  | cons e es ih =>
    obtain ⟨hlow, hhigh⟩ := ih (number + 1) (draws + (e.shared size).draws)
    obtain ⟨hfive, hmost⟩ := R.uniform_mem (draws + 1)
    have hfirst : ((e.shared size).transaction R number draws).latencyMs = R.uniform (draws + 1) / size := rfl
    have hsplit : ∀ c : ℚ, c * ((e :: es).length : ℚ) / size = c / size + c * es.length / size := by
      intro c
      rw [List.length_cons, Nat.cast_succ, mul_add, mul_one, add_div, add_comm]
    rw [List.map_cons, transactionsFrom, List.map_cons, List.sum_cons, hfirst, hsplit, hsplit]
    exact ⟨add_le_add (div_le_div_of_nonneg_right hfive hpos.le) hlow,
      add_le_add (div_le_div_of_nonneg_right hmost hpos.le) hhigh⟩

theorem Holds.receipts (h : Holds R X es bc) : bc.receipts = (transactionsOf R es).map some := by
  refine List.ext_getElem? fun i => ?_
  rw [SimulatedBlockchain.receipts, h.order, List.map_map, List.getElem?_map, List.getElem?_map]
  by_cases hi : i < es.length
  · have hi' : i < (transactionsOf R es).length := by
      rw [length_transactionsOf]
      exact hi
    rw [List.getElem?_range hi, List.getElem?_eq_getElem hi', Option.map_some, Option.map_some, Function.comp_apply,
      (h.receipt (X.hash i) _).2 ⟨i, rfl, List.getElem?_eq_getElem hi'⟩]
  · rw [List.getElem?_eq_none (by rw [List.length_range]; omega),
      List.getElem?_eq_none (by rw [length_transactionsOf]; omega)]
    rfl

theorem Holds.map_receipts {α : Type} (h : Holds R X es bc) (f : Transaction → α) :
    bc.receipts.map (Option.map f) = ((transactionsOf R es).map f).map some := by
  rw [h.receipts, List.map_map, List.map_map]
  rfl

theorem Holds.totalLatency (h : Holds R X es bc) :
    bc.totalLatency = ((transactionsOf R es).map Transaction.latencyMs).sum := by
  rw [SimulatedBlockchain.totalLatency, h.receipts, List.map_map]
  rfl

/-! ## The ledger -/

/-- What is known of the chain and its relays after the calls. -/
structure LedgerExact (R : Rng) (X : Hashes) (ids : ℕ → String) (calls : List Call) (s : System) : Prop where
  /-- The receipts are those of the entries, under different hashes. -/
  receipt : ∀ txHash t, s.blockchain.getReceipt txHash = some t ↔
    ∃ i, X.hash i = txHash ∧ (transactionsOf R (entries ids calls))[i]? = some t
  order : s.blockchain.txOrder = X.next 0 (entries ids calls).length ∧ s.blockchain.txOrder.Nodup
  counters : s.blockchain.transactionCount = (entries ids calls).length ∧
    s.blockchain.blockNumber = (entries ids calls).length
  relays : ∀ i, s.relays i = ⟨ids i, countThrough ids i calls⟩
  /-- A call returns the hashes that come next, or the exception. -/
  returned : ∀ call : Call, (call.run R X s).1 = call.returned X ids (entries ids calls).length
  /-- No later call changes a receipt. -/
  kept : ∀ later txHash t, s.blockchain.getReceipt txHash = some t →
    (s.after R X later).blockchain.getReceipt txHash = some t
  /-- On every chain of the same seed, calls of the same shapes cost the same. -/
  reproducible : ∀ (X' : Hashes) (ids' : ℕ → String) (calls' : List Call),
    calls'.map Call.shape = calls.map Call.shape →
      ((System.init ids').after R X' calls').blockchain.receipts.map (Option.map Transaction.cost) =
        s.blockchain.receipts.map (Option.map Transaction.cost)
  /-- A batch has the receipts of its items one by one, but for the latencies. -/
  plain : ∀ relayAddress batchData,
    (s.after R X [.submitBatchTransaction relayAddress batchData]).blockchain.receipts.map
        (Option.map Transaction.timeless) =
      (s.after R X (plainCalls relayAddress batchData)).blockchain.receipts.map (Option.map Transaction.timeless)
  /-- A batch has the latency of one transaction, or of its part up to an item without a hash. -/
  amortized : ∀ relayAddress batchData, batchData ≠ [] →
    s.blockchain.totalLatency + 5 * (itemEntries relayAddress batchData).length / batchData.length ≤
        (s.after R X [.submitBatchTransaction relayAddress batchData]).blockchain.totalLatency ∧
      (s.after R X [.submitBatchTransaction relayAddress batchData]).blockchain.totalLatency ≤
        s.blockchain.totalLatency + 25 * (itemEntries relayAddress batchData).length / batchData.length

theorem System.after_append (calls calls' : List Call) (s : System) :
    s.after R X (calls ++ calls') = (s.after R X calls).after R X calls' := List.foldl_append ..

theorem entries_append (calls calls' : List Call) :
    entries ids (calls ++ calls') = entries ids calls ++ entries ids calls' := List.flatMap_append ..

theorem entries_batch (relayAddress : String) (batchData : List BatchItem) :
    entries ids [.submitBatchTransaction relayAddress batchData] =
      (itemEntries relayAddress batchData).map (Entry.shared batchData.length) := List.flatMap_singleton ..

/-- **The simulated chain is a reproducible ledger.** -/
theorem simulated_ledger (R : Rng) (X : Hashes) (ids : ℕ → String) (calls : List Call) :
    LedgerExact R X ids calls ((System.init ids).after R X calls) := by
  have h := books_after R X ids calls
  have hlater : ∀ later, Holds R X (entries ids calls ++ entries ids later)
      (((System.init ids).after R X calls).after R X later).blockchain := by
    intro later
    rw [← entries_append, ← System.after_append]
    exact (books_after R X ids (calls ++ later)).holds
  constructor
  · exact h.holds.receipt
  · have horder : ((System.init ids).after R X calls).blockchain.txOrder = X.next 0 (entries ids calls).length := by
      rw [h.holds.order, Hashes.next, List.range_eq_range']
    refine ⟨horder, ?_⟩
    rw [h.holds.order]
    exact List.nodup_range.map X.injective
  · exact ⟨h.holds.length, h.holds.block⟩
  · exact h.relays
  · exact fun call => (h.step call).2
  · intro later txHash t ht
    obtain ⟨i, hi, hget⟩ := (h.holds.receipt txHash t).1 ht
    refine ((hlater later).receipt txHash t).2 ⟨i, hi, ?_⟩
    rw [transactionsOf_append, List.getElem?_append_left (List.getElem?_eq_some_iff.1 hget).1]
    exact hget
  · intro X' ids' calls' hshape
    have hcost := cost_transactionsFrom (R := R) (size_entries ids ids' hshape) 0 0
    rw [(books_after R X' ids' calls').holds.map_receipts, h.holds.map_receipts]
    exact congrArg (List.map some) hcost
  · intro relayAddress batchData
    have htimeless := timeless_shared (R := R) (itemEntries relayAddress batchData) batchData.length
      (entries ids calls).length (totalDraws (entries ids calls)) (totalDraws (entries ids calls))
    rw [(hlater _).map_receipts, (hlater _).map_receipts, entries_plainCalls, entries_batch, transactionsOf_append,
      transactionsOf_append]
    simp only [List.map_append]
    exact congrArg (fun ts => _ ++ ts.map some) htimeless
  · intro relayAddress batchData hne
    have hsize : 0 < batchData.length := List.length_pos_iff.2 hne
    obtain ⟨hlow, hhigh⟩ := latency_shared (R := R) (itemEntries relayAddress batchData) hsize
      (entries ids calls).length (totalDraws (entries ids calls))
    rw [(hlater _).totalLatency, h.holds.totalLatency, entries_batch, transactionsOf_append, List.map_append,
      List.sum_append]
    exact ⟨add_le_add_right hlow _, add_le_add_right hhigh _⟩

end PqIotAuth.RelaySystem
