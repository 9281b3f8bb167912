import Mathlib.Data.List.Nodup
import Mathlib.Data.Rat.Defs
import Mathlib.Algebra.Order.Field.Rat

/-!
# The topology of the fog simulation

`main` sizes the topology from the number of IoT devices and `createFogDevices` builds it in three nested loops: the
gateways are divided among the relays and the devices among the gateways, and both divisions drop their remainder. The
results are printed with the configured numbers. `layout` says what the loops create, each device as a `Node` from which
its name is made, injectively; so all names differ, the numbers are products of truncated quotients, and they are the
configured ones just when nothing is left over (`fog_topology_iff`).

Names are lists of characters. Of a device the model has its name, its level and its parent; processing power, memory,
bandwidths, latencies and energy are the simulator's.
-/

namespace PqIotAuth

namespace Fog

/-! ## Building -/

/-- `"" + n`. -/
def decimal (n : ℕ) : List Char := Nat.toDigits 10 n

def cloudName : List Char := ['c', 'l', 'o', 'u', 'd']

/-- `"proxy-server_" + i`. -/
def relayName (i : ℕ) : List Char := ['p', 'r', 'o', 'x', 'y', '-', 's', 'e', 'r', 'v', 'e', 'r', '_'] ++ decimal i

/-- `"d-" + gwId`. -/
def gatewayName (gwId : ℕ) : List Char := ['d', '-'] ++ decimal gwId

/-- `"m-" + gwId + "-" + k`. -/
def iotName (gwId k : ℕ) : List Char := ['m', '-'] ++ decimal gwId ++ ['-'] ++ decimal k

/-- `"sensor_" + gwId + "_" + k`. -/
def sensorName (gwId k : ℕ) : List Char :=
  ['s', 'e', 'n', 's', 'o', 'r', '_'] ++ decimal gwId ++ ['_'] ++ decimal k

structure FogDevice where
  name : List Char
  level : ℕ
  /-- The parent, by its name; `none` for the parent id `-1`. -/
  parent : Option (List Char)
  deriving DecidableEq

structure Sensor where
  name : List Char
  /-- The device it is attached to, by its name. -/
  gatewayDevice : List Char
  deriving DecidableEq

/-- The lists that `createFogDevices` fills. -/
structure Topology where
  fogDevices : List FogDevice
  sensors : List Sensor

def Topology.add (t : Topology) (device : FogDevice) : Topology := { t with fogDevices := t.fogDevices ++ [device] }

def Topology.addSensor (t : Topology) (sensor : Sensor) : Topology := { t with sensors := t.sensors ++ [sensor] }

/-- The static numbers of the simulation. -/
structure Sizing where
  numOfIoTDevices : ℕ
  numOfEdgeGateways : ℕ
  numOfRelays : ℕ

/-- The sizing in `main`. -/
def sizing (numOfIoTDevices : ℕ) : Sizing :=
  let numOfEdgeGateways := max 2 (numOfIoTDevices / 5)
  ⟨numOfIoTDevices, numOfEdgeGateways, max 1 (numOfEdgeGateways / 4)⟩

/-- The body of the loop over the devices of a gateway. -/
def createIoTDevice (gwId : ℕ) (t : Topology) (k : ℕ) : Topology :=
  let t := t.add ⟨iotName gwId k, 3, some (gatewayName gwId)⟩
  t.addSensor ⟨sensorName gwId k, iotName gwId k⟩

/-- The body of the loop over the gateways of a relay. -/
def createGateway (c : Sizing) (i gatewaysPerRelay : ℕ) (t : Topology) (j : ℕ) : Topology :=
  let gwId := i * gatewaysPerRelay + j
  let t := t.add ⟨gatewayName gwId, 2, some (relayName i)⟩
  let iotPerGateway := c.numOfIoTDevices / c.numOfEdgeGateways
  (List.range iotPerGateway).foldl (createIoTDevice gwId) t

/-- The body of the loop over the relays. -/
def createRelay (c : Sizing) (t : Topology) (i : ℕ) : Topology :=
  let t := t.add ⟨relayName i, 1, some cloudName⟩
  let gatewaysPerRelay := c.numOfEdgeGateways / c.numOfRelays
  (List.range gatewaysPerRelay).foldl (createGateway c i gatewaysPerRelay) t

def createFogDevices (c : Sizing) : Topology :=
  (List.range c.numOfRelays).foldl (createRelay c) (Topology.add ⟨[], []⟩ ⟨cloudName, 0, none⟩)

/-! ## Printing -/

/-- `device.getName().startsWith(start)`, for the prefixes by which the results tell the devices apart. -/
def FogDevice.isIoT (d : FogDevice) : Bool := ['m', '-'].isPrefixOf d.name

def FogDevice.isEdge (d : FogDevice) : Bool := ['d', '-'].isPrefixOf d.name

def FogDevice.isRelay (d : FogDevice) : Bool :=
  ['p', 'r', 'o', 'x', 'y', '-', 's', 'e', 'r', 'v', 'e', 'r'].isPrefixOf d.name

/-- Bytes of a signature and of a public key. -/
def schemeBytes (cryptoScheme : String) : ℚ × ℚ :=
  if cryptoScheme = "ecdsa" then (64, 64)
  else if cryptoScheme = "dilithium2" then (2420, 1312)
  else (666, 897)

/-- The bytes that one tuple chain transmits. -/
def dataPerChain (cryptoScheme : String) : ℚ :=
  let tupleBytes := 200 + (schemeBytes cryptoScheme).1 + (schemeBytes cryptoScheme).2
  200 + tupleBytes * 3 + 200 * 2

/-- What is printed of the topology: the configured numbers, the numbers of devices counted by their names, and the
network data. -/
structure Results where
  numIot : ℕ
  numGateways : ℕ
  numRelays : ℕ
  iotCount : ℕ
  edgeCount : ℕ
  relayCount : ℕ
  totalNetworkDataBytes : ℚ

def printSimulationResults (c : Sizing) (cryptoScheme : String) (simulationTime : ℚ) (fogDevices : List FogDevice) :
    Results where
  numIot := c.numOfIoTDevices
  numGateways := c.numOfEdgeGateways
  numRelays := c.numOfRelays
  iotCount := fogDevices.countP FogDevice.isIoT
  edgeCount := fogDevices.countP fun d => !d.isIoT && d.isEdge
  relayCount := fogDevices.countP fun d => !d.isIoT && !d.isEdge && d.isRelay
  totalNetworkDataBytes := c.numOfIoTDevices * (simulationTime / 54) * dataPerChain cryptoScheme

/-! ## What is created -/

/-- The devices that the loops create. -/
inductive Node where
  | cloud
  | relay (i : ℕ)
  | gateway (gwId : ℕ)
  | iot (gwId k : ℕ)

namespace Node

def name : Node → List Char
  | .cloud => cloudName
  | .relay i => relayName i
  | .gateway gwId => gatewayName gwId
  | .iot gwId k => iotName gwId k

/-- The sensor that is made with a device. -/
def sensor : Node → Option Sensor
  | .iot gwId k => some ⟨sensorName gwId k, iotName gwId k⟩
  | _ => none

variable (gatewaysPerRelay : ℕ)

/-- The device as the loops make it. -/
def device : Node → FogDevice
  | .cloud => ⟨cloudName, 0, none⟩
  | .relay i => ⟨relayName i, 1, some cloudName⟩
  | .gateway gwId => ⟨gatewayName gwId, 2, some (relayName (gwId / gatewaysPerRelay))⟩
  | .iot gwId k => ⟨iotName gwId k, 3, some (gatewayName gwId)⟩

@[simp] theorem device_name (x : Node) : (x.device gatewaysPerRelay).name = x.name := by cases x <;> rfl

end Node

/-- A gateway and its devices. -/
def gatewayLayout (iotPerGateway gwId : ℕ) : List Node :=
  .gateway gwId :: (List.range iotPerGateway).map (.iot gwId)

/-- A relay and its gateways. -/
def relayLayout (gatewaysPerRelay iotPerGateway i : ℕ) : List Node :=
  .relay i :: (List.range gatewaysPerRelay).flatMap fun j => gatewayLayout iotPerGateway (i * gatewaysPerRelay + j)

namespace Sizing

variable (c : Sizing)

def gatewaysPerRelay : ℕ := c.numOfEdgeGateways / c.numOfRelays

def iotPerGateway : ℕ := c.numOfIoTDevices / c.numOfEdgeGateways

def layout : List Node :=
  .cloud :: (List.range c.numOfRelays).flatMap (relayLayout c.gatewaysPerRelay c.iotPerGateway)

end Sizing

/-- The topology with more nodes. -/
def Topology.extend (gatewaysPerRelay : ℕ) (t : Topology) (nodes : List Node) : Topology :=
  ⟨t.fogDevices ++ nodes.map (Node.device gatewaysPerRelay), t.sensors ++ nodes.filterMap Node.sensor⟩

section Loops

variable (c : Sizing) {g : ℕ}

theorem Topology.extend_append (t : Topology) (nodes nodes' : List Node) :
    t.extend g (nodes ++ nodes') = (t.extend g nodes).extend g nodes' := by
  simp [Topology.extend]

/-- A loop whose turns add nodes adds them all. -/
theorem foldl_extend {f : Topology → ℕ → Topology} {nodes : ℕ → List Node} {l : List ℕ}
    (h : ∀ i ∈ l, ∀ t, f t i = t.extend g (nodes i)) (t : Topology) :
    l.foldl f t = t.extend g (l.flatMap nodes) := by
  induction l generalizing t with
  | nil => simp [Topology.extend]
  | cons i l ih =>
    rw [List.foldl_cons, ih fun j hj => h j (List.mem_cons_of_mem i hj), h i List.mem_cons_self, List.flatMap_cons,
      Topology.extend_append]

theorem createIoTDevice_eq (gwId k : ℕ) (t : Topology) : createIoTDevice gwId t k = t.extend g [.iot gwId k] := rfl

theorem createGateway_eq (i : ℕ) {j : ℕ} (hj : j < g) (t : Topology) :
    createGateway c i g t j = t.extend g (gatewayLayout c.iotPerGateway (i * g + j)) := by
  have hrelay : (i * g + j) / g = i := by
    rw [Nat.mul_comm, Nat.mul_add_div (by omega), Nat.div_eq_of_lt hj, Nat.add_zero]
  have hhead : t.add ⟨gatewayName (i * g + j), 2, some (relayName i)⟩ = t.extend g [.gateway (i * g + j)] := by
    simp [Topology.add, Topology.extend, Node.device, Node.sensor, hrelay]
  have hbody := foldl_extend (l := List.range c.iotPerGateway)
    fun k _ t => createIoTDevice_eq (g := g) (i * g + j) k t
  rw [createGateway, hhead, gatewayLayout, List.map_eq_flatMap]
  exact (hbody _).trans (Topology.extend_append ..).symm

theorem createRelay_eq (t : Topology) (i : ℕ) :
    createRelay c t i = t.extend c.gatewaysPerRelay (relayLayout c.gatewaysPerRelay c.iotPerGateway i) := by
  have hhead : t.add ⟨relayName i, 1, some cloudName⟩ = t.extend c.gatewaysPerRelay [.relay i] := by
    simp [Topology.add, Topology.extend, Node.device, Node.sensor]
  have hbody := foldl_extend (f := createGateway c i c.gatewaysPerRelay) (l := List.range c.gatewaysPerRelay)
    fun j hj t => createGateway_eq c i (List.mem_range.1 hj) t
  rw [createRelay, hhead]
  exact (hbody _).trans (Topology.extend_append ..).symm

/-- **The loops create the layout.** -/
theorem createFogDevices_eq : createFogDevices c =
    ⟨c.layout.map (Node.device c.gatewaysPerRelay), c.layout.filterMap Node.sensor⟩ := by
  rw [createFogDevices, foldl_extend fun i _ t => createRelay_eq c t i]
  rfl

end Loops

/-! ## Names -/

theorem decimal_injective : Function.Injective decimal := by
  intro n m h
  calc
    n = Nat.ofDigitChars 10 (decimal n) 0 := Nat.ofDigitChars_ten_toDigits.symm
    _ = Nat.ofDigitChars 10 (decimal m) 0 := by rw [h]
    _ = m := Nat.ofDigitChars_ten_toDigits

/-- A number has no separator in it. -/
theorem not_mem_decimal {c : Char} (h : c.isDigit = false) (n : ℕ) : c ∉ decimal n := by
  intro hm
  have := Nat.isDigit_of_mem_toDigits (by decide) (by decide) hm
  rw [h] at this
  cases this

/-- Two numbers can be read off their decimals with a separator between them. -/
theorem decimal_pair_inj {c : Char} (hc : c.isDigit = false) {n m n' m' : ℕ}
    (h : decimal n ++ [c] ++ decimal m = decimal n' ++ [c] ++ decimal m') : n = n' ∧ m = m' := by
  rw [List.append_assoc, List.append_assoc, List.singleton_append, List.singleton_append,
    List.append_cons_inj_of_notMem (not_mem_decimal hc n) (not_mem_decimal hc m)] at h
  exact ⟨decimal_injective h.1, decimal_injective h.2.2⟩

theorem sensorName_inj {gwId k gwId' k' : ℕ} (h : sensorName gwId k = sensorName gwId' k') :
    gwId = gwId' ∧ k = k' := by
  simp only [sensorName, List.append_assoc, List.append_cancel_left_eq] at h
  exact decimal_pair_inj (c := '_') (by decide) (by simpa using h)

/-- **The names of two devices differ.** -/
theorem Node.name_injective : Function.Injective Node.name := by
  intro x y h
  cases x with
  | cloud =>
    cases y with
    | cloud => rfl
    | _ => simp [Node.name, cloudName, relayName, gatewayName, iotName] at h
  | relay i =>
    cases y with
    | relay i' => rw [decimal_injective (List.append_cancel_left h)]
    | _ => simp [Node.name, cloudName, relayName, gatewayName, iotName] at h
  | gateway gwId =>
    cases y with
    | gateway gwId' => rw [decimal_injective (List.append_cancel_left h)]
    | _ => simp [Node.name, cloudName, relayName, gatewayName, iotName] at h
  | iot gwId k =>
    cases y with
    | iot gwId' k' =>
      simp only [Node.name, iotName, List.append_assoc, List.append_cancel_left_eq] at h
      obtain ⟨rfl, rfl⟩ := decimal_pair_inj (c := '-') (by decide) (by simpa using h)
      rfl
    | _ => simp [Node.name, cloudName, relayName, gatewayName, iotName] at h

section Kinds

variable (g : ℕ) (x : Node)

/-- The prefixes tell the kinds of devices apart. -/
theorem Node.isIoT_device : (x.device g).isIoT = match x with | .iot .. => true | _ => false := by
  cases x <;> simp [FogDevice.isIoT, Node.name, cloudName, relayName, gatewayName, iotName, List.isPrefixOf]

theorem Node.isEdge_device : (x.device g).isEdge = match x with | .gateway _ => true | _ => false := by
  cases x <;> simp [FogDevice.isEdge, Node.name, cloudName, relayName, gatewayName, iotName, List.isPrefixOf]

theorem Node.isRelay_device : (x.device g).isRelay = match x with | .relay _ => true | _ => false := by
  cases x <;> simp [FogDevice.isRelay, Node.name, cloudName, relayName, gatewayName, iotName, List.isPrefixOf]

end Kinds

/-! ## Numbers -/

section Numbers

variable (c : Sizing)

/-- The number of devices of the kinds that `q` picks. -/
theorem countP_layout {q : Node → Bool} {a b d : Bool} (hcloud : q .cloud = false) (hrelay : ∀ i, q (.relay i) = a)
    (hgateway : ∀ gwId, q (.gateway gwId) = b) (hiot : ∀ gwId k, q (.iot gwId k) = d) :
    c.layout.countP q =
      c.numOfRelays * (c.gatewaysPerRelay * (c.iotPerGateway * d.toNat + b.toNat) + a.toNat) := by
  have htoNat : ∀ z : Bool, (if z = true then 1 else 0) = z.toNat := by decide
  have hdevices : ∀ gwId, (gatewayLayout c.iotPerGateway gwId).countP q = c.iotPerGateway * d.toNat + b.toNat := by
    intro gwId
    have hcomp : q ∘ Node.iot gwId = fun _ => d := funext fun k => hiot gwId k
    rw [gatewayLayout, List.countP_cons, hgateway, htoNat, List.countP_map, hcomp]
    cases d <;> simp
  have hgateways : ∀ i, (relayLayout c.gatewaysPerRelay c.iotPerGateway i).countP q =
      c.gatewaysPerRelay * (c.iotPerGateway * d.toNat + b.toNat) + a.toNat := by
    intro i
    rw [relayLayout, List.countP_cons, hrelay, htoNat, List.countP_flatMap]
    simp only [Function.comp_def, hdevices, List.map_const', List.length_range, List.sum_replicate_nat]
  rw [Sizing.layout, List.countP_cons_of_neg (by rw [hcloud]; exact Bool.false_ne_true), List.countP_flatMap]
  simp only [Function.comp_def, hgateways, List.map_const', List.length_range, List.sum_replicate_nat]

/-- The numbers that the results count by the names. -/
theorem counts (cryptoScheme : String) (simulationTime : ℚ) :
    let r := printSimulationResults c cryptoScheme simulationTime (createFogDevices c).fogDevices
    r.relayCount = c.numOfRelays ∧ r.edgeCount = c.numOfRelays * c.gatewaysPerRelay ∧
      r.iotCount = c.numOfRelays * (c.gatewaysPerRelay * c.iotPerGateway) := by
  rw [createFogDevices_eq]
  dsimp only [printSimulationResults]
  simp only [List.countP_map]
  refine ⟨?_, ?_, ?_⟩
  · rw [countP_layout c (a := true) (b := false) (d := false)]
    · simp
    all_goals simp [Node.isIoT_device, Node.isEdge_device, Node.isRelay_device]
  · rw [countP_layout c (a := false) (b := true) (d := false)]
    · simp
    all_goals simp [Node.isIoT_device, Node.isEdge_device]
  · rw [countP_layout c (a := false) (b := false) (d := true)]
    · simp
    all_goals simp [Node.isIoT_device]

end Numbers

/-! ## The layout has no repetition -/

section Distinct

/-- A list of lists whose entries tell which list they are in. -/
theorem nodup_flatMap_of_owner {α β : Type} {l : List α} {f : α → List β} (owner : β → α) (hl : l.Nodup)
    (hf : ∀ x ∈ l, (f x).Nodup) (howner : ∀ x ∈ l, ∀ y ∈ f x, owner y = x) : (l.flatMap f).Nodup := by
  refine List.nodup_flatMap.2 ⟨hf, hl.pairwise_of_forall_ne fun x hx x' hx' hne => ?_⟩
  intro y hy hy'
  exact hne ((howner x hx y hy).symm.trans (howner x' hx' y hy'))

theorem mem_gatewayLayout {iotPerGateway gwId : ℕ} {x : Node} :
    x ∈ gatewayLayout iotPerGateway gwId ↔ x = .gateway gwId ∨ ∃ k < iotPerGateway, x = .iot gwId k := by
  simp [gatewayLayout, eq_comm]

theorem gatewayLayout_nodup (iotPerGateway gwId : ℕ) : (gatewayLayout iotPerGateway gwId).Nodup := by
  refine List.nodup_cons.2 ⟨by simp, List.Nodup.map (fun k k' h => ?_) List.nodup_range⟩
  exact (Node.iot.inj h).2

/-- The gateway that a device belongs to. -/
def Node.owner : Node → ℕ
  | .gateway gwId => gwId
  | .iot gwId _ => gwId
  | _ => 0

theorem owner_of_mem {iotPerGateway gwId : ℕ} {x : Node} (h : x ∈ gatewayLayout iotPerGateway gwId) :
    x.owner = gwId := by
  rcases mem_gatewayLayout.1 h with rfl | ⟨k, -, rfl⟩ <;> rfl

theorem relayLayout_nodup (gatewaysPerRelay iotPerGateway i : ℕ) :
    (relayLayout gatewaysPerRelay iotPerGateway i).Nodup := by
  refine List.nodup_cons.2 ⟨by simp [gatewayLayout], ?_⟩
  refine nodup_flatMap_of_owner (fun x => x.owner - i * gatewaysPerRelay) List.nodup_range
    (fun j _ => gatewayLayout_nodup ..) fun j _ x hx => ?_
  rw [owner_of_mem hx, Nat.add_sub_cancel_left]

/-- The relay that a device belongs to. -/
def Node.relayOwner (gatewaysPerRelay : ℕ) : Node → ℕ
  | .relay i => i
  | x => x.owner / gatewaysPerRelay

theorem relayOwner_of_mem {gatewaysPerRelay iotPerGateway i : ℕ} {x : Node}
    (h : x ∈ relayLayout gatewaysPerRelay iotPerGateway i) : x.relayOwner gatewaysPerRelay = i := by
  rcases List.mem_cons.1 h with rfl | h
  · rfl
  · obtain ⟨j, hj, hx⟩ := List.mem_flatMap.1 h
    have hdiv : (i * gatewaysPerRelay + j) / gatewaysPerRelay = i := by
      have hlt := List.mem_range.1 hj
      rw [Nat.mul_comm, Nat.mul_add_div (Nat.zero_lt_of_lt hlt), Nat.div_eq_of_lt hlt, Nat.add_zero]
    rcases mem_gatewayLayout.1 hx with rfl | ⟨k, -, rfl⟩
    · exact hdiv
    · exact hdiv

theorem layout_nodup (c : Sizing) : c.layout.Nodup := by
  refine List.nodup_cons.2 ⟨by simp [relayLayout, gatewayLayout], ?_⟩
  exact nodup_flatMap_of_owner (Node.relayOwner c.gatewaysPerRelay) List.nodup_range
    (fun i _ => relayLayout_nodup ..) fun i _ x hx => relayOwner_of_mem hx

theorem names_nodup (c : Sizing) : ((createFogDevices c).fogDevices.map FogDevice.name).Nodup := by
  rw [createFogDevices_eq, List.map_map]
  have hnames : FogDevice.name ∘ Node.device c.gatewaysPerRelay = Node.name := funext fun x => x.device_name _
  rw [hnames]
  exact (layout_nodup c).map Node.name_injective

theorem sensor_names_nodup (c : Sizing) : ((createFogDevices c).sensors.map Sensor.name).Nodup := by
  rw [createFogDevices_eq, List.map_filterMap]
  refine (layout_nodup c).filterMap fun x y name hx hy => ?_
  cases x with
  | iot gwId k =>
    cases y with
    | iot gwId' k' =>
      obtain ⟨rfl, rfl⟩ := sensorName_inj ((Option.some.inj hx).trans (Option.some.inj hy).symm)
      rfl
    | _ => cases hy
  | _ => cases hx

/-- The sensors are attached to the IoT devices, one to each. -/
theorem one_sensor_each (c : Sizing) : (createFogDevices c).sensors.map Sensor.gatewayDevice =
    ((createFogDevices c).fogDevices.filter FogDevice.isIoT).map FogDevice.name := by
  rw [createFogDevices_eq]
  generalize c.layout = l
  induction l with
  | nil => rfl
  | cons x l ih =>
    have hx := x.isIoT_device c.gatewaysPerRelay
    cases x with
    | iot gwId k =>
      simp only [List.map_cons, List.filterMap_cons, Node.sensor]
      rw [List.filter_cons_of_pos hx, List.map_cons, ih]
      rfl
    | _ =>
      simp only [List.map_cons, List.filterMap_cons, Node.sensor]
      rw [List.filter_cons_of_neg (by rw [hx]; exact Bool.false_ne_true)]
      exact ih

end Distinct

/-! ## The configured size -/

/-- The topology has the configured size, with one sensor for each device and no name twice, and what is printed
describes it. -/
structure Configured (c : Sizing) (cryptoScheme : String) (simulationTime : ℚ) (t : Topology) (r : Results) : Prop where
  relays : r.relayCount = c.numOfRelays
  gateways : r.edgeCount = c.numOfEdgeGateways
  devices : r.iotCount = c.numOfIoTDevices
  one_sensor : t.sensors.map Sensor.gatewayDevice = (t.fogDevices.filter FogDevice.isIoT).map FogDevice.name
  names : (t.fogDevices.map FogDevice.name).Nodup
  sensor_names : (t.sensors.map Sensor.name).Nodup
  num_iot : r.numIot = r.iotCount
  num_gateways : r.numGateways = r.edgeCount
  network_data : r.totalNetworkDataBytes = r.iotCount * (simulationTime / 54) * dataPerChain cryptoScheme

/-- Two truncated quotients lose nothing just when both divisions are exact. -/
theorem quotients_iff {n g r : ℕ} (hg : 0 < g) :
    (r * (g / r) = g ∧ r * (g / r * (n / g)) = n) ↔ r ∣ g ∧ g ∣ n := by
  constructor
  · rintro ⟨h1, h2⟩
    refine ⟨⟨g / r, h1.symm⟩, n / g, ?_⟩
    rw [← Nat.mul_assoc, h1] at h2
    exact h2.symm
  · rintro ⟨⟨q, rfl⟩, m, rfl⟩
    have hr : 0 < r := Nat.pos_of_mul_pos_right hg
    rw [Nat.mul_div_cancel_left _ hr, Nat.mul_div_cancel_left _ hg, Nat.mul_assoc]
    exact ⟨rfl, rfl⟩

/-- **The topology has the configured size just when the relays divide the gateways and the gateways the devices.** -/
theorem fog_topology_iff (n : ℕ) (cryptoScheme : String) (simulationTime : ℚ) :
    Configured (sizing n) cryptoScheme simulationTime (createFogDevices (sizing n))
      (printSimulationResults (sizing n) cryptoScheme simulationTime (createFogDevices (sizing n)).fogDevices) ↔
    (sizing n).numOfRelays ∣ (sizing n).numOfEdgeGateways ∧ (sizing n).numOfEdgeGateways ∣ n := by
  obtain ⟨hrelays, hgateways, hdevices⟩ := counts (sizing n) cryptoScheme simulationTime
  have hpos : 0 < (sizing n).numOfEdgeGateways := lt_of_lt_of_le Nat.two_pos (le_max_left ..)
  have hiff := quotients_iff (n := n) (r := (sizing n).numOfRelays) hpos
  constructor
  · intro h
    exact hiff.1 ⟨hgateways.symm.trans h.gateways, hdevices.symm.trans h.devices⟩
  · intro h
    obtain ⟨h1, h2⟩ := hiff.2 h
    have hedge := hgateways.trans h1
    have hiot := hdevices.trans h2
    refine ⟨hrelays, hedge, hiot, one_sensor_each _, names_nodup _, sensor_names_nodup _, hiot.symm, hedge.symm, ?_⟩
    rw [hiot]
    rfl

/-- Seven devices are divided between two gateways: six are created, and seven are reported. -/
theorem fog_remainder_lost :
    let r := printSimulationResults (sizing 7) "falcon" 1000 (createFogDevices (sizing 7)).fogDevices
    r.numIot = 7 ∧ r.iotCount = 6 ∧ ¬ Configured (sizing 7) "falcon" 1000 (createFogDevices (sizing 7)) r := by
  have hcount : (createFogDevices (sizing 7)).fogDevices.countP FogDevice.isIoT = 6 := by decide +kernel
  refine ⟨rfl, hcount, fun h => ?_⟩
  have := hcount.symm.trans h.devices
  revert this
  decide

end Fog

end PqIotAuth
