import Headscale.System

/-!
# Headscale.Lookups

The read-only lookups of node.go, against the store they read.

`ListPeers` selects the nodes whose node key differs from the node's and sorts
them by id.  Row ids are table keys, so the result is strictly increasing by id
(`listPeers_sorted_by_node_key`), and it holds exactly the stored nodes with
another node key: every node other than the caller when node keys are distinct
in the store, and fewer when another node carries the caller's node key, which
neither registration nor `NodeSetNodeKey` rules out
(`listPeers_drops_shared_node_key`).

`GetNodeByMachineKey` and `GetNodeByAnyKey` are both `First` over the rows in id
order, the first with one test, the second with a test that also passes a
node holding either node key.  Given the node `n` the machine-key lookup
finds, the wider lookup returns `n` exactly when no node below `n` holds
either node key (`getNodeByAnyKey_agrees_iff_no_lower_node_key`); distinct
machine keys do not suffice (`getNodeByAnyKey_returns_lower_node_key`).
-/

namespace Headscale

/-! ## `ListPeers` -/

/-- `ListPeers` of a stored node: its result is strictly increasing by id and
holds exactly the stored nodes whose node key differs from the node's; when no
other stored node carries the node's key, these are all the other stored
nodes. -/
theorem listPeers_sorted_by_node_key (db : Db) {n : Node} (hn : n ∈ db.nodes.rows) :
    ∃ peers, listPeers db n false = .ok peers ∧ (peers.map Node.id).Pairwise (· < ·) ∧
      (∀ i, i ∈ peers.map Node.id ↔ ∃ m, db.nodes.get i = some m ∧ m.nodeKey ≠ n.nodeKey) ∧
      ((∀ m ∈ db.nodes.rows, m.nodeKey = n.nodeKey → m.id = n.id) →
        ∀ i, i ∈ peers.map Node.id ↔ (db.nodes.get i).isSome ∧ i ≠ n.id) := by
  set others := db.nodes.rows.filter (·.nodeKey ≠ n.nodeKey)
  have hsorted : ((others.mergeSort fun a b => a.id ≤ b.id).map Node.id).Pairwise (· ≤ ·) :=
    List.pairwise_map.2 ((List.sorted_mergeSort (fun a b c hab hbc => by simp at *; omega)
      (fun a b => by simp; omega) others).imp (by simp))
  have hnodup : ((others.mergeSort fun a b => a.id ≤ b.id).map Node.id).Nodup :=
    ((List.mergeSort_perm others _).map Node.id).nodup_iff.2
      (db.nodes.nodup_map_key_rows.sublist ((List.filter_sublist _).map _))
  have hmem : ∀ i, i ∈ (others.mergeSort fun a b => a.id ≤ b.id).map Node.id ↔
      ∃ m, db.nodes.get i = some m ∧ m.nodeKey ≠ n.nodeKey := by
    intro i
    simp only [List.mem_map, List.mem_mergeSort, others, List.mem_filter, Table.mem_rows, key_node,
      decide_eq_true_eq]
    constructor
    · rintro ⟨m, ⟨hm, hk⟩, rfl⟩
      exact ⟨m, hm, hk⟩
    · rintro ⟨m, hm, hk⟩
      exact ⟨m, ⟨by rwa [db.id_of_get hm], hk⟩, db.id_of_get hm⟩
  refine ⟨_, rfl, (hsorted.and hnodup).imp fun h => Nat.lt_of_le_of_ne h.1 h.2, hmem,
    fun hkeys i => (hmem i).trans ⟨?_, ?_⟩⟩
  · rintro ⟨m, hm, hk⟩
    refine ⟨by simp [hm], fun e => hk ?_⟩
    rw [e, show db.nodes.get n.id = some n from db.nodes.mem_rows.1 hn] at hm
    rw [Option.some.inj hm]
  · rintro ⟨hs, hne⟩
    obtain ⟨m, hm⟩ := Option.isSome_iff_exists.1 hs
    exact ⟨m, hm, fun hk => hne (db.id_of_get hm ▸ hkeys m (db.nodes.mem_rows_of_get hm) hk)⟩

/-- The laptop and a phone registered with the laptop's node key. -/
def sharedKeyDb : Db :=
  (sampleRegistry.run sampleEnv [.registerNode (.fresh laptop) false true,
    .registerNode (.fresh { laptop with machineKey := 5, givenName := "phone" }) false true]).db

theorem listPeers_sorted_by_node_key_laptop :
    let n : Node := { laptop with id := 1, ipAddresses := [1] }
    n ∈ sharedKeyDb.nodes.rows ∧
      ∃ peers, listPeers sharedKeyDb n false = .ok peers ∧ (peers.map Node.id).Pairwise (· < ·) ∧
        (∀ i, i ∈ peers.map Node.id ↔
          ∃ m, sharedKeyDb.nodes.get i = some m ∧ m.nodeKey ≠ n.nodeKey) ∧
        ((∀ m ∈ sharedKeyDb.nodes.rows, m.nodeKey = n.nodeKey → m.id = n.id) →
          ∀ i, i ∈ peers.map Node.id ↔ (sharedKeyDb.nodes.get i).isSome ∧ i ≠ n.id) :=
  have hn : ({ laptop with id := 1, ipAddresses := [1] } : Node) ∈ sharedKeyDb.nodes.rows := by
    decide
  ⟨hn, listPeers_sorted_by_node_key sharedKeyDb hn⟩

/-- The laptop's peers: none, although the phone is stored, because the phone
carries the laptop's node key. -/
theorem listPeers_drops_shared_node_key :
    sharedKeyDb.nodes.get 1 = some { laptop with id := 1, ipAddresses := [1] } ∧
      (sharedKeyDb.nodes.get 2).isSome ∧
      listPeers sharedKeyDb { laptop with id := 1, ipAddresses := [1] } false = .ok [] := by
  refine ⟨by decide, by decide, ?_⟩
  have hf : sharedKeyDb.nodes.rows.filter
      (·.nodeKey ≠ ({ laptop with id := 1, ipAddresses := [1] } : Node).nodeKey) = [] := by
    decide
  rw [listPeers, if_neg Bool.false_ne_true, hf, List.mergeSort_nil]

/-! ## The key lookups -/

theorem getNodeByMachineKey_eq_ok {db : Db} {machineKey : Nat} {n : Node} :
    getNodeByMachineKey db machineKey = .ok n ↔
      db.nodes.rows.find? (·.machineKey = machineKey) = some n := by
  unfold getNodeByMachineKey
  split <;> rename_i h <;> rw [h] <;> simp

theorem getNodeByAnyKey_eq_ok {db : Db} {machineKey nodeKey oldNodeKey : Nat} {n : Node} :
    getNodeByAnyKey db machineKey nodeKey oldNodeKey = .ok n ↔
      db.nodes.rows.find? (fun n =>
        n.machineKey = machineKey ∨ n.nodeKey = nodeKey ∨ n.nodeKey = oldNodeKey) = some n := by
  unfold getNodeByAnyKey
  split <;> rename_i h <;> rw [h] <;> simp

/-- When `GetNodeByMachineKey` finds `n`, `GetNodeByAnyKey` with the same
machine key returns `n` exactly when no stored node with a lower id holds the
node key or the old node key; no assumption on the other machine keys is
needed. -/
theorem getNodeByAnyKey_agrees_iff_no_lower_node_key (db : Db) (machineKey nodeKey oldNodeKey : Nat)
    {n : Node} (h : getNodeByMachineKey db machineKey = .ok n) :
    getNodeByAnyKey db machineKey nodeKey oldNodeKey = .ok n ↔
      ∀ m ∈ db.nodes.rows, m.id < n.id → m.nodeKey ≠ nodeKey ∧ m.nodeKey ≠ oldNodeKey := by
  rw [getNodeByMachineKey_eq_ok, Table.find?_rows_eq_some] at h
  obtain ⟨hn, hmk, hlow⟩ := h
  rw [getNodeByAnyKey_eq_ok, Table.find?_rows_eq_some]
  simp only [key_node, decide_eq_true_eq, decide_eq_false_iff_not, not_or] at hmk hlow ⊢
  -- `n` passes the wider test by its machine key, and no row below it has that key
  exact ⟨fun h m hm hlt => (h.2.2 m hm hlt).2,
    fun h => ⟨hn, .inl hmk, fun m hm hlt => ⟨hlow m hm hlt, h m hm hlt⟩⟩⟩

/-- The laptop (machine key 7, node key 8) and a phone (machine key 5, node
key 9): every key distinct. -/
def twoDeviceDb : Db :=
  (sampleRegistry.run sampleEnv [.registerNode (.fresh laptop) false true,
    .registerNode (.fresh { laptop with machineKey := 5, nodeKey := 9, givenName := "phone" })
      false true]).db

/-- The phone as stored. -/
def storedPhone : Node :=
  { laptop with id := 2, machineKey := 5, nodeKey := 9, givenName := "phone", ipAddresses := [2] }

theorem getNodeByAnyKey_agrees_iff_no_lower_node_key_phone :
    getNodeByMachineKey twoDeviceDb 5 = .ok storedPhone ∧
      (getNodeByAnyKey twoDeviceDb 5 9 0 = .ok storedPhone ↔
        ∀ m ∈ twoDeviceDb.nodes.rows, m.id < storedPhone.id → m.nodeKey ≠ 9 ∧ m.nodeKey ≠ 0) :=
  have h : getNodeByMachineKey twoDeviceDb 5 = .ok storedPhone := rfl
  ⟨h, getNodeByAnyKey_agrees_iff_no_lower_node_key twoDeviceDb 5 9 0 h⟩

/-- Machine keys are distinct and the phone's is registered, yet a lookup with
the phone's machine key and the laptop's node key returns the laptop. -/
theorem getNodeByAnyKey_returns_lower_node_key :
    (∀ a ∈ twoDeviceDb.nodes.rows, ∀ b ∈ twoDeviceDb.nodes.rows, a.machineKey = b.machineKey → a = b) ∧
      getNodeByMachineKey twoDeviceDb 5 = .ok storedPhone ∧
      getNodeByAnyKey twoDeviceDb 5 8 0 = .ok { laptop with id := 1, ipAddresses := [1] } :=
  ⟨by decide, rfl, rfl⟩

end Headscale
