import Headscale.Frame

/-!
# Headscale.Owners

Owners and addresses across every run.

`RegisterNodeFromAuthCallback` checks a re-authorization against the owner the
*cached copy* carries, and `RegisterNode` saves the copy's addresses as they
are.  Both are sound only because of `OwnerInv`: every node the registry holds
— a stored row or a pending copy — agrees with every other one under the same
id on its owner and its addresses, and holds one address per configured
prefix.  `ownerInv_of_reaches` shows it of every registry reached from an
empty one, whatever the interleaving.

From it:

* `owner_and_addresses_stable`: every request keeps the owner and addresses of
  each node stored before and after it (`Db.KeepsOwners`), so a node stored
  throughout a run keeps them, however often it is re-registered, approved
  again or given new keys;
* `reauthorization_keeps_owner_and_addresses`: approving a copy of a stored
  node never changes that node's owner or addresses, and an approval under
  another user is refused without touching the registry;
* `addresses_disjoint_of_approvals_stored`: no two stored nodes share an
  address, over every run in which each approved copy's node is still stored
  when it is approved.  `RegisterNode` saves a copy as it is because the node
  it copies "exists" (node.go's comment on the as-is save), but nothing checks
  that: `stale_copy_shares_addresses` is a run where a copy of a deleted node
  is approved after its address went to another node, and both hold it.
-/

namespace Headscale

/-- A node the registry holds: a stored row, or a pending node in the cache. -/
def Registry.Holds (s : Registry) (n : Node) : Prop :=
  s.db.nodes.get n.id = some n ∨ ∃ k rs, s.cache.get k = some (.node n rs)

/-- Every node held under a non-zero id agrees with the others under that id on
owner and addresses and has `count` addresses; a pending node under id zero has
no address; and pending ids are ids already handed out. -/
structure OwnerInv (count : Nat) (s : Registry) : Prop where
  agree : ∀ {a b}, s.Holds a → s.Holds b → a.id = b.id → a.id ≠ 0 →
    a.userId = b.userId ∧ a.ipAddresses = b.ipAddresses
  length : ∀ {a}, s.Holds a → a.id ≠ 0 → a.ipAddresses.length = count
  fresh : ∀ {k c rs}, s.cache.get k = some (.node c rs) → c.id = 0 → c.ipAddresses = []
  below : ∀ {k c rs}, s.cache.get k = some (.node c rs) → c.id < s.db.nodes.next

/-- What a node must satisfy to be held beside the registry's nodes. -/
structure Fits (count : Nat) (s : Registry) (n : Node) : Prop where
  fresh : n.id = 0 → n.ipAddresses = []
  length : n.id ≠ 0 → n.ipAddresses.length = count
  agree : ∀ {b}, s.Holds b → b.id = n.id → n.id ≠ 0 →
    b.userId = n.userId ∧ b.ipAddresses = n.ipAddresses

/-- Owner and addresses, what `OwnerInv` reads of a row. -/
def owner (n : Node) : Nat × List Nat := (n.userId, n.ipAddresses)

variable {count : Nat} {s : Registry}

/-- A registration saves a node under a handed-out id with the addresses the
node carries: it has `count` of them, so it is saved as it is, or `count` is
zero and the allocator's list is empty too. -/
theorem saved_addresses {alloc : Db → Except Err (List Nat)} (hA : AllocSpec alloc count)
    {db : Db} {node : Node} {ips : List Nat} (hlen : node.id ≠ 0 → node.ipAddresses.length = count)
    (hne : node.ipAddresses ≠ [] → ips = node.ipAddresses)
    (hnil : node.ipAddresses = [] → alloc db = .ok ips) (h0 : node.id ≠ 0) :
    ips = node.ipAddresses := by
  by_cases he : node.ipAddresses = []
  · have hz : count = 0 := by rw [← hlen h0, he]; rfl
    rw [he, ← List.length_eq_zero, hA.length (hnil he), hz]
  · exact hne he

namespace OwnerInv

theorem empty (users : List User) (h₁ : (users.map User.id).Nodup)
    (h₂ : (users.map User.name).Nodup) : OwnerInv count (Registry.empty users h₁ h₂) := by
  have hnone : ∀ {a}, ¬(Registry.empty users h₁ h₂).Holds a := by
    rintro a (h | ⟨k, rs, h⟩) <;> cases h
  exact ⟨fun h => absurd h hnone, fun h => absurd h hnone, fun h => (by cases h),
    fun h => (by cases h)⟩

/-- A held node fits. -/
theorem fits (hI : OwnerInv count s) {m : Node} (hm : s.Holds m) : Fits count s m where
  fresh h0 := by
    rcases hm with hm | ⟨k, rs, hk⟩
    · exact absurd h0 (s.db.nodes.ne_zero_of_get hm)
    · exact hI.fresh hk h0
  length h0 := hI.length hm h0
  agree hb hid h0 := hI.agree hb hm hid (hid ▸ h0)

/-- Only the rows change, keeping owner and addresses. -/
theorem keeps (hI : OwnerInv count s) {db : Db} (hk : s.db.Keeps owner db) :
    OwnerInv count { s with db := db } := by
  have back : ∀ {a}, Registry.Holds { s with db := db } a →
      ∃ b, s.Holds b ∧ b.id = a.id ∧ owner b = owner a := by
    rintro a (ha | hc)
    · obtain ⟨b, hb, e⟩ := hk.2 _ _ ha
      have hid := s.db.id_of_get hb
      exact ⟨b, .inl (hid ▸ hb), hid, e.symm⟩
    · exact ⟨a, .inr hc, rfl, rfl⟩
  refine ⟨fun ha hb hid h0 => ?_, fun ha h0 => ?_, hI.fresh, fun hc => (hI.below hc).trans_le hk.1⟩
  · obtain ⟨a', ha', ia, oa⟩ := back ha
    obtain ⟨b', hb', ib, ob⟩ := back hb
    have := hI.agree ha' hb' (by rw [ia, ib, hid]) (by rwa [ia])
    simp only [owner, Prod.mk.injEq] at oa ob
    exact ⟨oa.1 ▸ ob.1 ▸ this.1, oa.2 ▸ ob.2 ▸ this.2⟩
  · obtain ⟨a', ha', ia, oa⟩ := back ha
    simp only [owner, Prod.mk.injEq] at oa
    rw [← oa.2]
    exact hI.length ha' (by rwa [ia])

/-- The cache gains no pending node. -/
theorem ofCache (hI : OwnerInv count s) {cache : Cache}
    (hc : ∀ {k c rs}, cache.get k = some (.node c rs) → s.cache.get k = some (.node c rs)) :
    OwnerInv count { s with cache := cache } := by
  have back : ∀ {a}, Registry.Holds { s with cache := cache } a → s.Holds a := by
    rintro a (ha | ⟨k, rs, hk⟩)
    · exact .inl ha
    · exact .inr ⟨k, rs, hc hk⟩
  exact ⟨fun ha hb => hI.agree (back ha) (back hb), fun ha => hI.length (back ha),
    fun h => hI.fresh (hc h), fun h => hI.below (hc h)⟩

/-- A cache entry is deleted. -/
theorem erase (hI : OwnerInv count s) (k : Nat) : OwnerInv count { s with cache := s.cache.erase k } :=
  hI.ofCache fun h => by
    rw [Cache.get_erase] at h
    split at h
    · cases h
    · exact h

/-- A cache entry is set to a value that is not a node. -/
theorem setOther (hI : OwnerInv count s) (k : Nat) :
    OwnerInv count { s with cache := s.cache.set k .other } :=
  hI.ofCache fun h => by
    rw [Cache.get_set] at h
    split at h
    · cases h
    · exact h

/-- A node that fits, under an id already handed out, is cached. -/
theorem set (hI : OwnerInv count s) (k : Nat) {n : Node} (rs : List Route) (hn : Fits count s n)
    (hlt : n.id < s.db.nodes.next) : OwnerInv count { s with cache := s.cache.set k (.node n rs) } := by
  have hc : ∀ {k' c rs'}, (s.cache.set k (.node n rs)).get k' = some (.node c rs') →
      c = n ∨ s.cache.get k' = some (.node c rs') := by
    intro k' c rs' h; simp only [Cache.get_set] at h; split at h
    · cases h; exact .inl rfl
    · exact .inr h
  have back : ∀ {a}, Registry.Holds { s with cache := s.cache.set k (.node n rs) } a →
      a = n ∨ s.Holds a := by
    rintro a (ha | ⟨k', rs', hk'⟩)
    · exact .inr (.inl ha)
    · exact (hc hk').imp id fun h => .inr ⟨k', rs', h⟩
  refine ⟨fun ha hb hid h0 => ?_, fun ha h0 => ?_, fun h h0 => ?_, fun h => ?_⟩
  · rcases back ha with rfl | ha' <;> rcases back hb with rfl | hb'
    · exact ⟨rfl, rfl⟩
    · obtain ⟨hu, hi⟩ := hn.agree hb' hid.symm h0
      exact ⟨hu.symm, hi.symm⟩
    · exact hn.agree ha' hid (hid ▸ h0)
    · exact hI.agree ha' hb' hid h0
  · rcases back ha with rfl | ha'
    · exact hn.length h0
    · exact hI.length ha' h0
  · rcases hc h with rfl | h
    · exact hn.fresh h0
    · exact hI.fresh h h0
  · rcases hc h with rfl | h
    · exact hlt
    · exact hI.below h

/-- A node held under the id a save stores under was saved under its own
non-zero id: a new node goes under the next id, which no held node has. -/
theorem saved_id (hI : OwnerInv count s) {n b : Node} {rs : List Route} (hb : s.Holds b)
    (hbm : b.id = (s.db.saveNode n rs).1.id) : b.id = n.id ∧ n.id ≠ 0 := by
  have hlt : b.id < s.db.nodes.next := by
    rcases hb with hb | ⟨k, rs, hk⟩
    · exact s.db.nodes.lt_next_of_get hb
    · exact hI.below hk
  rw [Db.id_saveNode] at hbm
  split at hbm
  · omega
  · exact ⟨hbm, ‹_›⟩

/-- A node with `count` addresses that agrees with the held nodes under its id
is saved. -/
theorem saveNode (hI : OwnerInv count s) {n : Node} (rs : List Route) (hlen : n.ipAddresses.length = count)
    (hagree : ∀ {b}, s.Holds b → b.id = n.id → n.id ≠ 0 →
      b.userId = n.userId ∧ b.ipAddresses = n.ipAddresses) :
    OwnerInv count { s with db := (s.db.saveNode n rs).2 } := by
  set m := (s.db.saveNode n rs).1 with hm
  have hmn : owner m = owner n := by rw [hm, Db.saveNode_fst]; split <;> rfl
  simp only [owner, Prod.mk.injEq] at hmn
  have back : ∀ {a}, Registry.Holds { s with db := (s.db.saveNode n rs).2 } a → a = m ∨ s.Holds a := by
    rintro a (ha | hc)
    · simp only [Db.get_saveNode] at ha
      split at ha
      · exact .inl (Option.some.inj ha).symm
      · exact .inr (.inl ha)
    · exact .inr (.inr hc)
  have side : ∀ {b}, s.Holds b → b.id = m.id → m.userId = b.userId ∧ m.ipAddresses = b.ipAddresses := by
    intro b hb hbm
    obtain ⟨hbn, h0⟩ := hI.saved_id hb hbm
    obtain ⟨hu, hi⟩ := hagree hb hbn h0
    exact ⟨hmn.1.trans hu.symm, hmn.2.trans hi.symm⟩
  refine ⟨fun ha hb hid h0 => ?_, fun ha h0 => ?_, hI.fresh,
    fun hc => (hI.below hc).trans_le (s.db.next_le_saveNode n rs)⟩
  · rcases back ha with rfl | ha' <;> rcases back hb with rfl | hb'
    · exact ⟨rfl, rfl⟩
    · exact side hb' hid.symm
    · obtain ⟨hu, hi⟩ := side ha' hid
      exact ⟨hu.symm, hi.symm⟩
    · exact hI.agree ha' hb' hid h0
  · rcases back ha with rfl | ha'
    · rw [hmn.2, hlen]
    · exact hI.length ha' h0

/-- A node that fits is registered, with the allocator meeting its
assumption. -/
theorem registerNode {alloc : Db → Except Err (List Nat)} (hA : AllocSpec alloc count)
    (hI : OwnerInv count s) {node m : Node} {rs : List Route} {saveFails : Bool} {db' : Db}
    (hn : Fits count s node) (h : Headscale.registerNode alloc s.db node rs saveFails = .ok (m, db')) :
    OwnerInv count { s with db := db' } := by
  obtain ⟨ips, hsave, hne, hnil⟩ := registerNode_ok h
  have hdb : db' = (s.db.saveNode { node with ipAddresses := ips } rs).2 := congrArg Prod.snd hsave
  subst hdb
  have hips := saved_addresses hA hn.length hne hnil
  refine hI.saveNode rs ?_ fun hb hid h0 => ?_
  · by_cases he : node.ipAddresses = []
    · exact hA.length (hnil he)
    · have h0 : node.id ≠ 0 := fun h0 => he (hn.fresh h0)
      simpa [hips h0] using hn.length h0
  · obtain ⟨hu, hi⟩ := hn.agree hb hid h0
    exact ⟨hu, hi.trans (hips h0).symm⟩

end OwnerInv

/-! ## Pending nodes fit -/

/-- A node a pending source stands for fits. -/
theorem OwnerInv.fits_pending (hI : OwnerInv count s) {p : Pending} {n : Node}
    (hp : p.node s.db = some n) : Fits count s n ∧ n.id < s.db.nodes.next := by
  rcases Pending.node_cases hp with ⟨h0, hips⟩ | ⟨b, k, hb, rfl⟩
  · exact ⟨⟨fun _ => hips, fun h => absurd h0 h, fun _ _ h => absurd h0 h⟩, h0 ▸ s.db.nodes.next_pos⟩
  · have hf := hI.fits (.inl hb)
    exact ⟨⟨hf.fresh, hf.length, hf.agree⟩, s.db.nodes.lt_next_of_get hb⟩

/-- The pending node an approval binds fits, when its owner passed the check. -/
theorem OwnerInv.fits_authorize (hI : OwnerInv count s) {k : Nat} {c : Node} {rs : List Route}
    (hc : s.cache.get k = some (.node c rs)) (u : User) (hcheck : c.id ≠ 0 → c.userId = u.id)
    (nodeExpiry : Option Int) (method : String) :
    Fits count s (authorize c u nodeExpiry method) := by
  have hf := hI.fits (.inr ⟨k, rs, hc⟩)
  refine ⟨hf.fresh, hf.length, fun hb hid h0 => ?_⟩
  obtain ⟨hu, hi⟩ := hf.agree hb hid h0
  exact ⟨hu.trans (hcheck h0), hi⟩

/-! ## Every step -/

theorem OwnerInv.step {env : Env} (hA : AllocSpec env.getAvailableIPs count)
    (hI : OwnerInv count s) (op : Op) : OwnerInv count (s.step env op) := by
  have keepsAll : ∀ {db}, s.db.Keeps owner db → OwnerInv count { s with db := db } := hI.keeps
  have other : op.registers = false → op.renames = false → s.db.Keeps owner (s.step env op).db :=
    fun h₁ h₂ => keeps_step env s h₁ h₂ (by simp [owner])
  cases op with
  | registerNode p saveFails commit =>
    rcases step_registerNode_cases env s p saveFails commit with e | ⟨n, m, db', hp, hr, e⟩ <;>
      rw [e]
    · exact hI
    · exact hI.registerNode hA (hI.fits_pending hp).1 hr
  | registerNodeFromAuthCallback mkey userName nodeExpiry method saveFails commit =>
    rcases step_approval_cases env s mkey userName nodeExpiry method saveFails commit with
      e | ⟨c, rs, u, m, db', hc, -, hcheck, hreg, e⟩ <;> rw [e]
    · exact hI
    · cases commit
      · exact hI.erase mkey
      · exact (hI.registerNode hA (hI.fits_authorize hc u hcheck nodeExpiry method) hreg).erase mkey
  | renameNode nodeId newName fails commit =>
    exact keepsAll (keeps_step_renameNode env s nodeId newName fails commit (by simp [owner]))
  | cachePending mkey p =>
    simp only [Registry.step]
    split
    · exact hI
    · rename_i n hp
      exact hI.set mkey _ (hI.fits_pending hp).1 (hI.fits_pending hp).2
  | cacheOther mkey => exact hI.setOther mkey
  | evict mkey => exact hI.erase mkey
  | _ => exact keepsAll (other rfl rfl)

/-- Every registry reached from an empty one, by any interleaving, satisfies
`OwnerInv`. -/
theorem ownerInv_of_reaches {env : Env} (hA : AllocSpec env.getAvailableIPs count)
    {G : Registry → Op → Prop} {users : List User} {h₁ : (users.map User.id).Nodup}
    {h₂ : (users.map User.name).Nodup} (hs : Reaches env G (Registry.empty users h₁ h₂) s) :
    OwnerInv count s :=
  hs.induct_on (OwnerInv.empty users h₁ h₂) fun _ op hI _ => hI.step hA op

/-! ## Stable owners and addresses -/

/-- Every row stored in both `db` and `db'` has the same owner and addresses in
both. -/
def Db.KeepsOwners (db db' : Db) : Prop :=
  ∀ ⦃i n n'⦄, db.nodes.get i = some n → db'.nodes.get i = some n' → owner n' = owner n

theorem Db.Keeps.keepsOwners {db db' : Db} (h : db.Keeps owner db') : db.KeepsOwners db' := by
  intro i n n' hn hn'
  obtain ⟨m, hm, e⟩ := h.2 i n' hn'
  rw [hn] at hm
  cases hm
  exact e

/-- A registration of a node that fits keeps the owner and addresses of every
row stored before and after it: it saves the node under a new id, or over a
row it agrees with. -/
theorem OwnerInv.keepsOwners_registerNode {alloc : Db → Except Err (List Nat)}
    (hA : AllocSpec alloc count) (hI : OwnerInv count s) {node m : Node} {rs : List Route}
    {saveFails : Bool} {db' : Db} (hn : Fits count s node)
    (h : Headscale.registerNode alloc s.db node rs saveFails = .ok (m, db')) : s.db.KeepsOwners db' := by
  obtain ⟨ips, hsave, hne, hnil⟩ := registerNode_ok h
  rw [show db' = _ from congrArg Prod.snd hsave]
  intro i b b' hb hb'
  rw [Db.get_saveNode] at hb'
  split at hb'
  · rename_i hi
    cases hb'
    have hheld : s.Holds b := .inl (s.db.id_of_get hb ▸ hb)
    obtain ⟨hbn, h0⟩ := hI.saved_id hheld ((s.db.id_of_get hb).trans hi)
    obtain ⟨hu, hip⟩ := hn.agree hheld hbn h0
    rw [Db.saveNode_fst, if_neg h0]
    simp only [owner, saved_addresses hA hn.length hne hnil h0, hu, hip]
  · rw [hb] at hb'
    cases hb'
    rfl

/-- Every request keeps the owner and addresses of every node stored before
and after it. -/
theorem OwnerInv.keepsOwners_step {env : Env} (hA : AllocSpec env.getAvailableIPs count)
    (hI : OwnerInv count s) (op : Op) : s.db.KeepsOwners (s.step env op).db := by
  have unchanged : s.db.KeepsOwners s.db := (Db.Keeps.refl s.db).keepsOwners
  have other : op.registers = false → op.renames = false → s.db.KeepsOwners (s.step env op).db :=
    fun h₁ h₂ => (keeps_step env s h₁ h₂ (by simp [owner])).keepsOwners
  cases op with
  | registerNode p saveFails commit =>
    rcases step_registerNode_cases env s p saveFails commit with e | ⟨n, m, db', hp, hr, e⟩ <;>
      rw [e]
    · exact unchanged
    · exact hI.keepsOwners_registerNode hA (hI.fits_pending hp).1 hr
  | registerNodeFromAuthCallback mkey userName nodeExpiry method saveFails commit =>
    rcases step_approval_cases env s mkey userName nodeExpiry method saveFails commit with
      e | ⟨c, rs, u, m, db', hc, -, hcheck, hreg, e⟩ <;> rw [e]
    · exact unchanged
    · cases commit
      · exact unchanged
      · exact hI.keepsOwners_registerNode hA (hI.fits_authorize hc u hcheck nodeExpiry method) hreg
  | renameNode nodeId newName fails commit =>
    exact (keeps_step_renameNode env s nodeId newName fails commit (by simp [owner])).keepsOwners
  | _ => exact other rfl rfl

/-- From a registry reached from an empty one, a node that is stored when each
request of a run starts, and at its end, has the owner and addresses it had at
its start: re-registrations, approvals of its copies, key rotations and every
other request keep them. -/
theorem owner_and_addresses_stable {env : Env} (hA : AllocSpec env.getAvailableIPs count)
    {users : List User} {h₁ : (users.map User.id).Nodup} {h₂ : (users.map User.name).Nodup}
    {s₁ s₂ : Registry} (hs : Reaches env (fun _ _ => True) (Registry.empty users h₁ h₂) s₁)
    {i : Nat} (hrun : Reaches env (fun s _ => (s.db.nodes.get i).isSome) s₁ s₂) {n₁ n₂ : Node}
    (hn₁ : s₁.db.nodes.get i = some n₁) (hn₂ : s₂.db.nodes.get i = some n₂) :
    n₂.userId = n₁.userId ∧ n₂.ipAddresses = n₁.ipAddresses := by
  have key : OwnerInv count s₂ ∧ ∀ n, s₂.db.nodes.get i = some n → owner n = owner n₁ := by
    clear hn₂
    induction hrun with
    | refl => exact ⟨ownerInv_of_reaches hA hs, fun n h => by rw [hn₁] at h; cases h; rfl⟩
    | step _ hG ih =>
      obtain ⟨hI, ho⟩ := ih
      obtain ⟨n, hn⟩ := Option.isSome_iff_exists.1 hG
      exact ⟨hI.step hA _, fun n' hn' => (hI.keepsOwners_step hA _ hn hn').trans (ho n hn)⟩
  simpa [owner] using key.2 n₂ hn₂

/-- The laptop, once registered, rotates its node key twice: by a re-registration
and by `NodeSetNodeKey`. -/
def rotationRun : List Op :=
  [.registerNode (.stored 1 9) false true, .nodeSetNodeKey { laptop with id := 1 } 10 false true,
    .registerNode (.stored 1 11) false true]

theorem owner_and_addresses_stable_laptop :
    let s₁ := sampleRegistry.run sampleEnv [.registerNode (.fresh laptop) false true]
    let s₂ := s₁.run sampleEnv rotationRun
    let n₁ : Node := { laptop with id := 1, ipAddresses := [1] }
    let n₂ : Node := { laptop with id := 1, nodeKey := 11, ipAddresses := [1] }
    AllocSpec sampleEnv.getAvailableIPs 1 ∧ Reaches sampleEnv (fun _ _ => True) sampleRegistry s₁ ∧
      Reaches sampleEnv (fun s _ => (s.db.nodes.get 1).isSome) s₁ s₂ ∧
      s₁.db.nodes.get 1 = some n₁ ∧ s₂.db.nodes.get 1 = some n₂ ∧
      n₂.userId = n₁.userId ∧ n₂.ipAddresses = n₁.ipAddresses := by
  intro s₁ s₂ n₁ n₂
  have hA := getAvailableIPs_allocSpec [⟨1, 254⟩]
  have hs := reaches_run sampleEnv sampleRegistry [.registerNode (.fresh laptop) false true]
  have hrun : Reaches sampleEnv (fun s _ => (s.db.nodes.get 1).isSome) s₁ s₂ :=
    Reaches.refl.run_of_allowed ⟨by decide, by decide, by decide, trivial⟩
  have hn₁ : s₁.db.nodes.get 1 = some n₁ := by decide
  have hn₂ : s₂.db.nodes.get 1 = some n₂ := by decide
  exact ⟨hA, hs, hrun, hn₁, hn₂, owner_and_addresses_stable hA hs hrun hn₁ hn₂⟩

/-! ## Re-authorization -/

/-- Approving a pending copy of a stored node leaves that node's owner and
addresses as they were, whether the approval fails, is rolled back or commits;
and an approval under a user other than the node's owner is refused with
`ErrDifferentRegisteredUser`, the registry and the cache untouched. -/
theorem reauthorization_keeps_owner_and_addresses {env : Env}
    (hA : AllocSpec env.getAvailableIPs count) {users : List User}
    {h₁ : (users.map User.id).Nodup} {h₂ : (users.map User.name).Nodup}
    (hs : Reaches env (fun _ _ => True) (Registry.empty users h₁ h₂) s) {mkey : Nat} {c n : Node}
    {rs : List Route} (hc : s.cache.get mkey = some (.node c rs)) (hn : s.db.nodes.get c.id = some n)
    (userName : String) (nodeExpiry : Option Int) (method : String) (saveFails commit : Bool) :
    (∃ n', (s.step env (.registerNodeFromAuthCallback mkey userName nodeExpiry method saveFails
        commit)).db.nodes.get c.id = some n' ∧
        n'.userId = n.userId ∧ n'.ipAddresses = n.ipAddresses) ∧
    ∀ u, getUser s.db userName = .ok u → u.id ≠ n.userId →
      registerNodeFromAuthCallback env.getAvailableIPs s.db s.cache mkey userName nodeExpiry
          method saveFails = (.error .differentRegisteredUser, s.cache) ∧
        s.step env (.registerNodeFromAuthCallback mkey userName nodeExpiry method saveFails
          commit) = s := by
  have hI := ownerInv_of_reaches hA hs
  have h0 : c.id ≠ 0 := s.db.nodes.ne_zero_of_get hn
  have hnid := s.db.id_of_get hn
  -- the cached copy agrees with the stored row
  obtain ⟨hu, hi⟩ := hI.agree (.inr ⟨mkey, rs, hc⟩) (.inl (hnid ▸ hn)) hnid.symm h0
  refine ⟨?_, fun u hgu hne => ?_⟩
  · simp only [Registry.step]
    rcases hr : registerNodeFromAuthCallback env.getAvailableIPs s.db s.cache mkey userName
      nodeExpiry method saveFails with ⟨_ | ⟨m, db'⟩, cache'⟩
    · exact ⟨n, hn, rfl, rfl⟩
    · obtain ⟨u, ips, -, hcu, hget, hne, hnil⟩ := registerNodeFromAuthCallback_stores hc h0 hr
      cases commit
      · exact ⟨n, hn, rfl, rfl⟩
      · have hips := saved_addresses hA (hI.fits (.inr ⟨mkey, rs, hc⟩)).length hne hnil h0
        exact ⟨_, hget, by simp [authorize, ← hcu, hu], by simp [hips, hi]⟩
  · have hdiff : registerNodeFromAuthCallback env.getAvailableIPs s.db s.cache mkey userName
        nodeExpiry method saveFails = (.error .differentRegisteredUser, s.cache) :=
      registerNodeFromAuthCallback_differentUser hc hgu h0 (by rw [hu]; exact fun h => hne h.symm)
    exact ⟨hdiff, by simp only [Registry.step, hdiff]; rfl⟩

/-- A registered laptop, and a pending copy of it under a new node key. -/
def reauthorizationRun : List Op :=
  [.registerNode (.fresh laptop) false true, .cachePending 7 (.stored 1 9)]

theorem reauthorization_keeps_owner_and_addresses_laptop :
    let s := sampleRegistry.run sampleEnv reauthorizationRun
    s.cache.get 7 = some (.node { laptop with id := 1, nodeKey := 9, ipAddresses := [1] } []) ∧
      s.db.nodes.get 1 = some { laptop with id := 1, ipAddresses := [1] } ∧
      (∃ n', (s.step sampleEnv (.registerNodeFromAuthCallback 7 "alice" none "cli" false
          true)).db.nodes.get 1 = some n' ∧ n'.userId = 1 ∧ n'.ipAddresses = [1]) := by
  intro s
  have hc : s.cache.get 7 = some (.node { laptop with id := 1, nodeKey := 9, ipAddresses := [1] } []) := by
    decide
  have hn : s.db.nodes.get 1 = some { laptop with id := 1, ipAddresses := [1] } := by decide
  exact ⟨hc, hn, (reauthorization_keeps_owner_and_addresses (getAvailableIPs_allocSpec _)
    (reaches_run _ _ _) hc hn "alice" none "cli" false true).1⟩

/-! ## Disjoint addresses -/

/-- No two stored nodes share an address. -/
def Db.AddressesDisjoint (db : Db) : Prop :=
  ∀ ⦃i j a b⦄, db.nodes.get i = some a → db.nodes.get j = some b → i ≠ j →
    ∀ ip ∈ a.ipAddresses, ip ∉ b.ipAddresses

/-- The runs `addresses_disjoint_of_approvals_stored` covers: a pending copy of
a node is approved only while that node is stored. -/
def ApprovesStored (s : Registry) : Op → Prop
  | .registerNodeFromAuthCallback mkey .. =>
    ∀ c rs, s.cache.get mkey = some (.node c rs) → c.id ≠ 0 → (s.db.nodes.get c.id).isSome
  | _ => True

namespace Db.AddressesDisjoint

variable {db db' : Db}

theorem empty (users : List User) (h₁ : (users.map User.id).Nodup)
    (h₂ : (users.map User.name).Nodup) : (Db.empty users h₁ h₂).AddressesDisjoint :=
  fun _ _ _ _ h => by cases h

theorem keeps (hD : db.AddressesDisjoint) (hk : db.Keeps Node.ipAddresses db') :
    db'.AddressesDisjoint := by
  intro i j a b ha hb hij ip hia hib
  obtain ⟨a', ha', ea⟩ := hk.2 _ _ ha
  obtain ⟨b', hb', eb⟩ := hk.2 _ _ hb
  exact hD ha' hb' hij ip (ea ▸ hia) (eb ▸ hib)

/-- A node is saved whose addresses no row under another id holds. -/
theorem saveNode (hD : db.AddressesDisjoint) {n : Node} (rs : List Route)
    (hn : ∀ {j b}, db.nodes.get j = some b → j ≠ (db.saveNode n rs).1.id →
      ∀ ip ∈ n.ipAddresses, ip ∉ b.ipAddresses) :
    (db.saveNode n rs).2.AddressesDisjoint := by
  have hm : (db.saveNode n rs).1.ipAddresses = n.ipAddresses := by
    rw [Db.saveNode_fst]; split <;> rfl
  intro i j a b ha hb hij ip hia hib
  simp only [Db.get_saveNode] at ha hb
  split at ha <;> split at hb
  · rename_i hi hj; exact hij (hi.trans hj.symm)
  · rename_i hj; cases ha; exact hn hb hj ip (hm ▸ hia) hib
  · rename_i hi _; cases hb; exact hn ha hi ip (hm ▸ hib) hia
  · exact hD ha hb hij ip hia hib

/-- A registration keeps addresses disjoint when the node it registers fits
and, under a handed-out id, that id is still stored. -/
theorem registerNode {count : Nat} {s : Registry} {alloc : Db → Except Err (List Nat)}
    (hA : AllocSpec alloc count) (hD : s.db.AddressesDisjoint) {node m : Node} {rs : List Route}
    {saveFails : Bool} (hn : Fits count s node)
    (hst : node.id ≠ 0 → (s.db.nodes.get node.id).isSome)
    (h : Headscale.registerNode alloc s.db node rs saveFails = .ok (m, db')) :
    db'.AddressesDisjoint := by
  obtain ⟨ips, hsave, hne, hnil⟩ := registerNode_ok h
  have hdb : db' = (s.db.saveNode { node with ipAddresses := ips } rs).2 := congrArg Prod.snd hsave
  subst hdb
  refine hD.saveNode rs fun {j b} hb hj ip hip hipb => ?_
  by_cases h0 : node.id = 0
  · -- a new node: the allocator's addresses are held by no stored node
    exact hA.fresh (hnil (hn.fresh h0)) ip hip b (s.db.nodes.mem_rows_of_get hb) hipb
  · -- a stored node: its row holds the same addresses, and no other row shares them
    obtain ⟨b₀, hb₀⟩ := Option.isSome_iff_exists.1 (hst h0)
    have hid₀ := s.db.id_of_get hb₀
    have hi := (hn.agree (.inl (hid₀ ▸ hb₀)) hid₀ h0).2
    have hips := saved_addresses hA hn.length hne hnil h0
    have hj' : j ≠ node.id := by simpa [Db.id_saveNode, h0] using hj
    exact hD hb₀ hb (Ne.symm hj') ip (by rw [hi, ← hips]; exact hip) hipb

/-- A request the guard allows keeps addresses disjoint. -/
theorem step {count : Nat} {s : Registry} {env : Env} (hA : AllocSpec env.getAvailableIPs count)
    (hI : OwnerInv count s) (hD : s.db.AddressesDisjoint) {op : Op} (hG : ApprovesStored s op) :
    (s.step env op).db.AddressesDisjoint := by
  have other : op.registers = false → op.renames = false → (s.step env op).db.AddressesDisjoint :=
    fun h₁ h₂ => hD.keeps (keeps_step env s h₁ h₂ (by simp))
  cases op with
  | registerNode p saveFails commit =>
    rcases step_registerNode_cases env s p saveFails commit with e | ⟨n, m, db', hp, hr, e⟩ <;>
      rw [e]
    · exact hD
    · refine hD.registerNode hA (hI.fits_pending hp).1 (fun h0 => ?_) hr
      rcases Pending.node_cases hp with ⟨h, -⟩ | ⟨b, k, hb, rfl⟩
      · exact absurd h h0
      · exact Option.isSome_iff_exists.2 ⟨b, hb⟩
  | registerNodeFromAuthCallback mkey userName nodeExpiry method saveFails commit =>
    rcases step_approval_cases env s mkey userName nodeExpiry method saveFails commit with
      e | ⟨c, rs, u, m, db', hc, -, hcheck, hreg, e⟩ <;> rw [e]
    · exact hD
    · cases commit
      · exact hD
      · exact hD.registerNode hA (hI.fits_authorize hc u hcheck nodeExpiry method) (hG c rs hc) hreg
  | renameNode nodeId newName fails commit =>
    exact hD.keeps (keeps_step_renameNode env s nodeId newName fails commit (by simp))
  | _ => exact other rfl rfl

end Db.AddressesDisjoint

/-- No two stored nodes share an address, in every registry reached from an
empty one by runs in which each pending copy is approved while its node is
stored, with an allocator that hands out addresses no stored node holds. -/
theorem addresses_disjoint_of_approvals_stored {env : Env}
    (hA : AllocSpec env.getAvailableIPs count) {users : List User}
    {h₁ : (users.map User.id).Nodup} {h₂ : (users.map User.name).Nodup}
    (hs : Reaches env ApprovesStored (Registry.empty users h₁ h₂) s) : s.db.AddressesDisjoint := by
  induction hs with
  | refl => exact .empty users h₁ h₂
  | step hr hG ih => exact ih.step hA (ownerInv_of_reaches hA hr) hG

/-- The laptop is registered, a copy of it is cached and approved. -/
def approvalRun : List Op :=
  reauthorizationRun ++ [.registerNodeFromAuthCallback 7 "alice" none "cli" false true]

example : (sampleRegistry.run sampleEnv approvalRun).db.AddressesDisjoint := by
  have hc : (sampleRegistry.run sampleEnv reauthorizationRun).cache.get 7 =
      some (.node { laptop with id := 1, nodeKey := 9, ipAddresses := [1] } []) := by decide
  refine addresses_disjoint_of_approvals_stored (getAvailableIPs_allocSpec _)
    (Reaches.refl.run_of_allowed ⟨trivial, trivial, fun c rs hc' _ => ?_, trivial⟩)
  cases hc.symm.trans hc'
  decide

/-- The laptop is registered and a copy of it cached; the laptop is deleted and
its address goes to a second device; then the stale copy is approved, and saved
back under the laptop's id with the address the second device now holds. -/
def staleCopyRun : List Op :=
  reauthorizationRun ++
    [.deleteNode { laptop with id := 1 } {} true,
      .registerNode (.fresh { laptop with machineKey := 5 }) false true,
      .registerNodeFromAuthCallback 7 "alice" none "cli" false true]

theorem stale_copy_shares_addresses :
    AllocSpec sampleEnv.getAvailableIPs 1 ∧
      Reaches sampleEnv (fun _ _ => True) sampleRegistry (sampleRegistry.run sampleEnv staleCopyRun) ∧
      ¬(sampleRegistry.run sampleEnv staleCopyRun).db.AddressesDisjoint := by
  refine ⟨getAvailableIPs_allocSpec _, reaches_run _ _ _, fun h => ?_⟩
  have h₁ : ((sampleRegistry.run sampleEnv staleCopyRun).db.nodes.get 1).map Node.ipAddresses =
      some [1] := by decide
  have h₂ : ((sampleRegistry.run sampleEnv staleCopyRun).db.nodes.get 2).map Node.ipAddresses =
      some [1] := by decide
  obtain ⟨a, ha, ea⟩ := Option.map_eq_some'.1 h₁
  obtain ⟨b, hb, eb⟩ := Option.map_eq_some'.1 h₂
  exact h ha hb (by decide) 1 (by simp [ea]) (by simp [eb])

end Headscale
