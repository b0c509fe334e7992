import Headscale.System

/-!
# Headscale.Frame

What a request leaves alone.  `Db.Keeps π db db'` says that `db'` has no node
row `db` did not have, keeps `π` of every row it has, and does not move the
next node key back.  Every request of node.go other than the two registration
paths keeps every `π` that its column writes leave alone: deletion only
erases, `enableRoutes` writes routes only, the sweeps delete nodes or write
their expiry, and the setters write one column each.

The layering follows the code: one lemma per store write, then one per loop
(by induction over the rows it walks), then one per function, and finally
`keeps_step` for a whole request.  The invariants of the registry are proved
from these and never unfold a request.
-/

namespace Headscale

/-- `db'` adds no node row, keeps `π` of each row it keeps, and does not move
the next node key back. -/
def Db.Keeps {β : Type} (π : Node → β) (db db' : Db) : Prop :=
  db.nodes.next ≤ db'.nodes.next ∧
    ∀ i n', db'.nodes.get i = some n' → ∃ n, db.nodes.get i = some n ∧ π n' = π n

namespace Db.Keeps

variable {β : Type} {π : Node → β} {db db' db'' : Db}

theorem refl (db : Db) : db.Keeps π db := ⟨le_rfl, fun _ n h => ⟨n, h, rfl⟩⟩

theorem trans (h₁ : db.Keeps π db') (h₂ : db'.Keeps π db'') : db.Keeps π db'' := by
  refine ⟨h₁.1.trans h₂.1, fun i n h => ?_⟩
  obtain ⟨m, hm, e⟩ := h₂.2 i n h
  obtain ⟨k, hk, e'⟩ := h₁.2 i m hm
  exact ⟨k, hk, e.trans e'⟩

/-- A write that leaves the node table as it is keeps every projection. -/
theorem of_nodes_eq (h : db'.nodes = db.nodes) : db.Keeps π db' := by
  unfold Db.Keeps; rw [h]; exact refl db

theorem eraseNode (db : Db) (i : Nat) : db.Keeps π (db.eraseNode i) := by
  refine ⟨le_rfl, fun j n h => ⟨n, ?_, rfl⟩⟩
  simp only [nodes_eraseNode, Table.get_erase] at h
  split at h
  · cases h
  · exact h

theorem updateNode (db : Db) (i : Nat) {c : Column} (hc : ∀ n, π (c.apply n) = π n) :
    db.Keeps π (db.updateNode i c) := by
  refine ⟨le_rfl, fun j n h => ?_⟩
  simp only [nodes_updateNode, Table.get_update] at h
  split at h
  · obtain ⟨m, hm, rfl⟩ := Option.map_eq_some'.1 h
    exact ⟨m, hm, hc m⟩
  · exact ⟨n, h, rfl⟩

end Db.Keeps

open Db.Keeps

variable {β : Type} {π : Node → β}

/-! ## Writes of the loops -/

theorem nodes_deleteRouteRows (fails : Nat → Bool) (rs : List Route) (db : Db) :
    (deleteRouteRows fails rs db).2.nodes = db.nodes := by
  induction rs generalizing db with
  | nil => rfl
  | cons r rs ih =>
    simp only [deleteRouteRows]
    split
    · rfl
    · exact ih _

theorem nodes_deleteNodeRoutes (db : Db) (node : Node) (f : DeleteFaults) :
    (deleteNodeRoutes db node f).2.nodes = db.nodes := by
  unfold deleteNodeRoutes; split
  · rfl
  · exact nodes_deleteRouteRows _ _ _

/-- `DeleteNode` at most erases the node's own row. -/
theorem nodes_deleteNode (db : Db) (node : Node) (f : DeleteFaults) :
    (deleteNode db node f).2.nodes = db.nodes ∨
      (deleteNode db node f).2.nodes = db.nodes.erase node.id := by
  unfold deleteNode
  have h := nodes_deleteNodeRoutes db node f
  split
  · rename_i hd; left; rw [hd] at h; exact h
  · rename_i hd
    rw [hd] at h
    split
    · exact .inl h
    · exact .inr (by simp only at h; simp [h])

theorem users_deleteRouteRows (fails : Nat → Bool) (rs : List Route) (db : Db) :
    (deleteRouteRows fails rs db).2.users = db.users := by
  induction rs generalizing db with
  | nil => rfl
  | cons r rs ih =>
    simp only [deleteRouteRows]
    split
    · rfl
    · exact ih _

theorem users_deleteNode (db : Db) (node : Node) (f : DeleteFaults) :
    (deleteNode db node f).2.users = db.users := by
  unfold deleteNode deleteNodeRoutes
  have h := users_deleteRouteRows f.route (getNodeRoutes db node) db
  split
  · rename_i hd; split at hd
    · cases hd; rfl
    · rw [hd] at h; exact h
  · rename_i hd; split at hd
    · cases hd
    · rw [hd] at h; split <;> exact h

theorem keeps_deleteNode (db : Db) (node : Node) (f : DeleteFaults) :
    db.Keeps π (deleteNode db node f).2 := by
  rcases nodes_deleteNode db node f with h | h
  · exact of_nodes_eq h
  · exact (eraseNode db node.id).trans (of_nodes_eq (by simpa using h))

theorem nodes_enableRouteRows (isUnique : List Route → Route → Bool) (node : Node)
    (f : EnableFaults) (ps : List Prefix) (db : Db) :
    (enableRouteRows isUnique node f ps db).2.nodes = db.nodes := by
  induction ps generalizing db with
  | nil => rfl
  | cons p ps ih =>
    simp only [enableRouteRows]
    split
    · rfl
    · rename_i db' h
      obtain ⟨_, _, rfl⟩ := enableRoute_ok h
      exact ih _

theorem nodes_enableRoutes (parsePrefix : String → Option Prefix)
    (isUnique : List Route → Route → Bool) (db : Db) (node : Node) (routeStrs : List String)
    (f : EnableFaults) : (enableRoutes parsePrefix isUnique db node routeStrs f).2.nodes = db.nodes := by
  rcases enableRoutes_snd parsePrefix routeStrs with h | ⟨ps, h⟩ <;> rw [h]
  exact nodes_enableRouteRows isUnique node f ps db

theorem keeps_expireUserNodes (now : Nat → Int) (thr : Int) (f : Nat → DeleteFaults)
    (nodes : List Node) (db : Db) (expired : List Nat) :
    db.Keeps π (expireUserNodes now thr f nodes db expired).1 := by
  induction nodes generalizing db expired with
  | nil => exact refl db
  | cons node rest ih =>
    simp only [expireUserNodes]
    split
    · exact (keeps_deleteNode db node _).trans (ih _ _)
    · exact ih _ _

theorem keeps_expireUsers (o : ScanOrder) (now : Nat → Int) (thr : Int) (f : EphemeralFaults)
    (users : List User) (db : Db) (expired : List Nat) :
    db.Keeps π (expireUsers o now thr f users db expired).2 := by
  induction users generalizing db expired with
  | nil => exact refl db
  | cons user rest ih =>
    simp only [expireUsers]
    split
    · exact refl db
    · exact (keeps_expireUserNodes now thr f.delete _ db expired).trans (ih _ _)

theorem keeps_expireEphemeralNodes (o : ScanOrder) (now : Nat → Int) (thr : Int)
    (f : EphemeralFaults) (db : Db) : db.Keeps π (expireEphemeralNodes o now thr f db).2 := by
  rw [expireEphemeralNodes_snd]
  split
  · exact refl db
  · exact keeps_expireUsers o now thr f db.users db []

section Expiry

variable (hπ : ∀ t n, π ((Column.expiry t).apply n) = π n)
include hπ

theorem keeps_expireNodes (clk : ExpiryClock) (lastCheck : Int) (fails : Nat → Bool)
    (nodes : List Node) (db : Db) (expired : List PeerChange) :
    db.Keeps π (expireNodes clk lastCheck fails nodes db expired).1 := by
  induction nodes generalizing db expired with
  | nil => exact refl db
  | cons node rest ih =>
    simp only [expireNodes]
    split
    · refine Db.Keeps.trans ?_ (ih _ _)
      split
      · exact refl db
      · exact updateNode db _ (hπ _)
    · exact ih _ _

theorem keeps_expireExpiredNodes (o : ScanOrder) (clk : ExpiryClock) (lastCheck : Int)
    (f : ExpiryFaults) (db : Db) : db.Keeps π (expireExpiredNodes o clk lastCheck f db).2 := by
  rw [expireExpiredNodes_snd]
  split
  · exact refl db
  · exact keeps_expireNodes hπ clk lastCheck f.update (listNodes o db) db []

end Expiry

/-! ## Setters -/

theorem keeps_foldl_updateNode (i : Nat) (cs : List Column) (hc : ∀ c ∈ cs, ∀ n, π (c.apply n) = π n)
    (db : Db) : db.Keeps π (cs.foldl (fun d c => d.updateNode i c) db) := by
  induction cs generalizing db with
  | nil => exact refl db
  | cons c cs ih =>
    exact (updateNode db i (hc c (List.mem_cons_self _ _))).trans
      (ih (fun c' h => hc c' (List.mem_cons_of_mem _ h)) _)

theorem keeps_updateNodeColumns {db db' : Db} {i : Nat} {cs : List Column} {fails : Bool}
    (hc : ∀ c ∈ cs, ∀ n, π (c.apply n) = π n) (h : updateNodeColumns db i cs fails = .ok db') :
    db.Keeps π db' := by
  unfold updateNodeColumns at h
  split at h
  · cases h
  · cases h; exact keeps_foldl_updateNode i cs hc db

/-! ## Requests -/

/-- The requests that save a node. -/
def Op.registers : Op → Bool
  | .registerNode .. | .registerNodeFromAuthCallback .. => true
  | _ => false

/-- The request that writes a given name. -/
def Op.renames : Op → Bool
  | .renameNode .. => true
  | _ => false

/-- The column a rename writes. -/
def Column.isGivenName : Column → Bool
  | .givenName _ => true
  | _ => false

theorem Column.givenName_apply {c : Column} (hc : c.isGivenName = false) (n : Node) :
    (c.apply n).givenName = n.givenName := by
  cases c <;> first | rfl | cases hc

/-- A request that neither registers nor renames keeps every projection of the
node rows that the other column writes leave alone. -/
theorem keeps_step (env : Env) (s : Registry) {op : Op} (hreg : op.registers = false)
    (hren : op.renames = false) (hπ : ∀ (c : Column) n, c.isGivenName = false → π (c.apply n) = π n) :
    s.db.Keeps π (s.step env op).db := by
  have col : ∀ c : Column, c.isGivenName = false → ∀ n, π (c.apply n) = π n :=
    fun c hc n => hπ c n hc
  cases op with
  | registerNode => simp [Op.registers] at hreg
  | registerNodeFromAuthCallback => simp [Op.registers] at hreg
  | renameNode => simp [Op.renames] at hren
  | deleteNode node f commit => exact write_of (refl _) (keeps_deleteNode _ _ _)
  | setTags nodeId tags fails commit =>
    refine settle_of (refl _) fun db' h => ?_
    rcases setTags_ok h with rfl | hu
    · exact refl _
    · exact keeps_updateNodeColumns (by simpa using col (.forcedTags (dedupTags [] tags)) rfl) hu
  | nodeSetExpiry nodeId expiry fails commit =>
    exact settle_of (refl _) fun db' h =>
      keeps_updateNodeColumns (by simpa using col (.expiry expiry) rfl) h
  | updateLastSeen nodeId lastSeen fails commit =>
    exact settle_of (refl _) fun db' h =>
      keeps_updateNodeColumns (by simpa using col (.lastSeen lastSeen) rfl) h
  | nodeSetNodeKey node nodeKey fails commit =>
    refine settle_of (refl _) fun db' h => keeps_updateNodeColumns ?_ h
    split
    · simp
    · simpa using col (.nodeKey nodeKey) rfl
  | nodeSetMachineKey node machineKey fails commit =>
    refine settle_of (refl _) fun db' h => keeps_updateNodeColumns ?_ h
    split
    · simp
    · simpa using col (.machineKey machineKey) rfl
  | enableRoutes node routeStrs f commit =>
    exact write_of (refl _) (of_nodes_eq (nodes_enableRoutes _ _ _ _ _ _))
  | expireEphemeralNodes o now thr f commit =>
    exact settle_of (refl _) fun db' h => by
      cases h; exact keeps_expireEphemeralNodes o now thr f s.db
  | expireExpiredNodes o clk lastCheck f commit =>
    exact settle_of (refl _) fun db' h => by
      cases h; exact keeps_expireExpiredNodes (fun t => col (.expiry t) rfl) o clk lastCheck f s.db
  | cachePending mkey p => simp only [Registry.step]; split <;> exact refl _
  | cacheOther => exact refl _
  | evict => exact refl _

/-- A rename keeps every projection of the node rows that column writes leave
alone. -/
theorem keeps_step_renameNode (env : Env) (s : Registry) (nodeId : Nat) (newName : String)
    (fails commit : Bool) (hπ : ∀ (c : Column) n, π (c.apply n) = π n) :
    s.db.Keeps π (s.step env (.renameNode nodeId newName fails commit)).db := by
  refine settle_of (refl _) fun db' h => ?_
  rw [(renameNode_ok h).2]
  exact updateNode s.db nodeId (hπ _)

end Headscale
