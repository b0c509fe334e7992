import Headscale.Routes
import Headscale.Sweeps

/-!
# Headscale.System

The registry as a system: the store and the registration cache, changed by
devices' and administrators' requests in any interleaving.

Each request of node.go runs in a transaction of its own, so a run is a
sequence of `Op`s, each `Registry.step` either committing its writes or leaving
the store as it was (an error, or a failed commit).  The registration cache is
outside every transaction: devices add pending entries to it (`cachePending`),
entries expire (`evict`), and `RegisterNodeFromAuthCallback` deletes the entry
it approved whether or not its transaction then commits.

A pending entry, and the node a direct `RegisterNode` gets, is either a new
device's node (id `0`, no addresses, no routes) or a copy of a stored node as
it is when the copy is taken, carrying the device's new node key and the
node's route rows, which the lookup it comes from preloads (`Pending`).  The
copy keeps those routes while it waits in the cache, and `RegisterNode`'s
`tx.Save` writes them back (`Db.upsertRoute`).

`Reaches env G s₀ s` says that `s` is reached from `s₀` by steps each allowed by
the guard `G`; the invariants of every run take `G` to allow everything.
-/

namespace Headscale

/-- The collaborators node.go calls that are not under src/: the address
allocator over the configured prefixes, `isUniquePrefix`, and
`netip.ParsePrefix`. -/
structure Env where
  getAvailableIPs : Db → Except Err (List Nat)
  isUniquePrefix : List Route → Route → Bool
  parsePrefix : String → Option Prefix

/-- The store and the registration cache. -/
structure Registry where
  db : Db
  cache : Cache

/-- An empty registry over a user directory. -/
def Registry.empty (users : List User) (h₁ : (users.map User.id).Nodup)
    (h₂ : (users.map User.name).Nodup) : Registry :=
  ⟨.empty users h₁ h₂, .empty⟩

/-- Where a pending node comes from. -/
inductive Pending where
  /-- A new device's node: its id is zero and it has no addresses yet. -/
  | fresh (n : Node)
  /-- A re-authorization: a copy of the stored node `id`, with the node key the
  device now presents. -/
  | stored (id nodeKey : Nat)

/-- The node a pending source stands for, when there is one. -/
def Pending.node (db : Db) : Pending → Option Node
  | .fresh n => some { n with id := 0, ipAddresses := [] }
  | .stored i k => (db.nodes.get i).map fun n => { n with nodeKey := k }

/-- The routes the pending node's value carries: none for a new device's node,
and for a copy the route rows of the stored node, which `Preload("Routes")`
loads with it. -/
def Pending.routes (db : Db) : Pending → List Route
  | .fresh _ => []
  | .stored i _ => db.routes.rows.filter (·.nodeId = i)

/-- The requests: the mutations of node.go, each with the failures its store
calls meet and whether its transaction commits, and the cache's own events. -/
inductive Op where
  | registerNode (p : Pending) (saveFails commit : Bool)
  | registerNodeFromAuthCallback (mkey : Nat) (userName : String) (nodeExpiry : Option Int)
      (registrationMethod : String) (saveFails commit : Bool)
  | deleteNode (node : Node) (f : DeleteFaults) (commit : Bool)
  | setTags (nodeId : Nat) (tags : List String) (fails commit : Bool)
  | renameNode (nodeId : Nat) (newName : String) (fails commit : Bool)
  | nodeSetExpiry (nodeId : Nat) (expiry : Int) (fails commit : Bool)
  | updateLastSeen (nodeId : Nat) (lastSeen : Int) (fails commit : Bool)
  | nodeSetNodeKey (node : Node) (nodeKey : Nat) (fails commit : Bool)
  | nodeSetMachineKey (node : Node) (machineKey : Nat) (fails commit : Bool)
  | enableRoutes (node : Node) (routeStrs : List String) (f : EnableFaults) (commit : Bool)
  | expireEphemeralNodes (o : ScanOrder) (now : Nat → Int) (inactivityThreshhold : Int)
      (f : EphemeralFaults) (commit : Bool)
  | expireExpiredNodes (o : ScanOrder) (clk : ExpiryClock) (lastCheck : Int) (f : ExpiryFaults)
      (commit : Bool)
  | cachePending (mkey : Nat) (p : Pending)
  | cacheOther (mkey : Nat)
  | evict (mkey : Nat)

/-- The store once the transaction of a function returning `r` is over. -/
def settle (db : Db) (commit : Bool) : Except Err Db → Db
  | .ok db' => if commit then db' else db
  | .error _ => db

/-- What holds of the store before a transaction, and of every store its
function returns, holds of the store after it. -/
theorem settle_of {P : Db → Prop} {db : Db} {commit : Bool} {r : Except Err Db} (h : P db)
    (hr : ∀ db', r = .ok db' → P db') : P (settle db commit r) := by
  rcases r with _ | db'
  · exact h
  · cases commit
    exacts [h, hr db' rfl]

/-- One request. -/
def Registry.step (env : Env) (s : Registry) : Op → Registry
  | .registerNode p saveFails commit =>
    match p.node s.db with
    | none => s
    | some n =>
      let r := registerNode env.getAvailableIPs s.db n (p.routes s.db) saveFails
      { s with db := settle s.db commit (r.map Prod.snd) }
  | .registerNodeFromAuthCallback mkey userName nodeExpiry method saveFails commit =>
    let r := registerNodeFromAuthCallback env.getAvailableIPs s.db s.cache mkey userName nodeExpiry
      method saveFails
    { db := settle s.db commit (r.1.map Prod.snd), cache := r.2 }
  | .deleteNode node f commit => { s with db := (write s.db commit (deleteNode s.db node f)).2 }
  | .setTags nodeId tags fails commit =>
    { s with db := settle s.db commit (setTags s.db nodeId tags fails) }
  | .renameNode nodeId newName fails commit =>
    { s with db := settle s.db commit (renameNode s.db nodeId newName fails) }
  | .nodeSetExpiry nodeId expiry fails commit =>
    { s with db := settle s.db commit (nodeSetExpiry s.db nodeId expiry fails) }
  | .updateLastSeen nodeId lastSeen fails commit =>
    { s with db := settle s.db commit (updateLastSeen s.db nodeId lastSeen fails) }
  | .nodeSetNodeKey node nodeKey fails commit =>
    { s with db := settle s.db commit (nodeSetNodeKey s.db node nodeKey fails) }
  | .nodeSetMachineKey node machineKey fails commit =>
    { s with db := settle s.db commit (nodeSetMachineKey s.db node machineKey fails) }
  | .enableRoutes node routeStrs f commit =>
    let r := enableRoutes env.parsePrefix env.isUniquePrefix s.db node routeStrs f
    { s with db := (write s.db commit r).2 }
  | .expireEphemeralNodes o now threshold f commit =>
    { s with db := settle s.db commit (.ok (expireEphemeralNodes o now threshold f s.db).2) }
  | .expireExpiredNodes o clk lastCheck f commit =>
    { s with db := settle s.db commit (.ok (expireExpiredNodes o clk lastCheck f s.db).2) }
  | .cachePending mkey p =>
    match p.node s.db with
    | none => s
    | some n => { s with cache := s.cache.set mkey (.node n (p.routes s.db)) }
  | .cacheOther mkey => { s with cache := s.cache.set mkey .other }
  | .evict mkey => { s with cache := s.cache.erase mkey }

/-! ## What a registration step can do -/

/-- A `RegisterNode` request leaves the registry as it was, or commits the save
`registerNode` made of the node its pending source stands for. -/
theorem step_registerNode_cases (env : Env) (s : Registry) (p : Pending) (saveFails commit : Bool) :
    s.step env (.registerNode p saveFails commit) = s ∨
      ∃ n m db', p.node s.db = some n ∧
        registerNode env.getAvailableIPs s.db n (p.routes s.db) saveFails = .ok (m, db') ∧
        s.step env (.registerNode p saveFails commit) = { s with db := db' } := by
  simp only [Registry.step]
  split
  · exact .inl rfl
  · rename_i n hp
    rcases hr : registerNode env.getAvailableIPs s.db n (p.routes s.db) saveFails with _ | ⟨m, db'⟩
    · exact .inl rfl
    · cases commit
      · exact .inl rfl
      · exact .inr ⟨n, m, db', hp, hr, rfl⟩

/-- A `RegisterNodeFromAuthCallback` request leaves the registry as it was, or
found a pending node and the user, passed the owner check and registered the
bound node; the entry is then deleted from the cache, and the registration is
stored if the transaction commits. -/
theorem step_approval_cases (env : Env) (s : Registry) (mkey : Nat) (userName : String)
    (nodeExpiry : Option Int) (method : String) (saveFails commit : Bool) :
    s.step env (.registerNodeFromAuthCallback mkey userName nodeExpiry method saveFails commit) = s ∨
      ∃ c rs u m db', s.cache.get mkey = some (.node c rs) ∧ getUser s.db userName = .ok u ∧
        (c.id ≠ 0 → c.userId = u.id) ∧
        registerNode env.getAvailableIPs s.db (authorize c u nodeExpiry method) rs saveFails =
          .ok (m, db') ∧
        s.step env (.registerNodeFromAuthCallback mkey userName nodeExpiry method saveFails commit) =
          { db := if commit then db' else s.db, cache := s.cache.erase mkey } := by
  have hcache := registerNodeFromAuthCallback_cache env.getAvailableIPs s.db s.cache mkey userName
    nodeExpiry method saveFails
  simp only [Registry.step]
  rcases hr : registerNodeFromAuthCallback env.getAvailableIPs s.db s.cache mkey userName
    nodeExpiry method saveFails with ⟨_ | ⟨m, db'⟩, cache'⟩ <;>
    rw [hr] at hcache <;> simp only at hcache <;> subst hcache
  · exact .inl rfl
  · obtain ⟨c, rs, u, hc, hu, hcheck, hreg, -⟩ := registerNodeFromAuthCallback_ok hr
    exact .inr ⟨c, rs, u, m, db', hc, hu, hcheck, hreg, by cases commit <;> rfl⟩

/-- The node of a pending source: a new device's, under id zero and with no
address, or the copy of a stored node under its id. -/
theorem Pending.node_cases {db : Db} {p : Pending} {n : Node} (h : p.node db = some n) :
    (n.id = 0 ∧ n.ipAddresses = []) ∨
      ∃ b k, db.nodes.get b.id = some b ∧ n = { b with nodeKey := k } := by
  cases p with
  | fresh n₀ => cases h; exact .inl ⟨rfl, rfl⟩
  | stored i k =>
    obtain ⟨b, hb, rfl⟩ := Option.map_eq_some'.1 h
    exact .inr ⟨b, k, by rw [db.id_of_get hb]; exact hb, rfl⟩

/-- The routes of a pending source: none for a new device's node, and for a
copy stored rows naming the copied node. -/
theorem Pending.routes_cases {db : Db} {p : Pending} {n : Node} (h : p.node db = some n) :
    (n.id = 0 ∧ p.routes db = []) ∨
      (n.id ≠ 0 ∧ ∀ r ∈ p.routes db, db.routes.get r.id = some r ∧ r.nodeId = n.id) := by
  cases p with
  | fresh n₀ => cases h; exact .inl ⟨rfl, rfl⟩
  | stored i k =>
    obtain ⟨b, hb, rfl⟩ := Option.map_eq_some'.1 h
    refine .inr ⟨by rw [db.id_of_get hb]; exact db.nodes.ne_zero_of_get hb, fun r hr => ?_⟩
    obtain ⟨hr, hri⟩ := List.mem_filter.1 hr
    exact ⟨db.routes.mem_rows.1 hr, by rw [db.id_of_get hb]; simpa using hri⟩

/-- The registries reached from `s₀` by steps the guard `G` allows. -/
inductive Reaches (env : Env) (G : Registry → Op → Prop) (s₀ : Registry) : Registry → Prop
  | refl : Reaches env G s₀ s₀
  | step {s : Registry} {op : Op} : Reaches env G s₀ s → G s op → Reaches env G s₀ (s.step env op)

/-- A run: the requests one after another. -/
def Registry.run (env : Env) (s : Registry) (ops : List Op) : Registry := ops.foldl (·.step env) s

theorem Registry.run_append (env : Env) (s : Registry) (ops ops' : List Op) :
    s.run env (ops ++ ops') = (s.run env ops).run env ops' :=
  List.foldl_append _ _ _ _

/-- Each request of `ops` is allowed by `G` at the registry it meets. -/
def Allowed (env : Env) (G : Registry → Op → Prop) : Registry → List Op → Prop
  | _, [] => True
  | s, op :: ops => G s op ∧ Allowed env G (s.step env op) ops

/-- A reached registry, continued by requests the guard allows, reaches the
end of the run. -/
theorem Reaches.run_of_allowed {env : Env} {G : Registry → Op → Prop} {s₀ s : Registry}
    {ops : List Op} (hs : Reaches env G s₀ s) (h : Allowed env G s ops) :
    Reaches env G s₀ (s.run env ops) := by
  induction ops generalizing s with
  | nil => exact hs
  | cons op ops ih => exact ih (.step hs h.1) h.2

/-- Every run of requests reaches its end state. -/
theorem reaches_run (env : Env) (s : Registry) (ops : List Op) :
    Reaches env (fun _ _ => True) s (s.run env ops) := by
  refine Reaches.refl.run_of_allowed ?_
  induction ops generalizing s with
  | nil => trivial
  | cons op ops ih => exact ⟨trivial, ih _⟩

/-- An invariant that holds at `s₀` and that every step the guard allows
preserves holds at every registry reached. -/
theorem Reaches.induct_on {env : Env} {G : Registry → Op → Prop} {s₀ s : Registry}
    {I : Registry → Prop} (h : Reaches env G s₀ s) (h₀ : I s₀)
    (hstep : ∀ s op, I s → G s op → I (s.step env op)) : I s := by
  induction h with
  | refl => exact h₀
  | step _ hg ih => exact hstep _ _ ih hg

/-! ## A sample deployment

One user and one address prefix; the concrete runs of the later modules start
from it. -/

/-- One user. -/
def sampleUsers : List User := [⟨1, "alice"⟩]

/-- `netip.ParsePrefix` on the two prefixes the samples use: `10.0.1.0/24` and
`0.0.0.0/0`. -/
def sampleParsePrefix (s : String) : Option Prefix :=
  if s = "10.0.1.0/24" then some ⟨false, 167772416, 24⟩
  else if s = "0.0.0.0/0" then some ⟨false, 0, 0⟩
  else none

/-- One configured prefix of 254 addresses, the spec's `isUniquePrefix`, and
the sample parser. -/
def sampleEnv : Env := ⟨getAvailableIPs [⟨1, 254⟩], isUniquePrefix, sampleParsePrefix⟩

/-- The empty registry over `sampleUsers`. -/
def sampleRegistry : Registry := Registry.empty sampleUsers (by decide) (by decide)

/-- A new device of `alice`, before registration. -/
def laptop : Node where
  id := 0
  machineKey := 7
  nodeKey := 8
  hostname := "laptop"
  givenName := "laptop"
  userId := 1
  ipAddresses := []
  forcedTags := []
  expiry := none
  lastSeen := none
  ephemeral := false
  registerMethod := "cli"

end Headscale
