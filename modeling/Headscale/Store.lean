import Headscale.Types

/-!
# Headscale.Store

The store node.go runs against — its `*gorm.DB` transaction — and the pending
registration cache beside it.

* `Db` holds the `nodes` and `routes` tables and the user directory.  Users
  are never written by node.go; their ids and names are unique, as the
  schema's primary key and `unique` constraint make them.
* The writes node.go issues are `Db.saveNode` and `Db.saveRoute` (gorm's
  `Save`), `Db.updateNode` (`Update`/`Updates` of one `Column`) and the two
  `erase`s (`Unscoped().Delete`).  A node value carries the `Routes` its lookup
  preloaded, and `Save` upserts them with the node (`Db.upsertRoute`): a stored
  route row only gets its `node_id` written, a missing one is inserted again.
* A `Find` without `ORDER BY` returns its rows in whatever order the database
  scans them; a listing takes that order as an argument (`ScanOrder`).
* The lookups of node.go (`ListNodes`, `ListPeers`, `getNode`, `GetNodeByID`,
  `GetNodeByMachineKey`, `GetNodeByAnyKey`) and `NodeSave` read or write the
  store alone; the queries of the `db` package that node.go calls but that live
  in other files (`GetUser`, `ListNodesByUser`, `GetNodeRoutes`,
  `deleteNodeRoutes`) are modelled here from the spec.
* `write` is the `Write` wrapper every mutating operation runs in: an error
  rolls the transaction back, and so does a failed commit.
* `Cache` is the registration cache, keyed by the machine key's string; it sits
  outside every transaction.
-/

namespace Headscale

/-! ## Single-column writes -/

/-- A column written by `Update`/`Updates` on one row of the `nodes` table. -/
inductive Column where
  | givenName (name : String)
  | forcedTags (tags : List String)
  | expiry (t : Int)
  | lastSeen (t : Int)
  | nodeKey (k : Nat)
  | machineKey (k : Nat)

/-- The row after the column is written. -/
def Column.apply : Column → Node → Node
  | .givenName s, n => { n with givenName := s }
  | .forcedTags ts, n => { n with forcedTags := ts }
  | .expiry t, n => { n with expiry := some t }
  | .lastSeen t, n => { n with lastSeen := some t }
  | .nodeKey k, n => { n with nodeKey := k }
  | .machineKey k, n => { n with machineKey := k }

@[simp] theorem Column.id_apply (c : Column) (n : Node) : (c.apply n).id = n.id := by
  cases c <;> rfl

/-- No column write changes a node's owner or addresses. -/
@[simp] theorem Column.userId_apply (c : Column) (n : Node) : (c.apply n).userId = n.userId := by
  cases c <;> rfl

@[simp] theorem Column.ipAddresses_apply (c : Column) (n : Node) :
    (c.apply n).ipAddresses = n.ipAddresses := by
  cases c <;> rfl

/-! ## The store -/

/-- The tables node.go reads and writes. -/
structure Db where
  nodes : Table Node
  routes : Table Route
  users : List User
  users_nodup : (users.map User.id).Nodup
  names_nodup : (users.map User.name).Nodup

namespace Db

variable (db : Db)

/-- A store with no nodes and no routes over a user directory. -/
def empty (users : List User) (h₁ : (users.map User.id).Nodup)
    (h₂ : (users.map User.name).Nodup) : Db :=
  ⟨.empty, .empty, users, h₁, h₂⟩

/-- The write `tx.Save(&node)` makes of a route `r` the node value carries,
under the saved node's id `nodeId`: gorm upserts a has-many association
`ON CONFLICT (id) DO UPDATE SET node_id`, so a stored row keeps every column but
`node_id`, and a missing row is inserted as carried. -/
def upsertRoute (nodeId : Nat) (r : Route) : Db :=
  match db.routes.get r.id with
  | some _ => { db with routes := db.routes.update r.id (fun x => { x with nodeId := nodeId }) fun _ => rfl }
  | none => { db with routes := (db.routes.save { r with nodeId := nodeId }).2 }

/-- `tx.Save(&node)` of a node value carrying the routes `routes` (its `Routes`
association): the node row is saved, then each route is upserted under the
saved node's id.  Returns the node as saved, with its id filled in. -/
def saveNode (n : Node) (routes : List Route) : Node × Db :=
  ((db.nodes.save n).1, routes.foldl (fun d r => d.upsertRoute (db.nodes.save n).1.id r)
    { db with nodes := (db.nodes.save n).2 })

/-- `Model(&types.Node{}).Where("id = ?", i).Update(column, value)`. -/
def updateNode (i : Nat) (c : Column) : Db :=
  { db with nodes := db.nodes.update i c.apply c.id_apply }

/-- `tx.Unscoped().Delete(&node)` for the node with id `i`. -/
def eraseNode (i : Nat) : Db := { db with nodes := db.nodes.erase i }

/-- `tx.Save(&route)`. -/
def saveRoute (r : Route) : Db := { db with routes := (db.routes.save r).2 }

/-- `tx.Unscoped().Delete(&route)` for the route with id `i`. -/
def eraseRoute (i : Nat) : Db := { db with routes := db.routes.erase i }

@[simp] theorem nodes_upsertRoute (i : Nat) (r : Route) : (db.upsertRoute i r).nodes = db.nodes := by
  unfold upsertRoute; split <;> rfl
@[simp] theorem users_upsertRoute (i : Nat) (r : Route) : (db.upsertRoute i r).users = db.users := by
  unfold upsertRoute; split <;> rfl

theorem foldl_upsertRoute_nodes (i : Nat) (rs : List Route) (db : Db) :
    (rs.foldl (fun d r => d.upsertRoute i r) db).nodes = db.nodes ∧
      (rs.foldl (fun d r => d.upsertRoute i r) db).users = db.users := by
  induction rs generalizing db with
  | nil => exact ⟨rfl, rfl⟩
  | cons r rs ih =>
    obtain ⟨h₁, h₂⟩ := ih (db.upsertRoute i r)
    exact ⟨h₁.trans (nodes_upsertRoute _ _ _), h₂.trans (users_upsertRoute _ _ _)⟩

@[simp] theorem nodes_saveNode (n : Node) (rs : List Route) :
    (db.saveNode n rs).2.nodes = (db.nodes.save n).2 :=
  (foldl_upsertRoute_nodes _ rs _).1
@[simp] theorem users_saveNode (n : Node) (rs : List Route) : (db.saveNode n rs).2.users = db.users :=
  (foldl_upsertRoute_nodes _ rs _).2
@[simp] theorem nodes_updateNode (i : Nat) (c : Column) :
    (db.updateNode i c).nodes = db.nodes.update i c.apply c.id_apply := rfl
@[simp] theorem routes_updateNode (i : Nat) (c : Column) : (db.updateNode i c).routes = db.routes :=
  rfl
@[simp] theorem users_updateNode (i : Nat) (c : Column) : (db.updateNode i c).users = db.users :=
  rfl
@[simp] theorem nodes_eraseNode (i : Nat) : (db.eraseNode i).nodes = db.nodes.erase i := rfl
@[simp] theorem routes_eraseNode (i : Nat) : (db.eraseNode i).routes = db.routes := rfl
@[simp] theorem users_eraseNode (i : Nat) : (db.eraseNode i).users = db.users := rfl
@[simp] theorem nodes_saveRoute (r : Route) : (db.saveRoute r).nodes = db.nodes := rfl
@[simp] theorem routes_saveRoute (r : Route) : (db.saveRoute r).routes = (db.routes.save r).2 := rfl
@[simp] theorem users_saveRoute (r : Route) : (db.saveRoute r).users = db.users := rfl
@[simp] theorem nodes_eraseRoute (i : Nat) : (db.eraseRoute i).nodes = db.nodes := rfl
@[simp] theorem routes_eraseRoute (i : Nat) : (db.eraseRoute i).routes = db.routes.erase i := rfl
@[simp] theorem users_eraseRoute (i : Nat) : (db.eraseRoute i).users = db.users := rfl

/-- A stored row carries the id it is stored under. -/
theorem id_of_get {i : Nat} {n : Node} (h : db.nodes.get i = some n) : n.id = i :=
  db.nodes.key_get h

/-- The node `saveNode` stores: the node itself, or under the next id when its
id was zero. -/
theorem saveNode_fst (n : Node) (rs : List Route) :
    (db.saveNode n rs).1 = if n.id = 0 then { n with id := db.nodes.next } else n :=
  db.nodes.save_fst n

theorem id_saveNode (n : Node) (rs : List Route) :
    (db.saveNode n rs).1.id = if n.id = 0 then db.nodes.next else n.id := by
  rw [saveNode_fst]; split <;> rfl

theorem get_saveNode (n : Node) (rs : List Route) (j : Nat) :
    (db.saveNode n rs).2.nodes.get j =
      if j = (db.saveNode n rs).1.id then some (db.saveNode n rs).1 else db.nodes.get j := by
  rw [nodes_saveNode]; exact db.nodes.get_save n j

theorem next_le_saveNode (n : Node) (rs : List Route) :
    db.nodes.next ≤ (db.saveNode n rs).2.nodes.next := by
  rw [nodes_saveNode]; exact db.nodes.next_le_save n

/-- Stores are equal when their tables and user directories are. -/
theorem ext {db' : Db} (hn : db.nodes = db'.nodes) (hr : db.routes = db'.routes)
    (hu : db.users = db'.users) : db = db' := by
  cases db; cases db'
  cases hn; cases hr; cases hu; rfl

/-! ## The routes a saved node value carries -/

/-- A carried route whose row is stored for the same node changes nothing. -/
theorem upsertRoute_of_get {i : Nat} {r y : Route} (hy : db.routes.get r.id = some y)
    (hi : y.nodeId = i) : db.upsertRoute i r = db := by
  simp only [upsertRoute, hy]
  refine ext _ rfl (Table.ext _ (fun j => ?_) rfl) rfl
  rw [Table.get_update]
  split
  · subst j hi; rw [hy]; rfl
  · rfl

/-- A route row after an upsert was there before, or names the saved node. -/
theorem mem_routes_upsertRoute {i : Nat} {r x : Route} (hx : x ∈ (db.upsertRoute i r).routes.rows) :
    x ∈ db.routes.rows ∨ x.nodeId = i := by
  unfold upsertRoute at hx
  split at hx <;> dsimp only at hx
  · rcases db.routes.mem_rows_update.1 hx with ⟨y, -, -, rfl⟩ | ⟨hx, -⟩
    exacts [.inr rfl, .inl hx]
  · rcases db.routes.mem_rows_save.1 hx with rfl | ⟨hx, -⟩
    · exact .inr (by rw [Table.save_fst]; split <;> rfl)
    · exact .inl hx

/-- A route carried for the node it names, under a non-zero id that no row of
another node holds, is written back as it is carried. -/
theorem mem_routes_upsertRoute_of_carried {i : Nat} {r x : Route} (hr : r.nodeId = i)
    (h0 : r.id ≠ 0) (hc : ∀ y ∈ db.routes.rows, y.id = r.id → y.nodeId = i)
    (hx : x ∈ (db.upsertRoute i r).routes.rows) : x ∈ db.routes.rows ∨ x = r := by
  rcases hy : db.routes.get r.id with _ | y
  · unfold upsertRoute at hx
    rw [hy] at hx
    have hsame : { r with nodeId := i } = r := by rw [← hr]
    rw [hsame, db.routes.mem_rows_save, db.routes.key_save_of_key_ne_zero h0] at hx
    exact hx.symm.imp_left (·.1)
  · have hyr : y.id = r.id := db.routes.key_get hy
    rw [upsertRoute_of_get db hy (hc y (db.routes.mem_rows_of_get hy) hyr)] at hx
    exact .inl hx

end Db

open Db

/-- Upserting routes all stored for the node changes nothing. -/
theorem foldl_upsertRoute_of_stored {i : Nat} :
    ∀ {rs : List Route} {d : Db}, (∀ r ∈ rs, ∃ y, d.routes.get r.id = some y ∧ y.nodeId = i) →
      rs.foldl (fun d r => d.upsertRoute i r) d = d
  | [], _, _ => rfl
  | r :: _, d, h => by
    obtain ⟨y, hy, hi⟩ := h r (List.mem_cons_self _ _)
    rw [List.foldl_cons, upsertRoute_of_get d hy hi]
    exact foldl_upsertRoute_of_stored fun r' hr' => h r' (List.mem_cons_of_mem _ hr')

theorem mem_foldl_upsertRoute {i : Nat} :
    ∀ {rs : List Route} {d : Db} {x : Route},
      x ∈ (rs.foldl (fun d r => d.upsertRoute i r) d).routes.rows → x ∈ d.routes.rows ∨ x.nodeId = i
  | [], _, _, hx => .inl hx
  | r :: _, d, _, hx => by
    rw [List.foldl_cons] at hx
    exact (mem_foldl_upsertRoute hx).elim (mem_routes_upsertRoute d) .inr

theorem mem_foldl_upsertRoute_of_carried {i : Nat} :
    ∀ {rs : List Route} {d : Db} {x : Route}, (∀ r ∈ rs, r.nodeId = i ∧ r.id ≠ 0) →
      (∀ r ∈ rs, ∀ y ∈ d.routes.rows, y.id = r.id → y.nodeId = i) →
      x ∈ (rs.foldl (fun d r => d.upsertRoute i r) d).routes.rows → x ∈ d.routes.rows ∨ x ∈ rs
  | [], _, _, _, _, hx => .inl hx
  | r :: rs, d, x, hr, hc, hx => by
    have step : ∀ y ∈ (d.upsertRoute i r).routes.rows, y ∈ d.routes.rows ∨ y = r :=
      fun y hy => mem_routes_upsertRoute_of_carried d (hr r (List.mem_cons_self _ _)).1
        (hr r (List.mem_cons_self _ _)).2 (hc r (List.mem_cons_self _ _)) hy
    -- the routes written so far name the node, so the rest still find no other node's row
    have hc' : ∀ r' ∈ rs, ∀ y ∈ (d.upsertRoute i r).routes.rows, y.id = r'.id → y.nodeId = i :=
      fun r' h y hy e => (step y hy).elim (fun hy => hc r' (List.mem_cons_of_mem _ h) y hy e)
        fun hyr => hyr ▸ (hr r (List.mem_cons_self _ _)).1
    rcases mem_foldl_upsertRoute_of_carried (fun r' h => hr r' (List.mem_cons_of_mem _ h)) hc' hx
      with hx | hx
    · rcases step x hx with hx | rfl
      exacts [.inl hx, .inr (List.mem_cons_self _ _)]
    · exact .inr (List.mem_cons_of_mem _ hx)

namespace Db

variable (db : Db)

/-- The store `saveNode` leaves: the node table with the row saved, and the
carried routes upserted under the saved node's id. -/
theorem saveNode_snd (n : Node) (rs : List Route) :
    (db.saveNode n rs).2 =
      rs.foldl (fun d r => d.upsertRoute (db.saveNode n rs).1.id r) { db with nodes := (db.nodes.save n).2 } :=
  rfl

/-- The routes after saving a node value whose carried routes are all stored
for the saved node: the table as it was. -/
theorem routes_saveNode_of_stored {n : Node} {rs : List Route}
    (h : ∀ r ∈ rs, ∃ y, db.routes.get r.id = some y ∧ y.nodeId = (db.saveNode n rs).1.id) :
    (db.saveNode n rs).2.routes = db.routes := by
  rw [saveNode_snd, @foldl_upsertRoute_of_stored _ _ { db with nodes := (db.nodes.save n).2 } h]

/-- A route row after saving a node value was there before, or names the saved
node. -/
theorem mem_routes_saveNode {n : Node} {rs : List Route} {x : Route}
    (hx : x ∈ (db.saveNode n rs).2.routes.rows) :
    x ∈ db.routes.rows ∨ x.nodeId = (db.saveNode n rs).1.id := by
  rw [saveNode_snd] at hx
  exact (mem_foldl_upsertRoute hx :)

/-- A route row after saving a node value whose carried routes name the saved
node, under non-zero ids no row of another node holds, was there before or is
one of the carried routes. -/
theorem mem_routes_saveNode_of_carried {n : Node} {rs : List Route} {x : Route}
    (hr : ∀ r ∈ rs, r.nodeId = (db.saveNode n rs).1.id ∧ r.id ≠ 0)
    (hc : ∀ r ∈ rs, ∀ y ∈ db.routes.rows, y.id = r.id → y.nodeId = (db.saveNode n rs).1.id)
    (hx : x ∈ (db.saveNode n rs).2.routes.rows) : x ∈ db.routes.rows ∨ x ∈ rs := by
  rw [saveNode_snd] at hx
  exact @mem_foldl_upsertRoute_of_carried _ _ { db with nodes := (db.nodes.save n).2 } _ hr hc hx

end Db

/-! ## Queries -/

/-- The order in which the store returns the rows of a query without
`ORDER BY`.  SQL leaves it to the database, so `arrange` may put the rows of
a query in any order. -/
structure ScanOrder where
  arrange : List Node → List Node
  arrange_perm : ∀ l, (arrange l).Perm l

/-- The order of the ids, in which a scan of SQLite's rowid tree returns a
table's rows. -/
def ScanOrder.byId : ScanOrder := ⟨id, List.Perm.refl⟩

theorem ScanOrder.mem_arrange (o : ScanOrder) {l : List Node} {n : Node} :
    n ∈ o.arrange l ↔ n ∈ l :=
  (o.arrange_perm l).mem_iff

/-- `ListNodes`: every node, in the order the store scans them. -/
def listNodes (o : ScanOrder) (db : Db) : List Node := o.arrange db.nodes.rows

theorem mem_listNodes {o : ScanOrder} {db : Db} {n : Node} :
    n ∈ listNodes o db ↔ db.nodes.get n.id = some n :=
  o.mem_arrange.trans db.nodes.mem_rows

theorem mem_listNodes_of_get {o : ScanOrder} {db : Db} {i : Nat} {n : Node}
    (h : db.nodes.get i = some n) : n ∈ listNodes o db :=
  mem_listNodes.2 (by rw [db.id_of_get h]; exact h)

/-- The nodes are listed once each. -/
theorem nodup_listNodes (o : ScanOrder) (db : Db) : ((listNodes o db).map Node.id).Nodup :=
  ((o.arrange_perm _).map _).nodup_iff.2 db.nodes.nodup_map_key_rows

/-! ## Queries of the `db` package outside node.go -/

/-- Modelled from the spec: `GetUser` (users.go) is not under src/.  It resolves
a user name, failing with `ErrUserNotFound` for an unknown one. -/
def getUser (db : Db) (name : String) : Except Err User :=
  match db.users.find? (·.name = name) with
  | some u => .ok u
  | none => .error .userNotFound

/-- A user of the directory is found by its name. -/
theorem getUser_of_mem {db : Db} {u : User} (h : u ∈ db.users) : getUser db u.name = .ok u := by
  unfold getUser
  rcases hf : db.users.find? (·.name = u.name) with _ | v
  · exact absurd (List.find?_eq_none.1 hf u h) (by simp)
  · have hn : v.name = u.name := by simpa using List.find?_some hf
    rw [hf, List.inj_on_of_nodup_map db.names_nodup (List.mem_of_find?_eq_some hf) h hn]

/-- Modelled from the spec: `ListNodesByUser` (users.go) is not under src/.  The
nodes owned by the named user, in the order the store scans them. -/
def listNodesByUser (o : ScanOrder) (db : Db) (name : String) : Except Err (List Node) :=
  match getUser db name with
  | .ok u => .ok (o.arrange (db.nodes.rows.filter (·.userId = u.id)))
  | .error e => .error e

/-- Modelled from the spec: `GetNodeRoutes` (routes.go) is not under src/.  The
route rows of a node. -/
def getNodeRoutes (db : Db) (node : Node) : List Route :=
  db.routes.rows.filter (·.nodeId = node.id)

/-! ## Lookups of node.go -/

/-- `ListPeers`: the nodes whose node key differs from the node's, sorted by
id; `fails` is the failure of the query. -/
def listPeers (db : Db) (node : Node) (fails : Bool) : Except Err (List Node) :=
  if fails then .error .store
  else .ok ((db.nodes.rows.filter (·.nodeKey ≠ node.nodeKey)).mergeSort fun a b => a.id ≤ b.id)

/-- `getNode`: the first of the user's nodes with the given hostname. -/
def getNode (o : ScanOrder) (db : Db) (user name : String) : Except Err Node :=
  match listNodesByUser o db user with
  | .error e => .error e
  | .ok nodes =>
    match nodes.find? (·.hostname = name) with
    | some m => .ok m
    | none => .error .nodeNotFound

/-- `GetNodeByID`. -/
def getNodeByID (db : Db) (id : Nat) : Except Err Node :=
  match db.nodes.get id with
  | some n => .ok n
  | none => .error .recordNotFound

/-- `GetNodeByMachineKey`: `First` takes the match with the lowest id. -/
def getNodeByMachineKey (db : Db) (machineKey : Nat) : Except Err Node :=
  match db.nodes.rows.find? (·.machineKey = machineKey) with
  | some n => .ok n
  | none => .error .recordNotFound

/-- `GetNodeByAnyKey`: the first node matching the machine key, the node key or
the old node key. -/
def getNodeByAnyKey (db : Db) (machineKey nodeKey oldNodeKey : Nat) : Except Err Node :=
  match db.nodes.rows.find? fun n =>
      n.machineKey = machineKey ∨ n.nodeKey = nodeKey ∨ n.nodeKey = oldNodeKey with
  | some n => .ok n
  | none => .error .recordNotFound

/-- `NodeSave`: `tx.Save(node)` of a node value carrying the routes `routes`. -/
def nodeSave (db : Db) (node : Node) (routes : List Route) (fails : Bool) : Except Err Db :=
  if fails then .error .store else .ok (db.saveNode node routes).2

/-- The failures a `DeleteNode` call can meet: listing the node's routes,
deleting one of them (by route id), deleting the node row. -/
structure DeleteFaults where
  getRoutes : Bool := false
  route : Nat → Bool := fun _ => false
  node : Bool := false

/-- The route deletions of `deleteNodeRoutes`, one row after another; the
first failure stops the loop, keeping the rows deleted before it. -/
def deleteRouteRows (fails : Nat → Bool) : List Route → Db → Except Err Unit × Db
  | [], db => (.ok (), db)
  | r :: rs, db => if fails r.id then (.error .store, db) else deleteRouteRows fails rs (db.eraseRoute r.id)

/-- Modelled from the spec: `deleteNodeRoutes` (routes.go) is not under src/.
The cascade a node's deletion runs first: every route row of the node is
deleted.  `DeleteNode` calls it with an empty connectivity map, under which
its primary failover finds no connected router and changes no row. -/
def deleteNodeRoutes (db : Db) (node : Node) (f : DeleteFaults) : Except Err Unit × Db :=
  if f.getRoutes then (.error .store, db) else deleteRouteRows f.route (getNodeRoutes db node) db

/-! ## Transactions -/

/-- `Write`: the transaction of `f`'s writes commits when `f` succeeds, unless
the commit fails (`commit = false`); otherwise the store is left as it was. -/
def write {α : Type} (db : Db) (commit : Bool) : Except Err α × Db → Except Err α × Db
  | (.ok a, db') => if commit then (.ok a, db') else (.error .store, db)
  | (.error e, _) => (.error e, db)

/-- What holds of the store before a transaction, and of the store its function
leaves, holds of the store after it. -/
theorem write_of {α : Type} {P : Db → Prop} {db : Db} {commit : Bool} {r : Except Err α × Db}
    (h : P db) (hr : P r.2) : P (write db commit r).2 := by
  obtain ⟨_ | a, db'⟩ := r
  · exact h
  · cases commit
    exacts [h, hr]

/-! ## The registration cache -/

/-- A value held by the registration cache: a pending `types.Node` with the
routes its `Routes` association carries, or a value of another type. -/
inductive CacheEntry where
  | node (n : Node) (routes : List Route)
  | other
deriving DecidableEq

/-- The registration cache, keyed by the machine key. -/
structure Cache where
  get : Nat → Option CacheEntry

namespace Cache

/-- The empty cache. -/
def empty : Cache := ⟨fun _ => none⟩

/-- `cache.Set`. -/
def set (c : Cache) (k : Nat) (e : CacheEntry) : Cache :=
  ⟨fun k' => if k' = k then some e else c.get k'⟩

/-- `cache.Delete`, and the TTL eviction of an entry. -/
def erase (c : Cache) (k : Nat) : Cache := ⟨fun k' => if k' = k then none else c.get k'⟩

@[simp] theorem get_empty (k : Nat) : empty.get k = none := rfl
@[simp] theorem get_set (c : Cache) (k k' : Nat) (e : CacheEntry) :
    (c.set k e).get k' = if k' = k then some e else c.get k' := rfl
@[simp] theorem get_erase (c : Cache) (k k' : Nat) :
    (c.erase k).get k' = if k' = k then none else c.get k' := rfl

end Cache

end Headscale
