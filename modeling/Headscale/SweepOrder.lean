import Headscale.EphemeralSweep
import Headscale.Primary
import Headscale.NodeTable

/-!
# Headscale.SweepOrder

The two background sweeps of node.go, `ExpireExpiredNodes` and
`ExpireEphemeralNodes`, each run in a transaction of their own, on a timer of
their own, while API and poll requests write single columns of node rows.  The
store meets them in any order, and for most pairs the order does not matter:

* `sweeps_commute`: for every registry, clock, threshold, failure pattern and
  commit outcome of the two sweeps, the expiry sweep followed by the ephemeral
  sweep leaves the registry the other order leaves, and the ephemeral sweep
  reports the same update whether the expiry sweep ran before it or not, when
  the order in which the store lists a user's nodes depends on their ids alone
  (`ScanOrder.ByKey`, as a scan in rowid order does; the expiry sweep's own
  order is any);
* `deleteNode_commutes_with_expiry_sweep`: so does `DeleteNode` with the
  expiry sweep;
* `setters_commute_with_sweeps`: a single-column setter (`SetTags`,
  `RenameNode`, `NodeSetExpiry`, `UpdateLastSeen`, `NodeSetNodeKey`,
  `NodeSetMachineKey`) commutes with the ephemeral sweep unless it writes
  `LastSeen` (under the same scan orders), and with the expiry sweep unless it
  writes `Expiry`: each sweep
  reads of a row only its id, its owner and the columns of its test.  The two
  exceptions are real races: a `LastSeen` written just before the ephemeral
  sweep saves its node, and an expiry set just before the expiry sweep decides
  whether the sweep reports it.

The expiry sweep rewrites each stored row by a rule of the row alone
(`expireExpiredNodes_eq_mapNodes`, by `expiryPatch`), and so does a setter
(`foldl_updateNode_eq_mapNodes`, by `writeRow`), whose write is decided by its
arguments alone (`Op.setterWrite`, `step_of_setterWrite`).  Two such rewrites
commute on the store when they commute row by row (`Db.mapNodes_comm`).  A
rewrite that keeps the id, the owner and the two columns the ephemeral test
reads is a `NodeRewrite`, and the ephemeral sweep commutes with every one
(`expireEphemeralNodes_mapNodes`), loop by loop: the deletion of one node
(`deleteNode_mapNodes`), the loop over one user's nodes
(`expireUserNodes_mapNodes`) and the loop over the users
(`expireUsers_mapNodes`).
-/

namespace Headscale

/-! ## Rewriting every node row -/

/-- The store with every node row rewritten by `f`, which keeps the id. -/
def Db.mapNodes (db : Db) (f : Node → Node) (hf : ∀ n, (f n).id = n.id) : Db :=
  { db with nodes := db.nodes.map f hf }

namespace Db

variable (db : Db) {f g : Node → Node} (hf : ∀ n, (f n).id = n.id) (hg : ∀ n, (g n).id = n.id)

@[simp] theorem nodes_mapNodes : (db.mapNodes f hf).nodes = db.nodes.map f hf := rfl
@[simp] theorem routes_mapNodes : (db.mapNodes f hf).routes = db.routes := rfl
@[simp] theorem users_mapNodes : (db.mapNodes f hf).users = db.users := rfl

/-- Two rewrites that commute row by row commute on the store. -/
theorem mapNodes_comm (h : ∀ n, f (g n) = g (f n)) :
    (db.mapNodes f hf).mapNodes g hg = (db.mapNodes g hg).mapNodes f hf := by
  refine ext _ (Table.ext _ (fun j => ?_) rfl) rfl rfl
  simp only [nodes_mapNodes, Table.get_map, Option.map_map]
  exact congrArg (Option.map · _) (funext fun n => (h n).symm)

theorem eraseRoute_mapNodes (i : Nat) :
    (db.mapNodes f hf).eraseRoute i = (db.eraseRoute i).mapNodes f hf :=
  rfl

theorem eraseNode_mapNodes (i : Nat) :
    (db.mapNodes f hf).eraseNode i = (db.eraseNode i).mapNodes f hf :=
  ext _ (db.nodes.erase_map f hf i) rfl rfl

end Db

/-- A rewrite of every node row that keeps what the ephemeral sweep reads of a
node: its id, its owner and the two columns of its test. -/
structure NodeRewrite where
  f : Node → Node
  id_f : ∀ n, (f n).id = n.id
  userId_f : ∀ n, (f n).userId = n.userId
  ephemeral_f : ∀ n, (f n).ephemeral = n.ephemeral
  lastSeen_f : ∀ n, (f n).lastSeen = n.lastSeen

theorem ephemeralExpired_rewrite (g : NodeRewrite) (t thr : Int) (n : Node) :
    ephemeralExpired t thr (g.f n) = ephemeralExpired t thr n := by
  simp only [ephemeralExpired, g.ephemeral_f, g.lastSeen_f]

/-- A scan order that depends on the rows' ids alone, as a scan in rowid order
does: a rewrite that keeps every id leaves the order of the rows as it was. -/
def ScanOrder.ByKey (o : ScanOrder) : Prop :=
  ∀ (f : Node → Node), (∀ n, (f n).id = n.id) → ∀ l, o.arrange (l.map f) = (o.arrange l).map f

theorem ScanOrder.byKey_byId : ScanOrder.byId.ByKey := fun _ _ _ => rfl

/-! ## Deleting a node under a rewrite -/

section Delete

variable {f : Node → Node} (hf : ∀ n, (f n).id = n.id)

theorem deleteRouteRows_mapNodes (fails : Nat → Bool) :
    ∀ (rs : List Route) (db : Db), deleteRouteRows fails rs (db.mapNodes f hf) =
      ((deleteRouteRows fails rs db).1, (deleteRouteRows fails rs db).2.mapNodes f hf)
  | [], _ => rfl
  | r :: rs, db => by
    simp only [deleteRouteRows]
    split
    · rfl
    · rw [Db.eraseRoute_mapNodes]
      exact deleteRouteRows_mapNodes fails rs _

/-- `DeleteNode` reads of the node only its id. -/
theorem deleteNode_of_id {db : Db} {node node' : Node} (h : node.id = node'.id) (fd : DeleteFaults) :
    deleteNode db node fd = deleteNode db node' fd := by
  unfold deleteNode deleteNodeRoutes getNodeRoutes
  rw [h]

/-- Deleting a node from the rewritten store is deleting it and rewriting the
rest: `DeleteNode` reads only the route rows, and deletes by id. -/
theorem deleteNode_mapNodes (db : Db) (node : Node) (fd : DeleteFaults) :
    deleteNode (db.mapNodes f hf) node fd =
      ((deleteNode db node fd).1, (deleteNode db node fd).2.mapNodes f hf) := by
  unfold deleteNode deleteNodeRoutes
  rw [show getNodeRoutes (db.mapNodes f hf) node = getNodeRoutes db node from rfl]
  cases fd.getRoutes
  · simp only [if_false, Bool.false_eq_true, deleteRouteRows_mapNodes]
    rcases deleteRouteRows fd.route (getNodeRoutes db node) db with ⟨_ | ⟨⟩, db'⟩
    · rfl
    · dsimp only
      split
      · rfl
      · rw [Db.eraseNode_mapNodes]
  · rfl

end Delete

/-! ## The ephemeral sweep commutes with such rewrites -/

section Ephemeral

variable (g : NodeRewrite)

variable {o : ScanOrder}

theorem listNodesByUser_mapNodes (ho : o.ByKey) (db : Db) (name : String) :
    listNodesByUser o (db.mapNodes g.f g.id_f) name = (listNodesByUser o db name).map (List.map g.f) := by
  unfold listNodesByUser
  have hu : getUser (db.mapNodes g.f g.id_f) name = getUser db name := rfl
  rw [hu]
  cases getUser db name
  · rfl
  · simp [Except.map, Table.rows_map, List.filter_map, Function.comp_def, g.userId_f, ho g.f g.id_f]

variable {now : Nat → Int} {thr : Int}

/-- The loop over one user's nodes, run over the rewritten rows of the
rewritten store. -/
theorem expireUserNodes_mapNodes (fd : Nat → DeleteFaults) :
    ∀ (nodes : List Node) (db : Db) (expired : List Nat),
      expireUserNodes now thr fd (nodes.map g.f) (db.mapNodes g.f g.id_f) expired =
        ((expireUserNodes now thr fd nodes db expired).1.mapNodes g.f g.id_f,
          (expireUserNodes now thr fd nodes db expired).2)
  | [], _, _ => rfl
  | node :: rest, db, expired => by
    simp only [List.map_cons, expireUserNodes, g.id_f, ephemeralExpired_rewrite]
    split
    · rw [deleteNode_of_id (g.id_f node), deleteNode_mapNodes]
      exact expireUserNodes_mapNodes fd rest _ _
    · exact expireUserNodes_mapNodes fd rest db expired

theorem expireUsers_mapNodes (ho : o.ByKey) (f : EphemeralFaults) :
    ∀ (us : List User) (db : Db) (expired : List Nat),
      expireUsers o now thr f us (db.mapNodes g.f g.id_f) expired =
        ((expireUsers o now thr f us db expired).1,
          (expireUsers o now thr f us db expired).2.mapNodes g.f g.id_f)
  | [], _, _ => rfl
  | u :: us, db, expired => by
    simp only [expireUsers]
    cases f.listNodes u
    · simp only [if_false, Bool.false_eq_true, listNodesByUser_mapNodes g ho]
      rcases listNodesByUser o db u.name with e | nodes
      · rfl
      · simp only [Except.map]
        rw [expireUserNodes_mapNodes]
        exact expireUsers_mapNodes ho f us _ _
    · rfl

/-- The ephemeral sweep of the rewritten store reports what the sweep of the
store reports, and leaves the rewritten store the sweep leaves. -/
theorem expireEphemeralNodes_mapNodes (ho : o.ByKey) (f : EphemeralFaults) (db : Db) :
    expireEphemeralNodes o now thr f (db.mapNodes g.f g.id_f) =
      ((expireEphemeralNodes o now thr f db).1,
        (expireEphemeralNodes o now thr f db).2.mapNodes g.f g.id_f) := by
  unfold expireEphemeralNodes
  rw [Db.users_mapNodes, expireUsers_mapNodes g ho]
  split
  · rfl
  · rcases expireUsers o now thr f db.users db [] with ⟨_ | expired, db'⟩
    · rfl
    · dsimp only
      split <;> rfl

end Ephemeral

/-! ## The expiry sweep is such a rewrite -/

/-- What the expiry sweep makes of a row: a row due at its check gets the
clock's write instant as its expiry, unless its update fails. -/
def expiryPatch (clk : ExpiryClock) (lastCheck : Int) (fails : Nat → Bool) : NodeRewrite where
  f n := if expiryDue clk lastCheck n ∧ fails n.id = false then (Column.expiry (clk.write n.id)).apply n
    else n
  id_f n := by dsimp only; split <;> rfl
  userId_f n := by dsimp only; split <;> rfl
  ephemeral_f n := by dsimp only; split <;> rfl
  lastSeen_f n := by dsimp only; split <;> rfl

section Expiry

variable (clk : ExpiryClock) (lastCheck : Int)

/-- The expiry loop writes only node rows, in place. -/
theorem next_users_expireNodes (fails : Nat → Bool) :
    ∀ (nodes : List Node) (db : Db) (acc : List PeerChange),
      (expireNodes clk lastCheck fails nodes db acc).1.nodes.next = db.nodes.next ∧
        (expireNodes clk lastCheck fails nodes db acc).1.users = db.users
  | [], _, _ => ⟨rfl, rfl⟩
  | node :: rest, db, acc => by
    rw [expireNodes_cons]
    split
    · refine (next_users_expireNodes fails rest _ _).imp (fun h => h.trans ?_) (fun h => h.trans ?_) <;>
        split <;> rfl
    · exact next_users_expireNodes fails rest db acc

/-- A sweep that lists the nodes rewrites every row by `expiryPatch`. -/
theorem expireExpiredNodes_eq_mapNodes {o : ScanOrder} {f : ExpiryFaults} (h : f.listNodes = false)
    (db : Db) : (expireExpiredNodes o clk lastCheck f db).2 =
      db.mapNodes (expiryPatch clk lastCheck f.update).f (expiryPatch clk lastCheck f.update).id_f := by
  have hsnd := expireExpiredNodes_snd o clk lastCheck f db
  rw [h, if_neg Bool.false_ne_true] at hsnd
  obtain ⟨hn, hu⟩ := next_users_expireNodes clk lastCheck f.update (listNodes o db) db []
  refine Db.ext _ (Table.ext _ (fun i => ?_) ?_) ?_ ?_
  · rw [get_expireExpiredNodes h i, Db.nodes_mapNodes, Table.get_map]
    rcases hg : db.nodes.get i with _ | n
    · rfl
    · cases db.id_of_get hg; rfl
  · rw [hsnd, hn]; rfl
  · rw [hsnd, routes_expireNodes]; rfl
  · rw [hsnd, hu]; rfl

end Expiry

/-! ## The two sweeps commute -/

/-- The ephemeral sweep after the expiry sweep reports what it reports alone,
and leaves the store the expiry sweep leaves after it. -/
theorem expireEphemeralNodes_expireExpiredNodes (oe : ScanOrder) (clk : ExpiryClock)
    (lastCheck : Int) (fe : ExpiryFaults) {o : ScanOrder} (ho : o.ByKey) (now : Nat → Int) (thr : Int)
    (fp : EphemeralFaults) (db : Db) :
    expireEphemeralNodes o now thr fp (expireExpiredNodes oe clk lastCheck fe db).2 =
      ((expireEphemeralNodes o now thr fp db).1,
        (expireExpiredNodes oe clk lastCheck fe (expireEphemeralNodes o now thr fp db).2).2) := by
  cases h : fe.listNodes
  · rw [expireExpiredNodes_eq_mapNodes clk lastCheck h, expireExpiredNodes_eq_mapNodes clk lastCheck h,
      expireEphemeralNodes_mapNodes _ ho]
  · rw [expireExpiredNodes_snd, expireExpiredNodes_snd, h, if_pos rfl, if_pos rfl]

/-- The two background sweeps commute: for every registry, clock, threshold,
failure pattern and commit outcome, and every scan order of the expiry sweep,
the expiry sweep then the ephemeral sweep leave the registry the other order
leaves, and the expiry sweep before the ephemeral sweep does not change what
the ephemeral sweep reports, when the ephemeral sweep's scan order depends on
the rows' ids alone. -/
theorem sweeps_commute (env : Env) (s : Registry) (oe : ScanOrder) (clk : ExpiryClock)
    (lastCheck : Int) (fe : ExpiryFaults) (ce : Bool) {o : ScanOrder} (ho : o.ByKey)
    (now : Nat → Int) (inactivityThreshhold : Int) (fp : EphemeralFaults) (cp : Bool) :
    s.run env [.expireExpiredNodes oe clk lastCheck fe ce,
        .expireEphemeralNodes o now inactivityThreshhold fp cp] =
      s.run env [.expireEphemeralNodes o now inactivityThreshhold fp cp,
        .expireExpiredNodes oe clk lastCheck fe ce] ∧
    (expireEphemeralNodes o now inactivityThreshhold fp
        (s.step env (.expireExpiredNodes oe clk lastCheck fe ce)).db).1 =
      (expireEphemeralNodes o now inactivityThreshhold fp s.db).1 := by
  have hc := expireEphemeralNodes_expireExpiredNodes oe clk lastCheck fe ho now inactivityThreshhold
    fp s.db
  simp only [Registry.run, List.foldl, Registry.step, settle]
  cases ce <;> cases cp <;> simp only [if_true, if_false, Bool.false_eq_true, hc, and_self]

/-- `teamRegistry` swept at 100 with a threshold of 10, and for expiries with
a cursor of 0, in both orders. -/
theorem sweeps_commute_team :
    ScanOrder.byId.ByKey ∧
      teamRegistry.run sampleEnv [.expireExpiredNodes .byId ⟨20, fun _ => 10, fun _ => 12⟩ 0 {} true,
          .expireEphemeralNodes .byId (fun _ => 100) 10 {} true] =
        teamRegistry.run sampleEnv [.expireEphemeralNodes .byId (fun _ => 100) 10 {} true,
          .expireExpiredNodes .byId ⟨20, fun _ => 10, fun _ => 12⟩ 0 {} true] ∧
      (expireEphemeralNodes .byId (fun _ => 100) 10 {}
          (teamRegistry.step sampleEnv
            (.expireExpiredNodes .byId ⟨20, fun _ => 10, fun _ => 12⟩ 0 {} true)).db).1 =
        (expireEphemeralNodes .byId (fun _ => 100) 10 {} teamRegistry.db).1 :=
  ⟨ScanOrder.byKey_byId, sweeps_commute sampleEnv teamRegistry .byId ⟨20, fun _ => 10, fun _ => 12⟩ 0 {}
    true ScanOrder.byKey_byId (fun _ => 100) 10 {} true⟩

/-- `DeleteNode` commutes with the expiry sweep: for every registry, node,
failure pattern and commit outcome of the two, deleting then sweeping leaves
the registry that sweeping then deleting leaves.  The sweep rewrites rows in
place and reads no route; the deletion reads only route rows and deletes by
id. -/
theorem deleteNode_commutes_with_expiry_sweep (env : Env) (s : Registry) (node : Node)
    (f : DeleteFaults) (commit : Bool) (oe : ScanOrder) (clk : ExpiryClock) (lastCheck : Int)
    (fe : ExpiryFaults) (ce : Bool) :
    s.run env [.deleteNode node f commit, .expireExpiredNodes oe clk lastCheck fe ce] =
      s.run env [.expireExpiredNodes oe clk lastCheck fe ce, .deleteNode node f commit] := by
  have h : ∀ db : Db,
      (expireExpiredNodes oe clk lastCheck fe (write db commit (deleteNode db node f)).2).2 =
        (write (expireExpiredNodes oe clk lastCheck fe db).2 commit
          (deleteNode (expireExpiredNodes oe clk lastCheck fe db).2 node f)).2 := by
    intro db
    cases hl : fe.listNodes
    · rw [expireExpiredNodes_eq_mapNodes clk lastCheck hl, expireExpiredNodes_eq_mapNodes clk lastCheck hl,
        deleteNode_mapNodes]
      rcases deleteNode db node f with ⟨_ | ⟨⟩, d⟩ <;> cases commit <;> rfl
    · rw [expireExpiredNodes_snd, expireExpiredNodes_snd, hl, if_pos rfl, if_pos rfl]
  simp only [Registry.run, List.foldl, Registry.step, settle]
  cases ce <;> simp only [if_true, if_false, Bool.false_eq_true, h]

/-! ## The column setters against the sweeps -/

/-- The row rewrite of writing the columns `cs`, in turn, into row `i`. -/
def writeRow (i : Nat) (cs : List Column) (n : Node) : Node :=
  if n.id = i then cs.foldl (fun n c => c.apply n) n else n

/-- Whether a column is `LastSeen`, the column the ephemeral test reads. -/
def Column.isLastSeen : Column → Bool
  | .lastSeen _ => true
  | _ => false

theorem Column.ephemeral_apply (c : Column) (n : Node) : (c.apply n).ephemeral = n.ephemeral := by
  cases c <;> rfl

theorem Column.lastSeen_apply {c : Column} (hc : c.isLastSeen = false) (n : Node) :
    (c.apply n).lastSeen = n.lastSeen := by
  cases c <;> first | rfl | cases hc

/-- A write of another column commutes with the write of an expiry. -/
theorem Column.apply_expiry_comm {c : Column} (hc : c.isExpiry = false) (t : Int) (n : Node) :
    c.apply ((Column.expiry t).apply n) = (Column.expiry t).apply (c.apply n) := by
  cases c <;> first | rfl | cases hc

section WriteRow

variable (i : Nat) {cs : List Column}

/-- What every column of `cs` keeps, writing them in turn keeps. -/
theorem foldl_apply_keeps {β : Type} (π : Node → β) : ∀ {cs : List Column},
    (∀ c ∈ cs, ∀ n, π (c.apply n) = π n) → ∀ n, π (cs.foldl (fun n c => c.apply n) n) = π n
  | [], _, _ => rfl
  | c :: _, h, n => (foldl_apply_keeps π (fun c' hc' => h c' (List.mem_cons_of_mem _ hc')) _).trans
      (h c (List.mem_cons_self _ _) n)

theorem writeRow_keeps {β : Type} (π : Node → β) (h : ∀ c ∈ cs, ∀ n, π (c.apply n) = π n)
    (n : Node) : π (writeRow i cs n) = π n := by
  unfold writeRow
  split
  · exact foldl_apply_keeps π h n
  · rfl

theorem id_writeRow (cs : List Column) (n : Node) : (writeRow i cs n).id = n.id :=
  writeRow_keeps i Node.id (fun c _ => c.id_apply) n

/-- Writing one column into row `i` rewrites the store by `writeRow`. -/
theorem updateNode_eq_mapNodes (db : Db) (c : Column) :
    db.updateNode i c = db.mapNodes (writeRow i [c]) (id_writeRow i [c]) := by
  refine Db.ext _ (Table.ext _ (fun j => ?_) rfl) rfl rfl
  rw [Db.nodes_updateNode, Table.get_update, Db.nodes_mapNodes, Table.get_map]
  rcases hg : db.nodes.get j with _ | n
  · split <;> rfl
  · cases db.id_of_get hg
    by_cases hn : n.id = i <;>
      simp only [hn, if_true, if_false, Option.map_some', writeRow, List.foldl_cons, List.foldl_nil]

/-- Writing the columns `cs` in turn into row `i` rewrites the store by
`writeRow`. -/
theorem foldl_updateNode_eq_mapNodes : ∀ (cs : List Column) (db : Db),
    cs.foldl (fun d c => d.updateNode i c) db = db.mapNodes (writeRow i cs) (id_writeRow i cs)
  | [], db => by
    have hid : writeRow i [] = id := funext fun n => by unfold writeRow; split <;> rfl
    exact Db.ext _ (Table.ext _ (fun j => by simp only [List.foldl_nil, Db.nodes_mapNodes,
      Table.get_map, hid, Option.map_id, id_eq]) rfl) rfl rfl
  | c :: cs, db => by
    rw [List.foldl_cons, foldl_updateNode_eq_mapNodes cs, updateNode_eq_mapNodes]
    refine Db.ext _ (Table.ext _ (fun j => ?_) rfl) rfl rfl
    simp only [Db.nodes_mapNodes, Table.get_map, Option.map_map]
    congr 1
    funext n
    show writeRow i cs (writeRow i [c] n) = writeRow i (c :: cs) n
    by_cases hn : n.id = i
    · simp only [writeRow, hn, c.id_apply, if_true, List.foldl_cons, List.foldl_nil]
    · simp only [writeRow, hn, if_false]

/-- Writing columns other than `LastSeen` is a rewrite the ephemeral sweep cannot
see. -/
def writeRowRewrite (cs : List Column) (hc : ∀ c ∈ cs, c.isLastSeen = false) : NodeRewrite where
  f := writeRow i cs
  id_f := id_writeRow i cs
  userId_f := writeRow_keeps i Node.userId fun c _ => c.userId_apply
  ephemeral_f := writeRow_keeps i Node.ephemeral fun c _ => c.ephemeral_apply
  lastSeen_f := writeRow_keeps i Node.lastSeen fun c hc' => Column.lastSeen_apply (hc c hc')

/-- Writing columns other than `Expiry` in turn commutes with writing an
expiry. -/
theorem foldl_apply_expiry_comm : ∀ {cs : List Column}, (∀ c ∈ cs, c.isExpiry = false) →
    ∀ (t : Int) (n : Node), cs.foldl (fun n c => c.apply n) ((Column.expiry t).apply n) =
      (Column.expiry t).apply (cs.foldl (fun n c => c.apply n) n)
  | [], _, _, _ => rfl
  | c :: cs, hc, t, n => by
    rw [List.foldl_cons, List.foldl_cons, Column.apply_expiry_comm (hc c (List.mem_cons_self _ _))]
    exact foldl_apply_expiry_comm (fun c' hc' => hc c' (List.mem_cons_of_mem _ hc')) t _

/-- Writing columns other than `Expiry` commutes, row by row, with what the
expiry sweep writes: the sweep reads only the id and the expiry. -/
theorem expiryPatch_writeRow (clk : ExpiryClock) (lastCheck : Int) (fails : Nat → Bool)
    (hc : ∀ c ∈ cs, c.isExpiry = false) (n : Node) :
    (expiryPatch clk lastCheck fails).f (writeRow i cs n) =
      writeRow i cs ((expiryPatch clk lastCheck fails).f n) := by
  have hid := id_writeRow i cs n
  have hexp : (writeRow i cs n).expiry = n.expiry :=
    writeRow_keeps i Node.expiry (fun c hc' => Column.expiry_apply (hc c hc')) n
  have hdue : expiryDue clk lastCheck (writeRow i cs n) = expiryDue clk lastCheck n := by
    simp only [expiryDue, Node.isExpired, expiryAfter, hid, hexp]
  simp only [expiryPatch, hid, hdue]
  split
  · unfold writeRow
    rw [Column.id_apply]
    split
    · exact (foldl_apply_expiry_comm hc _ n).symm
    · rfl
  · rfl

end WriteRow

/-- The row a single-column setter request writes, and the columns it writes
there: none when it fails, is rolled back or has nothing to write.  Whether it
writes is decided by its arguments alone, never by the store. -/
def Op.setterWrite : Op → Option (Nat × List Column)
  | .setTags nodeId tags fails commit =>
    some (nodeId, if decide (tags.length = 0) || fails || !commit then []
      else [.forcedTags (dedupTags [] tags)])
  | .renameNode nodeId newName fails commit =>
    some (nodeId, if checkForFQDNRules newName && !fails && commit then [.givenName newName] else [])
  | .nodeSetExpiry nodeId expiry fails commit =>
    some (nodeId, if !fails && commit then [.expiry expiry] else [])
  | .updateLastSeen nodeId lastSeen fails commit =>
    some (nodeId, if !fails && commit then [.lastSeen lastSeen] else [])
  | .nodeSetNodeKey node nodeKey fails commit =>
    some (node.id, if nodeKey ≠ 0 ∧ fails = false ∧ commit = true then [.nodeKey nodeKey] else [])
  | .nodeSetMachineKey node machineKey fails commit =>
    some (node.id, if machineKey ≠ 0 ∧ fails = false ∧ commit = true then [.machineKey machineKey]
      else [])
  | _ => none

/-- A setter request writes its columns into its row. -/
theorem step_of_setterWrite {op : Op} {i : Nat} {cs : List Column} (h : op.setterWrite = some (i, cs))
    (env : Env) (s : Registry) :
    s.step env op = { s with db := cs.foldl (fun d c => d.updateNode i c) s.db } := by
  cases op <;> simp only [Op.setterWrite, Option.some.injEq, Prod.mk.injEq, reduceCtorEq] at h
  all_goals obtain ⟨rfl, rfl⟩ := h
  all_goals rename_i fails commit; cases fails <;> cases commit <;> simp [Registry.step, settle, setTags, renameNode,
    nodeSetExpiry, updateLastSeen, nodeSetNodeKey, nodeSetMachineKey, updateNodeColumns] <;> split_ifs <;> rfl

/-- Every single-column setter request commutes with each background sweep
whose test does not read the column it writes: with the ephemeral sweep unless
it writes `LastSeen`, with the expiry sweep unless it writes `Expiry`.  This
holds for every registry, every argument and failure pattern of the three
requests, and every commit outcome. -/
theorem setters_commute_with_sweeps (env : Env) (s : Registry) {op : Op} {i : Nat}
    {cs : List Column} (hop : op.setterWrite = some (i, cs)) {o : ScanOrder} (ho : o.ByKey)
    (now : Nat → Int) (inactivityThreshhold : Int) (fp : EphemeralFaults) (cp : Bool)
    (oe : ScanOrder) (clk : ExpiryClock) (lastCheck : Int) (fe : ExpiryFaults) (ce : Bool) :
    ((∀ c ∈ cs, c.isLastSeen = false) →
      s.run env [op, .expireEphemeralNodes o now inactivityThreshhold fp cp] =
        s.run env [.expireEphemeralNodes o now inactivityThreshhold fp cp, op]) ∧
    ((∀ c ∈ cs, c.isExpiry = false) →
      s.run env [op, .expireExpiredNodes oe clk lastCheck fe ce] =
        s.run env [.expireExpiredNodes oe clk lastCheck fe ce, op]) := by
  simp only [Registry.run, List.foldl, step_of_setterWrite hop, foldl_updateNode_eq_mapNodes]
  refine ⟨fun hc => ?_, fun hc => ?_⟩
  · have h : expireEphemeralNodes o now inactivityThreshhold fp
          (s.db.mapNodes (writeRow i cs) (id_writeRow i cs)) =
        ((expireEphemeralNodes o now inactivityThreshhold fp s.db).1,
          (expireEphemeralNodes o now inactivityThreshhold fp s.db).2.mapNodes (writeRow i cs)
            (id_writeRow i cs)) :=
      expireEphemeralNodes_mapNodes (writeRowRewrite i cs hc) ho fp s.db
    cases cp <;> simp only [Registry.step, settle, if_true, if_false, Bool.false_eq_true, h]
  · have h : (expireExpiredNodes oe clk lastCheck fe
          (s.db.mapNodes (writeRow i cs) (id_writeRow i cs))).2 =
        (expireExpiredNodes oe clk lastCheck fe s.db).2.mapNodes (writeRow i cs) (id_writeRow i cs) := by
      cases hl : fe.listNodes
      · rw [expireExpiredNodes_eq_mapNodes clk lastCheck hl, expireExpiredNodes_eq_mapNodes clk lastCheck hl]
        exact Db.mapNodes_comm _ _ _ fun n => (expiryPatch_writeRow i clk lastCheck fe.update hc n).symm
      · rw [expireExpiredNodes_snd, expireExpiredNodes_snd, hl, if_pos rfl, if_pos rfl]
    cases ce <;> simp only [Registry.step, settle, if_true, if_false, Bool.false_eq_true, h]

/-- The laptop's node key rotated to 9, against both sweeps. -/
theorem setters_commute_with_sweeps_laptop :
    let op := Op.nodeSetNodeKey { laptop with id := 1 } 9 false true
    let s := sampleRegistry.run sampleEnv [.registerNode (.fresh laptop) false true]
    let clk : ExpiryClock := ⟨20, fun _ => 10, fun _ => 12⟩
    op.setterWrite = some (1, [.nodeKey 9]) ∧ ScanOrder.byId.ByKey ∧
      ((∀ c ∈ [Column.nodeKey 9], c.isLastSeen = false) →
        s.run sampleEnv [op, .expireEphemeralNodes .byId (fun _ => 100) 10 {} true] =
          s.run sampleEnv [.expireEphemeralNodes .byId (fun _ => 100) 10 {} true, op]) ∧
      ((∀ c ∈ [Column.nodeKey 9], c.isExpiry = false) →
        s.run sampleEnv [op, .expireExpiredNodes .byId clk 0 {} true] =
          s.run sampleEnv [.expireExpiredNodes .byId clk 0 {} true, op]) :=
  have hop : (Op.nodeSetNodeKey { laptop with id := 1 } 9 false true).setterWrite =
      some (1, [.nodeKey 9]) := rfl
  ⟨hop, ScanOrder.byKey_byId, setters_commute_with_sweeps sampleEnv _ hop ScanOrder.byKey_byId
    (fun _ => 100) 10 {} true .byId ⟨20, fun _ => 10, fun _ => 12⟩ 0 {} true⟩

end Headscale
